import Mathlib
import Redeclaration.Token.Lexer

/-!
Runs of the lexer. A run has cut some tokens off the front of a text and goes on
with the rest, so that whatever one lexeme preserves holds wherever the lexer
stands. Main statement: the texts of the tokens are the source, piece by piece.
-/

namespace Redeclaration

namespace Lexer

/-- The token that a lexeme cuts off. -/
def cut (r : Reading) (l : Lexeme) (c : Char) (cs : List Char) : Token :=
  ⟨l.kind, String.ofList (c :: cs.take l.more), r.line⟩

/-- The characters of a list of tokens. -/
def textOf (ts : List Token) : List Char :=
  ts.flatMap (·.text.toList)

/-- From the start of a text the lexer cuts off some tokens, and is then in a
state in which it goes on with the rest. -/
inductive Reaches (source : List Char) : List Token → Reading → List Char → Prop
  | start : Reaches source [] {} source
  | step {ts : List Token} {r : Reading} {c : Char} {cs : List Char} {l : Lexeme}
      (before : Reaches source ts r (c :: cs)) (hl : lexeme r c cs = .ok l) :
      Reaches source (ts ++ [cut r l c cs]) (advance r (cut r l c cs) l.next) (cs.drop l.more)

/-- Where the lexer gives up, and why. -/
def Stuck (r : Reading) (fault : Fault) : List Char → Prop
  | [] => faultAtEnd? r.mode = some fault
  | c :: cs => lexeme r c cs = .error fault

theorem tokens_ok_reaches (source : List Char) (r : Reading) (rest : List Char)
    (ts us : List Token) (h : Reaches source ts r rest) (hok : tokens r rest = .ok us) :
    ∃ r', Reaches source (ts ++ us) r' [] ∧ faultAtEnd? r'.mode = none := by
  fun_induction tokens r rest generalizing ts us with
  | case1 r hnone =>
    cases hok
    exact ⟨r, by simpa using h, hnone⟩
  | case2 => cases hok
  | case3 => cases hok
  | case4 => cases hok
  | case5 r c cs l hl t vs htokens ih =>
    cases hok
    have hnext : Reaches source (ts ++ [t]) (advance r t l.next) (cs.drop l.more) := h.step hl
    obtain ⟨r', hr', hend⟩ := ih (ts ++ [t]) vs hnext htokens
    refine ⟨r', ?_, hend⟩
    rwa [List.append_assoc] at hr'

theorem tokens_error_reaches (source : List Char) (r : Reading) (rest : List Char)
    (ts : List Token) (e : SourceError) (h : Reaches source ts r rest)
    (herror : tokens r rest = .error e) :
    ∃ us r' rest', Reaches source (ts ++ us) r' rest' ∧ e.line = r'.line ∧
      Stuck r' e.fault rest' := by
  fun_induction tokens r rest generalizing ts with
  | case1 => cases herror
  | case2 r fault hfault =>
    cases herror
    exact ⟨[], r, [], by simpa using h, rfl, hfault⟩
  | case3 r c cs fault hl =>
    cases herror
    exact ⟨[], r, c :: cs, by simpa using h, rfl, hl⟩
  | case4 r c cs l hl t e' htokens ih =>
    cases herror
    have hnext : Reaches source (ts ++ [t]) (advance r t l.next) (cs.drop l.more) := h.step hl
    obtain ⟨us, r', rest', hr', hline, hstuck⟩ := ih (ts ++ [t]) hnext htokens
    refine ⟨t :: us, r', rest', ?_, hline, hstuck⟩
    rwa [List.append_assoc] at hr'
  | case5 => cases herror

theorem textOf_snoc (ts : List Token) (t : Token) :
    textOf (ts ++ [t]) = textOf ts ++ t.text.toList := by
  simp [textOf]

theorem cut_text (r : Reading) (l : Lexeme) (c : Char) (cs : List Char) :
    (cut r l c cs).text.toList = c :: cs.take l.more := by
  simp [cut]

/-- Nothing is lost: what is cut off and what is left are the text. -/
theorem reaches_text (source : List Char) (ts : List Token) (r : Reading) (rest : List Char)
    (h : Reaches source ts r rest) : source = textOf ts ++ rest := by
  induction h with
  | start => rfl
  | @step ts r c cs l before hl ih =>
    have hsplit : c :: cs = (c :: cs.take l.more) ++ cs.drop l.more := by
      rw [List.cons_append, List.take_append_drop]
    rw [textOf_snoc, cut_text, List.append_assoc, ← hsplit]
    exact ih

/-- Every token of a run was cut off where an earlier part of it stood. -/
theorem reaches_at (source : List Char) (ts : List Token) (r : Reading) (rest : List Char)
    (h : Reaches source ts r rest) (pre post : List Token) (t : Token)
    (hts : ts = pre ++ t :: post) :
    ∃ r' c cs l, Reaches source pre r' (c :: cs) ∧ lexeme r' c cs = .ok l ∧
      t = cut r' l c cs := by
  induction h generalizing post with
  | start => simp at hts
  | @step ts r c cs l before hl ih =>
    rcases List.eq_nil_or_concat post with rfl | ⟨post', u, rfl⟩
    · obtain ⟨rfl, ht⟩ := List.append_inj' hts rfl
      cases ht
      exact ⟨r, c, cs, l, before, hl, rfl⟩
    · rw [List.concat_eq_append, ← List.cons_append, ← List.append_assoc] at hts
      exact ih post' (List.append_inj' hts rfl).1

/-- A token list that is accepted comes from a run over the whole source. -/
theorem tokens_of_tokenize (source : String) (ts : List Token) (h : tokenize source = .ok ts) :
    tokens {} source.toList = .ok ts := by
  unfold tokenize at h
  cases ht : tokens {} source.toList with
  | error e =>
    rw [ht] at h
    cases h
  | ok us =>
    rw [ht] at h
    cases hb : checkBrackets (endLine us) [] us with
    | error e =>
      simp only [bind, Except.bind, hb] at h
      cases h
    | ok _ =>
      simp only [bind, Except.bind, hb, pure, Except.pure] at h
      exact h

theorem reaches_of_tokenize (source : String) (ts : List Token)
    (h : tokenize source = .ok ts) : ∃ r, Reaches source.toList ts r [] := by
  obtain ⟨r, hr, -⟩ := tokens_ok_reaches source.toList {} source.toList [] ts .start
    (tokens_of_tokenize source ts h)
  exact ⟨r, by simpa using hr⟩

end Lexer

/-- The texts of the tokens are the source in pieces, none of which is empty. -/
theorem tokenize_lossless (source : String) (ts : List Token) (h : tokenize source = .ok ts) :
    (∀ t ∈ ts, t.text ≠ "") ∧ String.join (ts.map (·.text)) = source := by
  obtain ⟨r, hr⟩ := Lexer.reaches_of_tokenize source ts h
  constructor
  · intro t ht hempty
    obtain ⟨pre, post, hts⟩ := List.append_of_mem ht
    obtain ⟨r', c, cs, l, -, -, hcut⟩ := Lexer.reaches_at _ ts r [] hr pre post t hts
    have htext := Lexer.cut_text r' l c cs
    rw [← hcut, hempty] at htext
    cases htext
  · have htext := Lexer.reaches_text _ ts r [] hr
    rw [List.append_nil] at htext
    apply String.toList_inj.1
    rw [htext, String.toList_join, List.flatMap_map]
    rfl

theorem tokenize_lossless_heredoc :
    ∃ ts, tokenize "<b><?php\n<<<X\n-\x7b$a\x7d\n X;__halt_compiler(); rest" = .ok ts ∧
      ts.length = 13 ∧ (∀ t ∈ ts, t.text ≠ "") ∧ String.join (ts.map (·.text)) =
        "<b><?php\n<<<X\n-\x7b$a\x7d\n X;__halt_compiler(); rest" := by
  have h : tokenize "<b><?php\n<<<X\n-\x7b$a\x7d\n X;__halt_compiler(); rest" = .ok
      [⟨.inlineHtml, "<b>", 1⟩, ⟨.openTag, "<?php\n", 1⟩, ⟨.stringLiteral, "<<<X\n-", 2⟩,
        ⟨.curlyOpen, "\x7b", 3⟩, ⟨.variableName, "$a", 3⟩, ⟨.closeBrace, "\x7d", 3⟩,
        ⟨.stringLiteral, "\n X", 3⟩, ⟨.punct, ";", 4⟩, ⟨.reserved, "__halt_compiler", 4⟩,
        ⟨.punct, "(", 4⟩, ⟨.punct, ")", 4⟩, ⟨.punct, ";", 4⟩,
        ⟨.inlineHtml, " rest", 4⟩] := by cbv
  exact ⟨_, h, rfl, tokenize_lossless _ _ h⟩

end Redeclaration
