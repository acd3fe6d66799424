import Redeclaration.Proofs.Token.Cuts
import Redeclaration.Proofs.Token.Run

/-!
The lines of tokens and of faults. Lines are counted lexeme by lexeme, and since
no lexeme ends inside of a line break, they are the lines of the whole source.
Main statement: a token stands on the line of its offset, and a fault on the line
of what it blames.
-/

namespace Redeclaration.Lexer

open Text

/-- The lexer comes to an offset of a text in a state. -/
def StandsAt (source : List Char) (o : Nat) (r : Reading) : Prop :=
  ∃ ts, Reaches source ts r (source.drop o) ∧ (textOf ts).length = o

/-- A string without an end, from the text after its opening on. -/
def Unfinished : Quoting → List Char → Prop
  | .single, body => singleEnd? 0 body = none
  | .nowdoc label, body => nowdocEnd? label true 0 body = none
  | .interpolated closing, body => fragmentEnd closing true 0 body = .missing

def unfinishedFault : Quoting → Fault
  | .single => .unterminatedString
  | .nowdoc label => .unterminatedNowdoc (String.ofList label)
  | .interpolated closing => missingEnd closing

/-- What stands at the offset on whose line a fault is found. -/
inductive Blamed (source : List Char) : Nat → Fault → Prop
  /-- The start of a comment that does not end. -/
  | comment {o : Nat} {r : Reading} {waiting : List Interruption} (here : StandsAt source o r)
      (mode : r.mode = .code waiting) (opens : ['/', '*'] <+: source.drop o)
      (endless : ∀ p, o + 2 ≤ p → ¬ ['*', '/'] <+: source.drop p) :
      Blamed source o .unterminatedComment
  /-- The start of a string without an end and without an interpolation. -/
  | string {o : Nat} {r : Reading} {waiting : List Interruption} {opening : Opening}
      (here : StandsAt source o r) (mode : r.mode = .code waiting)
      (opens : opening? (source.drop o) = some opening)
      (endless : Unfinished opening.quoting (source.drop (o + opening.length))) :
      Blamed source o (unfinishedFault opening.quoting)
  /-- The start of the last fragment of a string that does not end. -/
  | fragment {o : Nat} {r : Reading} {closing : Closing} {waiting : List Interruption}
      (here : StandsAt source o r) (mode : r.mode = .string closing waiting)
      (endless : fragmentEnd closing false 0 (source.drop o) = .missing) :
      Blamed source o (missingEnd closing)
  /-- A closing tag in the code of an interpolation. -/
  | tag {o : Nat} {r : Reading} {i : Interruption} {waiting : List Interruption}
      (here : StandsAt source o r) (mode : r.mode = .code (i :: waiting))
      (closes : ['?', '>'] <+: source.drop o) : Blamed source o (.unexpectedToken "?>")
  /-- The first bracket that closes another one than the last that is open. -/
  | bracket {pre post : List Token} {t : Token} {pending : List Bracket} {b : Bracket}
      (whole : tokens {} source = .ok (pre ++ t :: post))
      (before : pre.foldlM (fun open_ t => t.bracketsAfter? open_) [] = some pending)
      (closes : t.closes? = some b) (wrong : pending.head? ≠ some b) :
      Blamed source (textOf pre).length (.unexpectedToken t.text)
  /-- The end of the source, where code or a bracket is still open. -/
  | ending : Blamed source source.length .unexpectedEnd

/-- Wherever the lexer stands, its line is that of its offset. -/
theorem reaches_lines (source : List Char) (ts : List Token) (r : Reading) (rest : List Char)
    (h : Reaches source ts r rest) :
    r.mode.Sound ∧ CleanCut (textOf ts) rest ∧
      r.line = 1 + breaksBefore source (textOf ts).length := by
  induction h with
  | start =>
    refine ⟨trivial, ?_, rfl⟩
    intro hlast
    cases hlast
  | @step ts r c cs l before hl ih =>
    -- The lexeme is cut off cleanly, so its breaks are those of the whole source.
    obtain ⟨hsound, -, hline⟩ := ih
    obtain ⟨hcut, hnext⟩ := lexeme_cut r c cs l hsound hl
    have hsource := reaches_text source ts r (c :: cs) before
    have hsplit : c :: cs = (c :: cs.take l.more) ++ cs.drop l.more := by
      rw [List.cons_append, List.take_append_drop]
    have hbreaks : breaksBefore (c :: cs) (c :: cs.take l.more).length =
        breaksBefore (c :: cs.take l.more) (c :: cs.take l.more).length := by
      rw [hsplit]
      exact breaksBefore_cut _ _ hcut
    refine ⟨hnext, ?_, ?_⟩
    · rw [textOf_snoc, cut_text]
      exact cleanCut_append _ _ _ (by simp) hcut
    · calc (advance r (cut r l c cs) l.next).line
          = lineAfter r.line (c :: cs.take l.more) := by rw [← cut_text r l c cs]; rfl
        _ = r.line + breaksBefore (c :: cs) (c :: cs.take l.more).length := by
          rw [lineAfter_eq, hbreaks]
        _ = 1 + breaksBefore source (textOf (ts ++ [cut r l c cs])).length := by
          rw [textOf_snoc, cut_text, List.length_append, hsource, breaksBefore_append, hline,
            hsource, Nat.add_assoc]

theorem reaches_endLine (source : List Char) (ts : List Token) (r : Reading) (rest : List Char)
    (h : Reaches source ts r rest) : endLine ts = r.line := by
  induction h with
  | start => rfl
  | @step ts r c cs l before hl ih =>
    unfold endLine at ih ⊢
    rw [List.foldl_append, ih]
    rfl

theorem standsAt_of_reaches (source : List Char) (ts : List Token) (r : Reading)
    (rest : List Char) (h : Reaches source ts r rest) :
    source.drop (textOf ts).length = rest ∧ StandsAt source (textOf ts).length r := by
  have hsource := reaches_text source ts r rest h
  have hdrop : source.drop (textOf ts).length = rest := by
    rw [hsource, List.drop_left]
  exact ⟨hdrop, ts, by rwa [hdrop], rfl⟩

theorem stringStart_error (waiting : List Interruption) (o : Opening) (c : Char)
    (cs : List Char) (fault : Fault) (hpos : 0 < o.length)
    (h : stringStart waiting o cs = .error fault) :
    fault = unfinishedFault o.quoting ∧
      Unfinished o.quoting ((c :: cs).drop o.length) := by
  rw [← drop_pred c cs o.length hpos]
  unfold stringStart at h
  cases hq : o.quoting with
  | single =>
    cases hend : singleEnd? (o.length - 1) (cs.drop (o.length - 1)) with
    | none =>
      simp only [hq, hend, Except.error.injEq] at h
      exact ⟨h.symm, singleEnd?_none _ 0 _ hend⟩
    | some n => simp [hq, hend] at h
  | nowdoc label =>
    cases hend : nowdocEnd? label true (o.length - 1) (cs.drop (o.length - 1)) with
    | none =>
      simp only [hq, hend, Except.error.injEq] at h
      exact ⟨h.symm, nowdocEnd?_none label true _ 0 _ hend⟩
    | some n => simp [hq, hend] at h
  | interpolated closing =>
    cases hend : fragmentEnd closing true (o.length - 1) (cs.drop (o.length - 1)) with
    | closed n => simp [hq, hend] at h
    | interrupted n => simp [hq, hend] at h
    | missing =>
      simp only [hq, hend, Except.error.injEq] at h
      exact ⟨h.symm, fragmentEnd_missing closing true _ 0 _ hend⟩

theorem blockComment_error (waiting : List Interruption) (c : Char) (cs : List Char)
    (fault : Fault) (h : blockComment waiting cs = .error fault) :
    fault = .unterminatedComment ∧ ∀ p, 2 ≤ p → ¬ ['*', '/'] <+: (c :: cs).drop p := by
  unfold blockComment at h
  cases hfind : findSuffix? ['*', '/'].isPrefixOf (cs.drop 1) with
  | some n =>
    rw [hfind] at h
    cases h
  | none =>
    simp only [hfind, Except.error.injEq] at h
    refine ⟨h.symm, ?_⟩
    intro p hp hstar
    -- The search starts after the two characters that open the comment.
    have hdrop : (c :: cs).drop p = (cs.drop 1).drop (p - 2) := by
      obtain ⟨m, rfl⟩ := Nat.exists_eq_add_of_le hp
      rw [List.drop_drop, Nat.add_sub_cancel_left, Nat.add_comm 2 m, List.drop_succ_cons,
        Nat.add_comm 1 m]
    rw [hdrop] at hstar
    by_cases hle : p - 2 ≤ (cs.drop 1).length
    · have hno := findSuffix?_eq_none _ _ hfind (p - 2) hle
      rw [List.isPrefixOf_iff_prefix.2 hstar] at hno
      cases hno
    · rw [List.drop_of_length_le (by omega)] at hstar
      cases List.prefix_nil.1 hstar

theorem code_error (source : List Char) (o : Nat) (r : Reading) (waiting : List Interruption)
    (c : Char) (cs : List Char) (fault : Fault) (here : StandsAt source o r)
    (hrest : source.drop o = c :: cs) (hm : r.mode = .code waiting)
    (h : code r waiting c cs = .error fault) : Blamed source o fault := by
  have hdrop (n : Nat) : source.drop (o + n) = (c :: cs).drop n := by
    rw [← List.drop_drop, hrest]
  unfold code at h
  split at h
  · cases h
  split at h
  · cases h
  split at h
  · rename_i htag
    cases waiting with
    | nil => cases h
    | cons i waiting =>
      cases h
      refine .tag here hm ?_
      rw [hrest]
      exact List.isPrefixOf_iff_prefix.1 htag
  split at h
  · rename_i hopens
    obtain ⟨rfl, hendless⟩ := blockComment_error waiting c cs fault h
    refine .comment here hm ?_ ?_
    · rw [hrest]
      exact List.isPrefixOf_iff_prefix.1 hopens
    · intro p hp
      obtain ⟨m, rfl⟩ := Nat.exists_eq_add_of_le hp
      rw [Nat.add_assoc, hdrop]
      exact hendless (2 + m) (by omega)
  split at h
  · rename_i opening hopening
    have hpos := (opening?_sound _ opening hopening).2
    obtain ⟨rfl, hendless⟩ := stringStart_error waiting opening c cs fault hpos h
    have hopens : opening? (source.drop o) = some opening := by rw [hrest, hopening]
    rw [← hdrop] at hendless
    exact .string here hm hopens hendless
  · cases h

/-- The lexer gives up at what the fault blames. -/
theorem stuck_blamed (source : List Char) (ts : List Token) (r : Reading) (rest : List Char)
    (fault : Fault) (h : Reaches source ts r rest) (hstuck : Stuck r fault rest) :
    Blamed source (textOf ts).length fault := by
  obtain ⟨hdrop, here⟩ := standsAt_of_reaches source ts r rest h
  cases rest with
  | nil =>
    have hlen : (textOf ts).length = source.length := by
      rw [reaches_text source ts r [] h, List.append_nil]
    unfold Stuck at hstuck
    cases hm : r.mode with
    | html => simp [hm, faultAtEnd?] at hstuck
    | data => simp [hm, faultAtEnd?] at hstuck
    | code waiting =>
      cases waiting with
      | nil => simp [hm, faultAtEnd?] at hstuck
      | cons i waiting =>
        simp only [hm, faultAtEnd?, Option.some.injEq] at hstuck
        rw [← hstuck, hlen]
        exact .ending
    | string closing waiting =>
      -- The last fragment is empty, and starts where the source ends.
      simp only [hm, faultAtEnd?, Option.some.injEq] at hstuck
      rw [← hstuck]
      refine .fragment here hm ?_
      rw [hdrop]
      cases closing <;> simp [fragmentEnd, Closing.length?]
  | cons c cs =>
    simp only [Stuck, lexeme] at hstuck
    cases hm : r.mode with
    | html =>
      rw [hm] at hstuck
      cases hstuck
    | data =>
      rw [hm] at hstuck
      cases hstuck
    | code waiting =>
      rw [hm] at hstuck
      exact code_error source _ r waiting c cs fault here hdrop hm hstuck
    | string closing waiting =>
      simp only [hm, stringRest] at hstuck
      cases hend : fragmentEnd closing false 0 (c :: cs) with
      | closed n => simp [hend] at hstuck
      | interrupted n =>
        -- An interpolation never fails at its own start.
        cases n with
        | zero =>
          simp only [hend] at hstuck
          split at hstuck <;> cases hstuck
        | succ n => simp [hend] at hstuck
      | missing =>
        simp only [hend, Except.error.injEq] at hstuck
        rw [← hstuck]
        refine .fragment here hm ?_
        rw [hdrop, hend]

/-- A token list is refused at its first wrong bracket, or at its end. -/
theorem checkBrackets_error (line : Nat) (pending : List Bracket) (ts : List Token)
    (e : SourceError) (h : checkBrackets line pending ts = .error e) :
    e = ⟨.unexpectedEnd, line⟩ ∨
      ∃ pre t post later b, ts = pre ++ t :: post ∧ e = ⟨.unexpectedToken t.text, t.line⟩ ∧
        pre.foldlM (fun open_ t => t.bracketsAfter? open_) pending = some later ∧
        t.closes? = some b ∧ later.head? ≠ some b := by
  induction ts generalizing pending with
  | nil =>
    unfold checkBrackets at h
    split at h
    · cases h
    · cases h
      exact .inl rfl
  | cons t ts ih =>
    unfold checkBrackets at h
    cases hb : t.bracketsAfter? pending with
    | some later =>
      rw [hb] at h
      rcases ih later h with rfl | ⟨pre, u, post, later', b, rfl, rfl, hpre, hu⟩
      · exact .inl rfl
      · refine .inr ⟨t :: pre, u, post, later', b, rfl, rfl, ?_, hu⟩
        rw [List.foldlM_cons, hb]
        exact hpre
    | none =>
      -- Only a closing bracket without its partner leaves nothing to go on with.
      rw [hb] at h
      cases h
      unfold Token.bracketsAfter? at hb
      split at hb
      · cases hb
      · cases hb
      · rename_i b _ hcloses
        split at hb
        · cases hb
        · rename_i hwrong
          exact .inr ⟨[], t, ts, pending, b, rfl, rfl, rfl, hcloses, hwrong⟩

theorem tokenize_error (source : String) (e : SourceError) (h : tokenize source = .error e) :
    tokens {} source.toList = .error e ∨
      ∃ ts, tokens {} source.toList = .ok ts ∧ checkBrackets (endLine ts) [] ts = .error e := by
  unfold tokenize at h
  cases ht : tokens {} source.toList with
  | error e' =>
    rw [ht] at h
    cases h
    exact .inl rfl
  | ok ts =>
    rw [ht] at h
    refine .inr ⟨ts, rfl, ?_⟩
    cases hb : checkBrackets (endLine ts) [] ts with
    | error e' =>
      simp only [bind, Except.bind, hb] at h
      cases h
      rfl
    | ok _ =>
      simp only [bind, Except.bind, hb] at h
      cases h

theorem token_line (source : List Char) (ts : List Token) (r : Reading) (rest : List Char)
    (h : Reaches source ts r rest) (pre post : List Token) (t : Token)
    (hts : ts = pre ++ t :: post) :
    t.line = 1 + breaksBefore source (textOf pre).length ∧
      CleanCut (textOf pre) t.text.toList := by
  obtain ⟨r', c, cs, l, hr', -, rfl⟩ := reaches_at source ts r rest h pre post t hts
  obtain ⟨-, hcut, hline⟩ := reaches_lines source pre r' (c :: cs) hr'
  refine ⟨hline, ?_⟩
  rw [cut_text]
  exact hcut

theorem textOf_length_le (source : List Char) (ts : List Token) (r : Reading)
    (rest : List Char) (h : Reaches source ts r rest) : (textOf ts).length ≤ source.length := by
  rw [reaches_text source ts r rest h, List.length_append]
  omega

end Redeclaration.Lexer

namespace Redeclaration

open Text Lexer

/-- Each token stands on the line of its offset in the whole source, and none is
cut off between a carriage return and its line feed. A source without tokens is
refused on the line of what its fault blames. -/
theorem tokenize_lines (source : String) :
    (∀ ts, tokenize source = .ok ts → ∀ pre t post, ts = pre ++ t :: post →
      t.line = 1 + breaksBefore source.toList (textOf pre).length ∧
        ¬ ((textOf pre).getLast? = some '\r' ∧ t.text.toList.head? = some '\n')) ∧
    (∀ e, tokenize source = .error e → ∃ o ≤ source.toList.length,
      e.line = 1 + breaksBefore source.toList o ∧ Blamed source.toList o e.fault) := by
  constructor
  · intro ts h pre t post hts
    obtain ⟨r, hr⟩ := reaches_of_tokenize source ts h
    obtain ⟨hline, hcut⟩ := token_line _ ts r [] hr pre post t hts
    exact ⟨hline, fun hsplit => hcut hsplit.1 hsplit.2⟩
  · intro e h
    rcases tokenize_error source e h with herror | ⟨ts, hok, hbrackets⟩
    · obtain ⟨us, r, rest, hr, hline, hstuck⟩ :=
        tokens_error_reaches _ {} _ [] e .start herror
      refine ⟨_, textOf_length_le _ _ r rest hr, ?_, stuck_blamed _ _ r rest e.fault hr hstuck⟩
      rw [hline]
      exact (reaches_lines _ _ r rest hr).2.2
    · obtain ⟨r, hr, -⟩ := tokens_ok_reaches _ {} _ [] ts .start hok
      rw [List.nil_append] at hr
      rcases checkBrackets_error _ [] ts e hbrackets with
        rfl | ⟨pre, t, post, later, b, hts, rfl, hpre, hcloses, hwrong⟩
      · -- The line after the last token is that of the end of the source.
        have hwhole := reaches_text _ ts r [] hr
        rw [List.append_nil] at hwhole
        refine ⟨_, le_rfl, ?_, .ending⟩
        rw [reaches_endLine _ ts r [] hr, (reaches_lines _ ts r [] hr).2.2, ← hwhole]
      · obtain ⟨r', c, cs, l, hr', -, -⟩ := reaches_at _ ts r [] hr pre post t hts
        refine ⟨_, textOf_length_le _ pre r' _ hr', (token_line _ ts r [] hr pre post t hts).1, ?_⟩
        subst hts
        exact .bracket hok hpre hcloses hwrong

theorem tokenize_lines_mixed_breaks :
    (∃ ts, tokenize "<?php\r\n'\r'\r\na" = .ok ts ∧
      ∀ pre t post, ts = pre ++ t :: post →
        t.line = 1 + breaksBefore "<?php\r\n'\r'\r\na".toList (textOf pre).length ∧
          ¬ ((textOf pre).getLast? = some '\r' ∧ t.text.toList.head? = some '\n')) ∧
    (∃ e, tokenize "<?php\r\n\r\"\n$\x7ba\x7d\r\n" = .error e ∧
      ∃ o ≤ "<?php\r\n\r\"\n$\x7ba\x7d\r\n".toList.length,
        e.line = 1 + breaksBefore "<?php\r\n\r\"\n$\x7ba\x7d\r\n".toList o ∧
          Blamed "<?php\r\n\r\"\n$\x7ba\x7d\r\n".toList o e.fault) := by
  have hok : tokenize "<?php\r\n'\r'\r\na" = .ok
      [⟨.openTag, "<?php\r\n", 1⟩, ⟨.stringLiteral, "'\r'", 2⟩, ⟨.whitespace, "\r\n", 3⟩,
        ⟨.name, "a", 4⟩] := by cbv
  have herror : tokenize "<?php\r\n\r\"\n$\x7ba\x7d\r\n" =
      .error ⟨.unterminatedString, 4⟩ := by cbv
  exact ⟨⟨_, hok, (tokenize_lines _).1 _ hok⟩, ⟨_, herror, (tokenize_lines _).2 _ herror⟩⟩

end Redeclaration
