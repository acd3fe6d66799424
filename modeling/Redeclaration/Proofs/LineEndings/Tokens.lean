import Mathlib
import Redeclaration.Declaration.Scan
import Redeclaration.Proofs.LineEndings.Lexemes
import Redeclaration.Proofs.Token.Run

/-!
The tokens of a text with carriage returns. The texts that are looked at again
have no line breaks, so nothing that is made of the tokens changes. Main
statement: the tokens are the same up to the line breaks in their texts, and so
are the errors and the declarations.
-/

namespace Redeclaration

open Text

/-- The same token in the text with carriage returns. -/
def Token.crlf (t : Token) : Token :=
  { t with text := String.ofList (Text.crlf t.text.toList) }

/-- The kinds of the tokens whose texts are looked at again. -/
def Kind.isRead : Kind → Bool
  | name | qualifiedName | reserved | closeBrace | punct => true
  | _ => false

theorem Kind.beq_eq_false_of_isRead (k k' : Kind) (h : k.isRead = false) (h' : k'.isRead = true) :
    (k == k') = false := by
  apply beq_false_of_ne
  rintro rfl
  rw [h] at h'
  cases h'

/-- A token of a text without carriage returns. Its text is kept if it is looked
at again. -/
structure Token.Legible (t : Token) : Prop where
  return_notMem : '\r' ∉ t.text.toList
  feed_notMem : t.kind.isRead = true → '\n' ∉ t.text.toList

namespace Token

theorem crlf_of_isRead (t : Token) (ht : t.Legible) (h : t.kind.isRead = true) : t.crlf = t := by
  rw [Token.crlf, crlf_of_notMem _ (ht.feed_notMem h), String.ofList_toList]

theorem lineAfter_crlf (t : Token) (ht : t.Legible) (line : Nat) :
    lineAfter line t.crlf.text.toList = lineAfter line t.text.toList := by
  rw [Token.crlf, String.toList_ofList, Text.lineAfter_crlf line _ ht.return_notMem]

/-- What looks at the texts of these kinds only does not tell the tokens apart. -/
theorem read_crlf {α : Type} (f : Token → α) (t : Token) (ht : t.Legible)
    (hf : t.kind.isRead = false → f t.crlf = f t) : f t.crlf = f t := by
  cases hread : t.kind.isRead with
  | false => exact hf hread
  | true => rw [t.crlf_of_isRead ht hread]

theorem isMemberOperator_crlf (t : Token) (ht : t.Legible) :
    t.crlf.isMemberOperator = t.isMemberOperator := by
  apply read_crlf isMemberOperator t ht
  intro hread
  have hk := Kind.beq_eq_false_of_isRead t.kind .punct hread rfl
  simp [isMemberOperator, Token.crlf, hk]

theorem bracketsAfter?_crlf (t : Token) (ht : t.Legible) (pending : List Bracket) :
    t.crlf.bracketsAfter? pending = t.bracketsAfter? pending := by
  apply read_crlf (·.bracketsAfter? pending) t ht
  intro hread
  cases hk : t.kind with
  | punct =>
    rw [hk] at hread
    cases hread
  | _ => simp only [bracketsAfter?, opens?, closes?, Token.crlf, hk]

/-- Only a closing bracket is refused, and its text is in the error. -/
theorem isRead_of_refused (t : Token) (pending : List Bracket)
    (h : t.bracketsAfter? pending = none) : t.kind.isRead = true := by
  cases hk : t.kind with
  | closeBrace | punct => rfl
  | _ => simp [bracketsAfter?, opens?, closes?, hk] at h

end Token

theorem checkBrackets_crlf (line : Nat) (pending : List Bracket) (ts : List Token)
    (h : ∀ t ∈ ts, t.Legible) :
    checkBrackets line pending (ts.map Token.crlf) = checkBrackets line pending ts := by
  induction ts generalizing pending with
  | nil => rfl
  | cons t ts ih =>
    have ht := h t List.mem_cons_self
    rw [List.map_cons, checkBrackets, checkBrackets, t.bracketsAfter?_crlf ht]
    cases hafter : t.bracketsAfter? pending with
    | some later => exact ih later fun u hu => h u (List.mem_cons_of_mem t hu)
    | none => rw [t.crlf_of_isRead ht (t.isRead_of_refused pending hafter)]

theorem endLine_crlf (ts : List Token) (h : ∀ t ∈ ts, t.Legible) :
    endLine (ts.map Token.crlf) = endLine ts := by
  unfold endLine
  generalize 1 = line
  induction ts generalizing line with
  | nil => rfl
  | cons t ts ih =>
    rw [List.map_cons, List.foldl_cons, List.foldl_cons,
      t.lineAfter_crlf (h t List.mem_cons_self)]
    exact ih (fun u hu => h u (List.mem_cons_of_mem t hu)) _

namespace Scan

theorem step_crlf (s : Scan) (t : Token) (ht : t.Legible) : s.step t.crlf = s.step t := by
  apply Token.read_crlf s.step t ht
  intro hread
  have hname : t.kind.isNameFragment = false := by
    cases hk : t.kind with
    | name | qualifiedName =>
      rw [hk] at hread
      cases hread
    | _ => rfl
  simp only [Scan.step, Scan.follow, Token.crlf, hname, Bool.false_eq_true, if_false]
  rfl

theorem declarations_crlf (s : Scan) (ts : List Token) (h : ∀ t ∈ ts, t.Legible) :
    s.declarations (ts.map Token.crlf) = s.declarations ts := by
  induction ts generalizing s with
  | nil => rfl
  | cons t ts ih =>
    rw [List.map_cons, Scan.declarations, Scan.declarations,
      step_crlf s t (h t List.mem_cons_self),
      ih _ fun u hu => h u (List.mem_cons_of_mem t hu)]
    rfl

end Scan

namespace Lexer

theorem requestsHalt_crlf (t : Token) (ht : t.Legible) : requestsHalt t.crlf = requestsHalt t := by
  apply Token.read_crlf requestsHalt t ht
  intro hread
  have hk := Kind.beq_eq_false_of_isRead t.kind .reserved hread rfl
  simp [requestsHalt, Token.crlf, hk]

theorem advance_crlf (r : Reading) (t : Token) (next : Mode) (ht : t.Legible) :
    advance r t.crlf next = advance r t next := by
  rw [advance, advance, t.lineAfter_crlf ht, t.isMemberOperator_crlf ht, requestsHalt_crlf t ht]
  rfl

theorem cut_crlf (r : Reading) (l : Lexeme) (c c' : Char) (cs cs' : List Char)
    (hcrlf : crlf (c :: cs) = c' :: cs') :
    cut r (l.widen (c :: cs)) c' cs' = (cut r l c cs).crlf ∧
      cs'.drop (l.widen (c :: cs)).more = crlf (cs.drop l.more) := by
  have hpos := widened_succ_pos c cs l.more
  constructor
  · rw [cut, cut, Token.crlf, String.toList_ofList]
    simp only [Lexeme.widen, take_pred c' cs' _ hpos]
    rw [← hcrlf, take_widened, List.take_succ_cons]
  · simp only [Lexeme.widen, drop_pred c' cs' _ hpos]
    rw [← hcrlf, drop_widened, List.drop_succ_cons]

/-! Nothing that is looked at again has a line break. -/

theorem plain_feed_notMem (member : Bool) (c : Char) (cs : List Char)
    (h : (plain member c cs).1.isRead = true) : '\n' ∉ c :: cs.take (plain member c cs).2 := by
  unfold plain at h ⊢
  split at h
  · cases h
  rename_i hblank
  have hc : c ≠ '\n' := by
    rintro rfl
    exact hblank rfl
  split at h
  · cases h
  split at h
  · cases h
  split at h
  · cases h
  split at h
  · cases h
  rename_i hcomment hvariable hnumber hqualified
  rw [if_neg hblank, if_neg hcomment, if_neg hvariable, if_neg hnumber, if_neg hqualified]
  split
  · exact List.not_mem_cons_of_ne_of_not_mem hc.symm
      (notMem_name cs '\n' (by decide) (by decide))
  · exact notMem_operator c cs '\n' hc (by decide)

theorem blockComment_isRead (waiting : List Interruption) (cs : List Char) (l : Lexeme)
    (h : blockComment waiting cs = .ok l) : l.kind.isRead = false := by
  unfold blockComment at h
  split at h
  · cases h
  · cases h
    dsimp only
    split <;> rfl

theorem stringStart_kind (waiting : List Interruption) (o : Opening) (cs : List Char)
    (l : Lexeme) (h : stringStart waiting o cs = .ok l) : l.kind = .stringLiteral := by
  unfold stringStart at h
  dsimp only at h
  split at h <;> split at h <;> cases h <;> rfl

theorem stringRest_isRead (closing : Closing) (waiting : List Interruption) (c : Char)
    (cs : List Char) (l : Lexeme) (h : stringRest closing waiting c cs = .ok l) :
    l.kind.isRead = false := by
  unfold stringRest at h
  split at h
  · cases h
    rfl
  · dsimp only at h
    split at h <;> cases h <;> rfl
  · cases h
    rfl
  · cases h

theorem code_feed_notMem (r : Reading) (waiting : List Interruption) (c : Char) (cs : List Char)
    (l : Lexeme) (h : code r waiting c cs = .ok l) (hread : l.kind.isRead = true) :
    '\n' ∉ c :: cs.take l.more := by
  unfold code at h
  split at h
  · cases h
    cases hread
  split at h
  · rename_i hc
    cases h
    simp [beq_iff_eq.1 hc]
  split at h
  · split at h
    · cases h
      cases hread
    · cases h
  split at h
  · rw [blockComment_isRead waiting cs l h] at hread
    cases hread
  split at h
  · rename_i o ho
    rw [stringStart_kind waiting o cs l h] at hread
    cases hread
  · cases h
    exact plain_feed_notMem r.member c cs hread

theorem lexeme_feed_notMem (r : Reading) (c : Char) (cs : List Char) (l : Lexeme)
    (h : lexeme r c cs = .ok l) (hread : l.kind.isRead = true) : '\n' ∉ c :: cs.take l.more := by
  unfold lexeme at h
  split at h
  · cases h
    unfold html at hread
    split at hread <;> cases hread
  · exact code_feed_notMem r _ c cs l h hread
  · rw [stringRest_isRead _ _ c cs l h] at hread
    cases hread
  · cases h
    cases hread

theorem cut_legible (r : Reading) (c : Char) (cs : List Char) (l : Lexeme)
    (h : lexeme r c cs = .ok l) (hreturn : '\r' ∉ c :: cs) : (cut r l c cs).Legible where
  return_notMem := by
    rw [cut_text, ← List.take_succ_cons]
    exact fun hmem => hreturn (List.mem_of_mem_take hmem)
  feed_notMem hread := by
    rw [cut_text]
    exact lexeme_feed_notMem r c cs l h hread

/-! Runs. -/

theorem tokens_step_error (r : Reading) (c : Char) (cs : List Char) (fault : Fault)
    (h : lexeme r c cs = .error fault) : tokens r (c :: cs) = .error ⟨fault, r.line⟩ := by
  rw [tokens, h]

theorem tokens_step_ok (r : Reading) (c : Char) (cs : List Char) (l : Lexeme)
    (h : lexeme r c cs = .ok l) :
    tokens r (c :: cs) = (tokens (advance r (cut r l c cs) l.next) (cs.drop l.more)).map
      (cut r l c cs :: ·) := by
  rw [tokens, h]
  dsimp only [cut]
  split
  · rename_i htokens
    rw [htokens]
    rfl
  · rename_i htokens
    rw [htokens]
    rfl

theorem tokens_crlf (r : Reading) (cs : List Char) (hr : r.mode.Sound) (hreturn : '\r' ∉ cs) :
    tokens r (crlf cs) = (tokens r cs).map (List.map Token.crlf) := by
  -- Both runs are in the same state throughout: it remembers nothing of a token that moves.
  induction hlength : cs.length using Nat.strong_induction_on generalizing r cs with
  | _ length ih =>
    cases cs with
    | nil =>
      rw [crlf_nil, tokens]
      split <;> rfl
    | cons c cs =>
      obtain ⟨c', cs', hcrlf⟩ := crlf_cons_exists c cs
      have hlexeme := lexeme_crlf r c c' cs cs' hcrlf hr hreturn
      rw [hcrlf]
      cases hl : lexeme r c cs with
      | error fault =>
        rw [hl] at hlexeme
        rw [tokens_step_error r c cs fault hl, tokens_step_error r c' cs' fault hlexeme]
        rfl
      | ok l =>
        rw [hl] at hlexeme
        obtain ⟨hcut, hrest⟩ := cut_crlf r l c c' cs cs' hcrlf
        have hshorter : (cs.drop l.more).length < length := by
          rw [← hlength, List.length_drop, List.length_cons]
          omega
        have hreturn' : '\r' ∉ cs.drop l.more :=
          fun hmem => hreturn (List.mem_cons_of_mem c (List.mem_of_mem_drop hmem))
        have hnext := (lexeme_cut r c cs l hr hl).2
        rw [tokens_step_ok r c cs l hl, tokens_step_ok r c' cs' _ hlexeme, hcut, hrest,
          advance_crlf r _ _ (cut_legible r c cs l hl hreturn)]
        rw [show (l.widen (c :: cs)).next = l.next from rfl,
          ih _ hshorter _ _ hnext hreturn' rfl]
        cases tokens (advance r (cut r l c cs) l.next) (cs.drop l.more) with
        | error e => rfl
        | ok ts => rfl

/-- Every token of a text without carriage returns is legible. -/
theorem tokens_legible (source : List Char) (ts : List Token) (h : tokens {} source = .ok ts)
    (hreturn : '\r' ∉ source) : ∀ t ∈ ts, t.Legible := by
  intro t ht
  obtain ⟨r, hr, -⟩ := tokens_ok_reaches source {} source [] ts .start h
  obtain ⟨pre, post, hts⟩ := List.append_of_mem ht
  obtain ⟨r', c, cs, l, hbefore, hl, rfl⟩ := reaches_at source _ r [] hr pre post t hts
  refine cut_legible r' c cs l hl fun hmem => hreturn ?_
  rw [reaches_text source pre r' _ hbefore]
  exact List.mem_append_right _ hmem

end Lexer

/-- Carriage returns before the line feeds change nothing but the texts of the tokens
that hold them: the source is accepted or refused as before, with the same error,
and its tokens have the same kinds and lines and declare the same names. -/
theorem tokenize_crlf (source : String) (hreturn : '\r' ∉ source.toList) :
    tokenize (String.ofList (crlf source.toList)) =
        (tokenize source).map (List.map Token.crlf) ∧
      ∀ ts, tokenize source = .ok ts →
        declarationsIn (ts.map Token.crlf) = declarationsIn ts := by
  constructor
  · unfold tokenize
    rw [String.toList_ofList, Lexer.tokens_crlf {} _ trivial hreturn]
    cases hts : Lexer.tokens {} source.toList with
    | error e => rfl
    | ok ts =>
      have hlegible := Lexer.tokens_legible _ ts hts hreturn
      simp only [Except.map, bind, Except.bind, endLine_crlf ts hlegible,
        checkBrackets_crlf _ _ ts hlegible]
      cases checkBrackets (endLine ts) [] ts with
      | error e => rfl
      | ok u => rfl
  · intro ts hts
    have htokens := Lexer.tokens_of_tokenize source ts hts
    exact Scan.declarations_crlf {} ts (Lexer.tokens_legible _ ts htokens hreturn)

theorem tokenize_crlf_heredoc :
    tokenize "<?php\r\nenum//a\r\nB\x7b\x7d<<<X\r\n\\\r\n\x7b$a\x7d\r\n X;" = .ok
        [⟨.openTag, "<?php\r\n", 1⟩, ⟨.keyword .enumKw, "enum", 2⟩, ⟨.comment, "//a", 2⟩,
          ⟨.whitespace, "\r\n", 2⟩, ⟨.name, "B", 3⟩, ⟨.openBrace, "\x7b", 3⟩,
          ⟨.closeBrace, "\x7d", 3⟩, ⟨.stringLiteral, "<<<X\r\n\\\r\n", 3⟩,
          ⟨.curlyOpen, "\x7b", 5⟩, ⟨.variableName, "$a", 5⟩, ⟨.closeBrace, "\x7d", 5⟩,
          ⟨.stringLiteral, "\r\n X", 5⟩, ⟨.punct, ";", 6⟩] ∧
      tokenize "<?php\r\n/*\r\n" = .error ⟨.unterminatedComment, 2⟩ := by
  have hok : tokenize "<?php\nenum//a\nB\x7b\x7d<<<X\n\\\n\x7b$a\x7d\n X;" = .ok
      [⟨.openTag, "<?php\n", 1⟩, ⟨.keyword .enumKw, "enum", 2⟩, ⟨.comment, "//a", 2⟩,
        ⟨.whitespace, "\n", 2⟩, ⟨.name, "B", 3⟩, ⟨.openBrace, "\x7b", 3⟩,
        ⟨.closeBrace, "\x7d", 3⟩, ⟨.stringLiteral, "<<<X\n\\\n", 3⟩,
        ⟨.curlyOpen, "\x7b", 5⟩, ⟨.variableName, "$a", 5⟩, ⟨.closeBrace, "\x7d", 5⟩,
        ⟨.stringLiteral, "\n X", 5⟩, ⟨.punct, ";", 6⟩] := by decide +kernel
  have herror : tokenize "<?php\n/*\n" = .error ⟨.unterminatedComment, 2⟩ := by decide +kernel
  have hok' := (tokenize_crlf _ (by decide)).1.trans (congrArg _ hok)
  have herror' := (tokenize_crlf _ (by decide)).1.trans (congrArg _ herror)
  exact ⟨hok', herror'⟩

end Redeclaration
