import Redeclaration.Proofs.LineEndings.Strings

/-!
Lexemes of a text with carriage returns. The lexer takes the same step in both
texts: a lexeme has the same kind and leads to the same mode, and only its length
has moved.
-/

namespace Redeclaration

open Text

/-- The lexeme at the start of a text, with its length in the text with carriage
returns. -/
def Lexeme.widen (cs : List Char) (l : Lexeme) : Lexeme :=
  { l with more := widened cs (l.more + 1) - 1 }

namespace Lexer

theorem widened_succ_pos (c : Char) (cs : List Char) (n : Nat) :
    0 < widened (c :: cs) (n + 1) := by
  have hne := mt (widened_cons_eq_zero c cs (n + 1)).1 (Nat.succ_ne_zero n)
  omega

theorem widen_eq (c : Char) (cs : List Char) (l : Lexeme) (hc : c ≠ '\n') :
    l.widen (c :: cs) = { l with more := widened cs l.more } := by
  rw [Lexeme.widen, widened_cons c cs _ hc, Nat.add_sub_cancel]

theorem widen_pred (cs : List Char) (kind : Kind) (n : Nat) (next : Mode) (hn : 0 < n) :
    Lexeme.widen cs ⟨kind, n - 1, next⟩ = ⟨kind, widened cs n - 1, next⟩ := by
  rw [Lexeme.widen, Nat.sub_add_cancel hn]

/-! One lexeme. Its text with carriage returns starts with `c'`, which is `c` or
the carriage return before it. -/

section

variable (c c' : Char) (cs cs' : List Char) (hcrlf : crlf (c :: cs) = c' :: cs')

include hcrlf

theorem html_crlf (hreturn : '\r' ∉ c :: cs) : html c' cs' = (html c cs).widen (c :: cs) := by
  unfold html
  rw [← hcrlf, startsOpenTag_crlf]
  split
  · rename_i htag
    have hpos := openTagLength_pos (c :: cs)
    rw [openTagLength_crlf _ htag hreturn, widen_pred _ _ _ _ hpos]
  · rename_i htag
    rw [Bool.not_eq_true] at htag
    have htag' : startsOpenTag (c' :: cs') = false := by
      rw [← hcrlf, startsOpenTag_crlf, htag]
    have hlength := htmlLength_crlf (c :: cs)
    rw [hcrlf, htmlLength_cons _ _ htag', htmlLength_cons _ _ htag] at hlength
    rw [Lexeme.widen, ← hlength, Nat.add_sub_cancel]

theorem stringRest_crlf (closing : Closing) (waiting : List Interruption) (h : closing.Sound)
    (hreturn : '\r' ∉ c :: cs) :
    stringRest closing waiting c' cs' =
      (stringRest closing waiting c cs).map (·.widen (c :: cs)) := by
  have hends := fragmentEnd_crlf closing (c :: cs) false 0 h hreturn
  rw [widened_zero, List.drop_zero, hcrlf] at hends
  have hsplits := fragmentEnd_splits closing false 0 (c :: cs)
  unfold stringRest
  rw [hends]
  cases hend : fragmentEnd closing false 0 (c :: cs) with
  | closed n =>
    rw [hend] at hsplits
    obtain ⟨a, b, -, hn⟩ := hsplits
    have hpos := List.length_pos_of_ne_nil (closing_text closing h).1
    simp only [FragmentEnd.map, Except.map, widen_pred (c :: cs) _ n _ (by omega)]
  | interrupted n =>
    cases n with
    | zero =>
      rw [hend] at hsplits
      obtain ⟨a, b, hsplit, hn, hb⟩ := hsplits
      have hstarts : startsInterpolation (c :: cs) = true := by
        have ha : a = [] := List.eq_nil_of_length_eq_zero (by omega)
        rw [hsplit, ha]
        exact hb
      rw [startsInterpolation, Bool.or_eq_true] at hstarts
      rcases hstarts with hs | hs
      · obtain ⟨rest, hrest⟩ := List.isPrefixOf_iff_prefix.1 hs
        cases hrest
        cases hcrlf
        rfl
      · obtain ⟨rest, hrest⟩ := List.isPrefixOf_iff_prefix.1 hs
        cases hrest
        cases hcrlf
        rfl
    | succ n =>
      obtain ⟨k, hk⟩ := Nat.exists_eq_succ_of_ne_zero (widened_succ_pos c cs n).ne'
      simp only [FragmentEnd.map, hk, Except.map, Lexeme.widen, Nat.succ_eq_add_one,
        Nat.add_sub_cancel]
  | missing => rfl

end

theorem blockComment_crlf (waiting : List Interruption) (c : Char) (cs : List Char)
    (hc : c ≠ '\n') (h : ['/', '*'].isPrefixOf (c :: cs) = true) :
    blockComment waiting (crlf cs) = (blockComment waiting cs).map (·.widen (c :: cs)) := by
  have hstar : ['*'] <+: cs := (List.cons_prefix_cons.1 (List.isPrefixOf_iff_prefix.1 h)).2
  have hdoc : (['*', '*'].isPrefixOf (crlf cs) && ((crlf cs).drop 2).head?.any isAsciiSpace) =
      (['*', '*'].isPrefixOf cs && (cs.drop 2).head?.any isAsciiSpace) := by
    rw [isPrefixOf_crlf _ cs (by decide) (by decide)]
    by_cases hstars : ['*', '*'].isPrefixOf cs = true
    · rw [drop_of_front _ cs 2 (List.isPrefixOf_iff_prefix.1 hstars) (by decide) rfl,
        next_crlf (Option.any isAsciiSpace) _ rfl]
    · rw [Bool.not_eq_true] at hstars
      rw [hstars]
      rfl
  unfold blockComment
  rw [drop_of_front _ cs 1 hstar (by decide) rfl, commentEnd_crlf, hdoc]
  cases hfind : findSuffix? ['*', '/'].isPrefixOf (cs.drop 1) with
  | none => rfl
  | some n =>
    have hlength : widened cs (n + 3) = widened (cs.drop 1) n + 3 := by
      rw [show n + 3 = 1 + (n + 2) by omega, widened_add, widened_commentEnd _ n hfind,
        widened_of_front _ cs 1 hstar (by decide) rfl]
      omega
    simp only [Option.map_some, Except.map, widen_eq c cs _ hc, hlength]

theorem stringStart_crlf (waiting : List Interruption) (o : Opening) (c : Char) (cs : List Char)
    (hc : c ≠ '\n') (hreturn : '\r' ∉ cs) (ho : o.quoting.Sound) (hpos : 0 < o.length) :
    stringStart waiting (o.widen (c :: cs)) (crlf cs) =
      (stringStart waiting o cs).map (·.widen (c :: cs)) := by
  obtain ⟨length, quoting⟩ := o
  obtain ⟨m, rfl⟩ := Nat.exists_eq_succ_of_ne_zero hpos.ne'
  unfold stringStart
  simp only [Opening.widen, Nat.succ_eq_add_one, widened_cons c cs m hc, Nat.add_sub_cancel,
    drop_widened]
  cases quoting with
  | single =>
    simp only [singleEnd?_crlf cs m]
    cases singleEnd? m (cs.drop m) with
    | none => rfl
    | some n => simp only [Option.map_some, Except.map, widen_eq c cs _ hc]
  | nowdoc label =>
    simp only [nowdocEnd?_crlf label cs true m ho hreturn]
    cases nowdocEnd? label true m (cs.drop m) with
    | none => rfl
    | some n => simp only [Option.map_some, Except.map, widen_eq c cs _ hc]
  | interpolated closing =>
    simp only [fragmentEnd_crlf closing cs true m ho hreturn]
    cases fragmentEnd closing true m (cs.drop m) with
    | closed n => simp only [FragmentEnd.map, Except.map, widen_eq c cs _ hc]
    | interrupted n => simp only [FragmentEnd.map, Except.map, widen_eq c cs _ hc]
    | missing => rfl

theorem code_blank (r : Reading) (waiting : List Interruption) (c : Char) (cs : List Char)
    (hc : c = '\n' ∨ c = '\r') :
    code r waiting c cs = .ok ⟨.whitespace, runLength isBlank cs, .code waiting⟩ := by
  rcases hc with rfl | rfl <;>
    simp [code, startsCloseTag, opening?, plainOpening?, labelOpening?, plain, isBlank]

/-- Blanks that start with a line feed start with its carriage return. -/
theorem code_feed_crlf (r : Reading) (waiting : List Interruption) (cs : List Char) :
    code r waiting '\r' ('\n' :: crlf cs) =
      (code r waiting '\n' cs).map (·.widen ('\n' :: cs)) := by
  have hlength : runLength isBlank ('\n' :: crlf cs) = widened cs (runLength isBlank cs) + 1 := by
    rw [← runLength_crlf isBlank cs rfl]
    rfl
  rw [code_blank r waiting _ _ (.inr rfl), code_blank r waiting _ _ (.inl rfl), hlength]
  simp only [Except.map, Lexeme.widen, widened_feed, Nat.add_one_sub_one]

theorem code_crlf (r : Reading) (waiting : List Interruption) (c : Char) (cs : List Char)
    (hc : c ≠ '\n') (hreturn : '\r' ∉ c :: cs) :
    code r waiting c (crlf cs) = (code r waiting c cs).map (·.widen (c :: cs)) := by
  have hreturn' : '\r' ∉ cs := fun hmem => hreturn (List.mem_cons_of_mem c hmem)
  have hzero (kind : Kind) (next : Mode) :
      Lexeme.widen (c :: cs) ⟨kind, 0, next⟩ = ⟨kind, 0, next⟩ := by
    rw [widen_eq c cs _ hc, widened_zero]
  unfold code
  rw [← crlf_cons c cs hc, startsCloseTag_crlf, isPrefixOf_crlf _ _ (by decide) (by decide),
    opening?_crlf _ hreturn]
  split
  · simp only [Except.map, hzero]
  split
  · simp only [Except.map, hzero]
  split
  · rename_i htag
    split
    · have hpos := closeTagLength_pos (c :: cs)
      rw [closeTagLength_crlf _ htag hreturn, Except.map, widen_pred _ _ _ _ hpos]
    · rfl
  split
  · rename_i hcomment
    exact blockComment_crlf waiting c cs hc hcomment
  cases hopening : opening? (c :: cs) with
  | some o =>
    obtain ⟨ho, hpos⟩ := opening?_sound _ o hopening
    exact stringStart_crlf waiting o c cs hc hreturn' ho hpos
  | none =>
    simp only [Option.map_none, plain_crlf r.member c cs hc, Except.map, widen_eq c cs _ hc]

theorem lexeme_crlf (r : Reading) (c c' : Char) (cs cs' : List Char)
    (hcrlf : crlf (c :: cs) = c' :: cs') (hr : r.mode.Sound) (hreturn : '\r' ∉ c :: cs) :
    lexeme r c' cs' = (lexeme r c cs).map (·.widen (c :: cs)) := by
  unfold lexeme
  cases hm : r.mode with
  | html => simp only [Except.map, html_crlf c c' cs cs' hcrlf hreturn]
  | code waiting =>
    by_cases hc : c = '\n'
    · rw [hc, crlf_feed] at hcrlf
      cases hcrlf
      rw [hc]
      exact code_feed_crlf r waiting cs
    · rw [crlf_cons c cs hc] at hcrlf
      cases hcrlf
      exact code_crlf r waiting c cs hc hreturn
  | string closing waiting =>
    rw [hm] at hr
    exact stringRest_crlf c c' cs cs' hcrlf closing waiting hr.1 hreturn
  | data =>
    have hlength := congrArg List.length hcrlf
    rw [← widened_length, List.length_cons, List.length_cons] at hlength
    simp only [Except.map, Lexeme.widen, hlength, Nat.add_sub_cancel]

end Lexer

end Redeclaration
