import Redeclaration.Proofs.LineEndings.Tokens
import Redeclaration.Proofs.Token.Labels

/-!
Trivia, as the lexer cuts it into tokens and as a word looks over it. Where a lexeme of
code starts, both find trivia or neither does, and blanks and block comments have one
extent for both. A line comment runs to the next line feed for the word, and may end
sooner for the lexer.
-/

namespace Redeclaration

open Text

namespace Lexer

/-! Runs from any state. -/

theorem tokens_cons (r : Reading) (cs : List Char) (t : Token) (ts : List Token)
    (h : tokens r cs = .ok (t :: ts)) :
    ∃ c ds l, cs = c :: ds ∧ lexeme r c ds = .ok l ∧ t = cut r l c ds ∧
      tokens (advance r t l.next) (ds.drop l.more) = .ok ts := by
  cases cs with
  | nil =>
    rw [tokens] at h
    split at h <;> cases h
  | cons c ds =>
    cases hl : lexeme r c ds with
    | error fault =>
      rw [tokens_step_error r c ds fault hl] at h
      cases h
    | ok l =>
      rw [tokens_step_ok r c ds l hl] at h
      cases hrest : tokens (advance r (cut r l c ds) l.next) (ds.drop l.more) with
      | error e =>
        rw [hrest] at h
        cases h
      | ok us =>
        rw [hrest] at h
        cases h
        exact ⟨c, ds, l, rfl, hl, rfl, hrest⟩

theorem textOf_tokens (r : Reading) (cs : List Char) (ts : List Token)
    (h : tokens r cs = .ok ts) : textOf ts = cs := by
  induction ts generalizing r cs with
  | nil =>
    cases cs with
    | nil => rfl
    | cons c cs =>
      rw [tokens] at h
      split at h
      · cases h
      · dsimp only at h
        split at h <;> cases h
  | cons t ts ih =>
    obtain ⟨c, ds, l, rfl, -, rfl, hrest⟩ := tokens_cons r cs t ts h
    have hsplit : textOf (cut r l c ds :: ts) = (cut r l c ds).text.toList ++ textOf ts := rfl
    rw [hsplit, cut_text, ih _ _ hrest, List.cons_append, List.take_append_drop]

/-- What becomes of a text is what becomes of the rest that a run has reached. -/
theorem tokens_eq_of_reaches (source : List Char) (ts : List Token) (r : Reading)
    (rest : List Char) (h : Reaches source ts r rest) :
    tokens {} source = (tokens r rest).map (ts ++ ·) := by
  induction h with
  | start => cases tokens {} source <;> rfl
  | @step ts r c cs l before hl ih =>
    rw [ih, tokens_step_ok r c cs l hl]
    cases tokens (advance r (cut r l c cs) l.next) (cs.drop l.more) <;> simp [Except.map]

/-- A run that has cut off the first tokens of a text goes on to the others. -/
theorem tokens_of_reaches (source : List Char) (pre post : List Token) (r : Reading)
    (rest : List Char) (hr : Reaches source pre r rest)
    (h : tokens {} source = .ok (pre ++ post)) : tokens r rest = .ok post := by
  rw [tokens_eq_of_reaches source pre r rest hr] at h
  cases htokens : tokens r rest with
  | error e =>
    rw [htokens] at h
    cases h
  | ok us =>
    rw [htokens] at h
    rw [List.append_cancel_left (Except.ok.inj h)]

/-! Trivia, lexeme by lexeme. -/

/-- A lexeme of code that is trivia. -/
inductive ReadsTrivia (c : Char) (cs : List Char) (l : Lexeme) : Prop
  | blanks (blank : isBlank c = true) (kind : l.kind = .whitespace)
      (more : l.more = runLength isBlank cs)
  | line (starts : startsLineComment (c :: cs) = true) (kind : l.kind = .comment)
      (more : l.more = lineCommentRest cs)
  | block (n : Nat) (starts : ['/', '*'].isPrefixOf (c :: cs) = true)
      (ends : findSuffix? ['*', '/'].isPrefixOf (cs.drop 1) = some n) (more : l.more = n + 3)

theorem plainOpening?_head (c : Char) (cs : List Char) (o : Opening)
    (h : plainOpening? (c :: cs) = some o) : c = '\'' ∨ c = '"' ∨ c = '<' := by
  simp only [plainOpening?] at h
  split at h
  · rename_i hc
    exact .inl (beq_iff_eq.1 hc)
  split at h
  · rename_i hc
    exact .inr (.inl (beq_iff_eq.1 hc))
  · unfold labelOpening? at h
    dsimp only at h
    split at h
    · rename_i hopening
      simp only [Bool.and_eq_true, List.isPrefixOf_iff_prefix] at hopening
      obtain ⟨rest, hrest⟩ := hopening.1.1.1
      cases hrest
      exact .inr (.inr rfl)
    · cases h

/-- A string opens with a mark of its own, or with a letter before such a mark. -/
theorem opening?_cases (c : Char) (cs : List Char) (o : Opening)
    (h : opening? (c :: cs) = some o) :
    (c = 'b' ∨ c = 'B') ∧ (∃ d ds, cs = d :: ds ∧ (d = '\'' ∨ d = '"' ∨ d = '<')) ∨
      c = '\x60' ∨ c = '\'' ∨ c = '"' ∨ c = '<' := by
  simp only [opening?] at h
  split at h
  · rename_i hc
    rw [Bool.or_eq_true, beq_iff_eq, beq_iff_eq] at hc
    obtain ⟨o', ho', -⟩ := Option.map_eq_some_iff.1 h
    cases cs with
    | nil => cases ho'
    | cons d ds =>
      exact .inl ⟨hc, d, ds, rfl, plainOpening?_head d ds o' ho'⟩
  split at h
  · rename_i hc
    exact .inr (.inl (beq_iff_eq.1 hc))
  · exact .inr (.inr (plainOpening?_head c cs o h))

theorem nameKind_isTrivia (member : Bool) (text rest : List Char) :
    (nameKind member text rest).isTrivia = false := by
  unfold nameKind wordKind
  dsimp only
  repeat' split
  all_goals rfl

theorem plain_trivia (member : Bool) (c : Char) (cs : List Char)
    (hblock : ['/', '*'].isPrefixOf (c :: cs) = false) :
    isBlank c = true ∧ plain member c cs = (.whitespace, runLength isBlank cs) ∨
      startsLineComment (c :: cs) = true ∧ plain member c cs = (.comment, lineCommentRest cs) ∨
      (plain member c cs).1.isTrivia = false ∧ triviaLength (c :: cs) = 0 := by
  unfold plain
  split
  · exact .inl ⟨‹_›, rfl⟩
  rename_i hblank
  split
  · exact .inr (.inl ⟨‹_›, rfl⟩)
  rename_i hline
  have hzero : triviaLength (c :: cs) = 0 := by
    unfold triviaLength
    rw [List.head?_cons, Option.any_some, if_neg hblank, hblock, if_neg Bool.false_ne_true,
      if_neg hline]
  refine .inr (.inr ⟨?_, hzero⟩)
  split
  · rfl
  split
  · rfl
  split
  · rfl
  split
  · exact nameKind_isTrivia member _ _
  · rfl

/-- Only blanks, the slash and the hash start trivia. -/
theorem triviaLength_other (c : Char) (cs : List Char)
    (h : c ∉ [' ', '\t', '\n', '\r', '/', '#']) : triviaLength (c :: cs) = 0 := by
  simp only [List.mem_cons, List.not_mem_nil, or_false, not_or] at h
  obtain ⟨hspace, htab, hfeed, hreturn, hslash, hhash⟩ := h
  simp [triviaLength, startsLineComment, isBlank, hspace, htab, hfeed, hreturn, Ne.symm hslash,
    Ne.symm hhash]

/-- In code, the next lexeme is trivia exactly if the word would see some there. -/
theorem code_trivia (r : Reading) (waiting : List Interruption) (c : Char) (cs : List Char)
    (l : Lexeme) (h : code r waiting c cs = .ok l) :
    l.kind.isTrivia = true ∧ l.next = .code waiting ∧ ReadsTrivia c cs l ∨
      l.kind.isTrivia = false ∧ triviaLength (c :: cs) = 0 := by
  cases code_reads r waiting c cs l h with
  | openBrace hc hkind | closeBrace hc hkind =>
    rw [hkind]
    exact .inr ⟨rfl, triviaLength_other c cs (by rw [hc]; decide)⟩
  | closeTag htag hkind =>
    obtain ⟨rest, hrest⟩ := List.isPrefixOf_iff_prefix.1 htag
    cases hrest
    rw [hkind]
    exact .inr ⟨rfl, triviaLength_other _ _ (by decide)⟩
  | block hblock hreads =>
    obtain ⟨hkind, hnext⟩ := blockComment_cases waiting cs l hreads
    unfold blockComment at hreads
    split at hreads
    · cases hreads
    · rename_i n hends
      cases hreads
      refine .inl ⟨?_, hnext, .block n hblock hends rfl⟩
      rcases hkind with hkind | hkind <;> rw [hkind] <;> rfl
  | string o ho hreads =>
    rw [(stringStart_cases waiting o cs l hreads).1]
    refine .inr ⟨rfl, triviaLength_other c cs ?_⟩
    rcases opening?_cases c cs o ho with ⟨rfl | rfl, -⟩ | rfl | rfl | rfl | rfl <;> decide
  | plain _ hblock hkind hmore hnext =>
    rw [hkind]
    rcases plain_trivia r.member c cs hblock with
      ⟨hblank, hplain⟩ | ⟨hline, hplain⟩ | hnone
    · have hc : c ≠ ';' := by
        rintro rfl
        cases hblank
      rw [hplain] at hkind hmore ⊢
      exact .inl ⟨rfl, hnext hc, .blanks hblank hkind hmore⟩
    · have hc : c ≠ ';' := by
        rintro rfl
        cases hline
      rw [hplain] at hkind hmore ⊢
      exact .inl ⟨rfl, hnext hc, .line hline hkind hmore⟩
    · exact .inr hnone

theorem triviaLength_block (c : Char) (cs : List Char) (n : Nat)
    (h : ['/', '*'].isPrefixOf (c :: cs) = true)
    (hends : findSuffix? ['*', '/'].isPrefixOf (cs.drop 1) = some n) :
    triviaLength (c :: cs) = n + 4 := by
  obtain ⟨rest, hrest⟩ := List.isPrefixOf_iff_prefix.1 h
  cases hrest
  have hends' : findSuffix? ['*', '/'].isPrefixOf rest = some n := hends
  simp [triviaLength, isBlank, hends']

theorem triviaLength_of_readsTrivia (c : Char) (cs : List Char) (l : Lexeme)
    (h : ReadsTrivia c cs l) : triviaLength (c :: cs) ≠ 0 := by
  cases h with
  | blanks hblank => simp [triviaLength_blank c cs hblank]
  | line hline => exact (triviaLength_comment _ hline).2
  | block n hblock hends => simp [triviaLength_block c cs n hblock hends]

/-! Line comments. -/

/-- A line comment ends with the text, at a line break, or at a closing tag. -/
theorem lineComment_stop (cs : List Char) :
    cs.drop (lineCommentRest cs) = [] ∨
      (∃ d ds, cs.drop (lineCommentRest cs) = d :: ds ∧ (d = '\n' ∨ d = '\r')) ∨
      startsCloseTag (cs.drop (lineCommentRest cs)) = true := by
  unfold lineCommentRest
  cases hfind : findSuffix? (fun r => r.head?.any (fun c => c == '\n' || c == '\r') ||
      startsCloseTag r) cs with
  | none => exact .inl (by simp)
  | some n =>
    have hstop := (findSuffix?_eq_some _ cs n hfind).2.1
    rw [Bool.or_eq_true, Option.any_eq_true] at hstop
    rcases hstop with ⟨d, hhead, hd⟩ | hclose
    · obtain ⟨ds, hds⟩ := List.head?_eq_some_iff.1 hhead
      rw [Bool.or_eq_true, beq_iff_eq, beq_iff_eq] at hd
      exact .inr (.inl ⟨d, ds, hds, hd⟩)
    · exact .inr (.inr hclose)

/-- For the word a line comment goes on to the line feed, wherever the lexer ends it. -/
theorem dropTrivia_lineComment (c : Char) (cs : List Char)
    (h : startsLineComment (c :: cs) = true) :
    dropTrivia (c :: cs) =
      dropTrivia ((cs.drop (lineCommentRest cs)).dropWhile (· != '\n')) := by
  obtain ⟨hlength, hne⟩ := triviaLength_comment _ h
  have hpass : ∀ d ∈ c :: cs.take (lineCommentRest cs), (d != '\n') = true := by
    intro d hd
    rw [bne_iff_ne]
    rintro rfl
    rcases List.mem_cons.1 hd with rfl | hd
    · cases h
    · exact notMem_lineComment cs '\n' (.inl rfl) hd
  calc dropTrivia (c :: cs)
      = dropTrivia ((c :: cs).dropWhile (· != '\n')) := by
        rw [dropTrivia_of_ne_zero _ hne, hlength, drop_runLength]
    _ = dropTrivia ((c :: cs.take (lineCommentRest cs) ++
          cs.drop (lineCommentRest cs)).dropWhile (· != '\n')) := by
        rw [List.cons_append, List.take_append_drop]
    _ = _ := by rw [List.dropWhile_append_of_pos hpass]

theorem dropTrivia_of_not_line (c : Char) (cs : List Char) (l : Lexeme)
    (h : ReadsTrivia c cs l) (hline : startsLineComment (c :: cs) = false) :
    dropTrivia (c :: cs) = dropTrivia (cs.drop l.more) := by
  cases h with
  | blanks hblank _ hmore =>
    rw [hmore, drop_runLength, dropTrivia_dropWhile, dropTrivia_blank c cs hblank]
  | line hstarts =>
    rw [hline] at hstarts
    cases hstarts
  | block n hblock hends hmore =>
    have hlength := triviaLength_block c cs n hblock hends
    rw [dropTrivia_of_ne_zero _ (by omega), hlength, hmore, List.drop_succ_cons]

theorem startsLineComment_take (c : Char) (cs : List Char)
    (h : startsLineComment (c :: cs) = true) :
    startsLineComment (c :: cs.take (lineCommentRest cs)) = true := by
  unfold startsLineComment startsAttribute at h ⊢
  cases cs with
  | nil => exact h
  | cons d ds =>
    cases hrest : lineCommentRest (d :: ds) with
    | zero =>
      -- A second slash would not have ended the comment.
      have hslash : '/' ≠ d := by
        rintro rfl
        have hstop := lineComment_stop ('/' :: ds)
        rw [hrest, List.drop_zero] at hstop
        rcases hstop with hstop | ⟨d, ds, hstop, rfl | rfl⟩ | hstop <;> cases hstop
      rw [Bool.or_eq_true, Bool.and_eq_true] at h
      rcases h with h | ⟨h, -⟩
      · simp [List.isPrefixOf, hslash] at h
      · obtain ⟨rest, hhash⟩ := List.isPrefixOf_iff_prefix.1 h
        cases hhash
        rfl
    | succ n => simpa [List.isPrefixOf] using h

theorem startsLineComment_blank (c : Char) (cs : List Char) (h : isBlank c = true) :
    startsLineComment (c :: cs) = false := by
  simp only [isBlank, Bool.or_eq_true, beq_iff_eq] at h
  rcases h with ((rfl | rfl) | rfl) | rfl <;> rfl

theorem more_of_line (c : Char) (cs : List Char) (l : Lexeme) (h : ReadsTrivia c cs l)
    (hline : startsLineComment (c :: cs) = true) : l.more = lineCommentRest cs := by
  cases h with
  | blanks hblank =>
    rw [startsLineComment_blank c cs hblank] at hline
    cases hline
  | line _ _ hmore => exact hmore
  | block n hblock =>
    obtain ⟨rest, hrest⟩ := List.isPrefixOf_iff_prefix.1 hblock
    cases hrest
    cases hline

end Lexer

end Redeclaration
