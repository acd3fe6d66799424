import Redeclaration.Proofs.LineEndings.Text
import Redeclaration.Proofs.Token.Plain

/-!
Words, numbers, comments and tags in a text with carriage returns. None of them
tells a line feed from a pair of a carriage return and a line feed, so each has
the extent that its plain form has moved to.
-/

namespace Redeclaration

open Text Lexer

theorem widened_of_isPrefixOf (p : List Char) (c : Char) (cs : List Char) (n : Nat)
    (h : p.isPrefixOf (c :: cs) = true) (hp : '\n' ∉ p) (hn : p.length = n + 1) :
    widened cs n = n := by
  cases p with
  | nil => cases hn
  | cons d p =>
    have hprefix := (List.cons_prefix_cons.1 (List.isPrefixOf_iff_prefix.1 h)).2
    rw [List.mem_cons, not_or] at hp
    rw [List.length_cons, Nat.add_right_cancel_iff] at hn
    exact widened_of_front p cs n hprefix hp.2 hn.symm

/-! Names and the words among them. -/

theorem startsLabel_crlf (cs : List Char) : startsLabel (crlf cs) = startsLabel cs :=
  next_crlf (Option.any isLabelStart) cs (by decide)

theorem nameEnd_crlf (cs : List Char) : nameEnd 0 (crlf cs) = widened cs (nameEnd 0 cs) := by
  induction cs with
  | nil => rfl
  | cons c cs ih =>
    by_cases hc : c = '\n'
    · rw [hc]
      rfl
    · rw [crlf_cons c cs hc, nameEnd, nameEnd, startsLabel_crlf]
      split
      · rw [nameEnd_eq, nameEnd_eq _ cs, ih, Nat.add_comm, Nat.zero_add, Nat.add_comm 1,
          widened_cons c cs _ hc]
      · rfl

theorem crlf_name (cs : List Char) : crlf (cs.take (nameEnd 0 cs)) = cs.take (nameEnd 0 cs) :=
  crlf_of_notMem _ (notMem_name cs '\n' (by decide) (by decide))

theorem startsAttribute_crlf (cs : List Char) : startsAttribute (crlf cs) = startsAttribute cs :=
  isPrefixOf_crlf ['#', '['] cs (by decide) (by decide)

theorem startsLineComment_crlf (cs : List Char) :
    startsLineComment (crlf cs) = startsLineComment cs := by
  unfold startsLineComment
  rw [isPrefixOf_crlf _ cs (by decide) (by decide), isPrefixOf_crlf _ cs (by decide) (by decide),
    startsAttribute_crlf]

/-! Trivia. A line comment before a word runs to the line feed, and takes up a
carriage return that the lexer would not take up. What is left differs by a
blank. -/

theorem dropTrivia_of_zero (cs : List Char) (h : triviaLength cs = 0) : dropTrivia cs = cs := by
  unfold dropTrivia
  rw [h]

theorem dropTrivia_of_ne_zero (cs : List Char) (h : triviaLength cs ≠ 0) :
    dropTrivia cs = dropTrivia (cs.drop (triviaLength cs)) := by
  cases cs with
  | nil => exact absurd rfl h
  | cons c cs =>
    obtain ⟨n, hn⟩ := Nat.exists_eq_succ_of_ne_zero h
    rw [dropTrivia.eq_def]
    simp only [hn, List.drop_succ_cons]

theorem triviaLength_blank (c : Char) (cs : List Char) (hc : isBlank c = true) :
    triviaLength (c :: cs) = runLength isBlank cs + 1 := by
  simp [triviaLength, runLength, hc]

theorem dropTrivia_dropWhile (cs : List Char) :
    dropTrivia (cs.dropWhile isBlank) = dropTrivia cs := by
  cases cs with
  | nil => rfl
  | cons c cs =>
    by_cases hc : isBlank c = true
    · rw [dropTrivia_of_ne_zero (c :: cs) (by simp [triviaLength_blank c cs hc]),
        triviaLength_blank c cs hc, List.drop_succ_cons, drop_runLength,
        List.dropWhile_cons_of_pos hc]
    · rw [List.dropWhile_cons_of_neg hc]

theorem dropTrivia_blank (c : Char) (cs : List Char) (hc : isBlank c = true) :
    dropTrivia (c :: cs) = dropTrivia cs := by
  rw [← dropTrivia_dropWhile (c :: cs), List.dropWhile_cons_of_pos hc, dropTrivia_dropWhile]

theorem dropTrivia_line_crlf (cs : List Char) :
    dropTrivia ((crlf cs).dropWhile (· != '\n')) =
      dropTrivia (crlf (cs.dropWhile (· != '\n'))) := by
  induction cs with
  | nil => rfl
  | cons c cs ih =>
    by_cases hc : c = '\n'
    · rw [hc]
      exact (dropTrivia_blank '\r' ('\n' :: crlf cs) rfl).symm
    · have hpass : (c != '\n') = true := bne_iff_ne.2 hc
      rw [crlf_cons c cs hc, List.dropWhile_cons, List.dropWhile_cons, if_pos hpass, if_pos hpass]
      exact ih

theorem triviaLength_comment (cs : List Char) (h : startsLineComment cs = true) :
    triviaLength cs = runLength (· != '\n') cs ∧ triviaLength cs ≠ 0 := by
  cases cs with
  | nil => cases h
  | cons c cs =>
    have hc : c = '/' ∧ cs.head? = some '/' ∨ c = '#' := by
      rw [startsLineComment, Bool.or_eq_true, Bool.and_eq_true] at h
      rcases h with h | ⟨h, -⟩
      · obtain ⟨rest, hrest⟩ := List.isPrefixOf_iff_prefix.1 h
        cases hrest
        exact .inl ⟨rfl, rfl⟩
      · obtain ⟨rest, hrest⟩ := List.isPrefixOf_iff_prefix.1 h
        cases hrest
        exact .inr rfl
    have hlength : triviaLength (c :: cs) = runLength (· != '\n') (c :: cs) := by
      unfold triviaLength
      rcases hc with ⟨rfl, hslash⟩ | rfl
      · obtain ⟨rest, rfl⟩ := List.head?_eq_some_iff.1 hslash
        rw [if_pos h]
        rfl
      · rw [if_pos h]
        rfl
    refine ⟨hlength, ?_⟩
    rw [hlength]
    rcases hc with ⟨rfl, -⟩ | rfl <;> simp [runLength]

/-- A block comment ends at the same place. -/
theorem commentEnd_crlf (cs : List Char) :
    findSuffix? ['*', '/'].isPrefixOf (crlf cs) =
      (findSuffix? ['*', '/'].isPrefixOf cs).map (widened cs) := by
  apply findSuffix?_crlf
  · intro r
    exact isPrefixOf_crlf ['*', '/'] r (by decide) (by decide)
  · intro r h
    simp at h

theorem widened_commentEnd (cs : List Char) (n : Nat)
    (h : findSuffix? ['*', '/'].isPrefixOf cs = some n) :
    widened cs (n + 2) = widened cs n + 2 := by
  have hends := List.isPrefixOf_iff_prefix.1 (findSuffix?_eq_some _ cs n h).2.1
  rw [widened_add, widened_of_front ['*', '/'] (cs.drop n) 2 hends (by decide) rfl]

theorem triviaLength_crlf (cs : List Char) (h : startsLineComment cs = false) :
    triviaLength (crlf cs) = widened cs (triviaLength cs) := by
  unfold triviaLength
  rw [next_crlf (Option.any isBlank) cs rfl, runLength_crlf isBlank cs rfl,
    isPrefixOf_crlf _ cs (by decide) (by decide), startsLineComment_crlf, h]
  split
  · rfl
  split
  · rename_i hopens
    have hopens' := List.isPrefixOf_iff_prefix.1 hopens
    rw [drop_of_front _ cs 2 hopens' (by decide) rfl, commentEnd_crlf]
    cases hfind : findSuffix? ['*', '/'].isPrefixOf (cs.drop 2) with
    | none => exact (widened_zero cs).symm
    | some n =>
      simp only [Option.map_some]
      rw [show n + 4 = 2 + (n + 2) by omega, widened_add, widened_commentEnd _ n hfind,
        widened_of_front _ cs 2 hopens' (by decide) rfl]
      omega
  · rw [if_neg Bool.false_ne_true, if_neg Bool.false_ne_true, widened_zero]

theorem triviaLength_crlf_eq_zero (cs : List Char) :
    triviaLength (crlf cs) = 0 ↔ triviaLength cs = 0 := by
  by_cases hcomment : startsLineComment cs = true
  · have hcomment' : startsLineComment (crlf cs) = true := by rwa [startsLineComment_crlf]
    have hne := (triviaLength_comment cs hcomment).2
    have hne' := (triviaLength_comment (crlf cs) hcomment').2
    exact ⟨fun h => absurd h hne', fun h => absurd h hne⟩
  · rw [triviaLength_crlf cs (Bool.eq_false_iff.2 hcomment)]
    cases cs with
    | nil => rfl
    | cons c cs => exact widened_cons_eq_zero c cs _

theorem dropTrivia_crlf (cs : List Char) : dropTrivia (crlf cs) = crlf (dropTrivia cs) := by
  -- On the length, since a piece of trivia may end one character apart in the two texts.
  induction hlength : cs.length using Nat.strong_induction_on generalizing cs with
  | _ length ih =>
    by_cases hzero : triviaLength cs = 0
    · rw [dropTrivia_of_zero cs hzero,
        dropTrivia_of_zero _ ((triviaLength_crlf_eq_zero cs).2 hzero)]
    have hzero' := mt (triviaLength_crlf_eq_zero cs).1 hzero
    have hshorter : (cs.drop (triviaLength cs)).length < length := by
      have hne : cs ≠ [] := by
        rintro rfl
        exact hzero rfl
      have hpos := List.length_pos_of_ne_nil hne
      rw [List.length_drop]
      omega
    rw [dropTrivia_of_ne_zero cs hzero, dropTrivia_of_ne_zero _ hzero', ← ih _ hshorter _ rfl]
    by_cases hcomment : startsLineComment cs = true
    · -- The carriage return is part of the comment here, and a blank in front of the rest there.
      have hcomment' : startsLineComment (crlf cs) = true := by rwa [startsLineComment_crlf]
      rw [(triviaLength_comment cs hcomment).1, (triviaLength_comment _ hcomment').1,
        drop_runLength, drop_runLength, dropTrivia_line_crlf]
    · rw [triviaLength_crlf cs (Bool.eq_false_iff.2 hcomment), drop_widened]

/-! Words. -/

theorem crlf_label (cs : List Char) :
    crlf (cs.takeWhile isLabelChar) = cs.takeWhile isLabelChar := by
  apply crlf_of_notMem
  intro hmem
  exact absurd (List.mem_takeWhile_imp hmem) (by decide)

theorem enumFollows_crlf (cs : List Char) : enumFollows (crlf cs) = enumFollows cs := by
  have htrivia : (triviaLength (crlf cs) != 0) = (triviaLength cs != 0) := by
    rw [Bool.eq_iff_iff, bne_iff_ne, bne_iff_ne]
    exact not_congr (triviaLength_crlf_eq_zero cs)
  unfold enumFollows
  simp only [htrivia, dropTrivia_crlf, startsLabel_crlf,
    takeWhile_crlf isLabelChar _ (by decide : isLabelChar '\r' = isLabelChar '\n'), crlf_label]

theorem nameKind_crlf (member : Bool) (text rest : List Char) :
    nameKind member text (crlf rest) = nameKind member text rest := by
  unfold nameKind wordKind
  rw [enumFollows_crlf]

/-! Numbers. -/

theorem digitsLength_crlf (cs : List Char) :
    digitsLength (crlf cs) = widened cs (digitsLength cs) :=
  runLength_crlf _ cs (by decide)

theorem fractionLength_crlf (cs : List Char) :
    fractionLength (crlf cs) = widened cs (fractionLength cs) := by
  cases cs with
  | nil => rfl
  | cons c cs =>
    by_cases hc : c = '\n'
    · rw [hc]
      rfl
    · rw [crlf_cons c cs hc, fractionLength, fractionLength, bne, bne,
        next_crlf (· == some '.') cs rfl, digitsLength_crlf]
      split
      · rw [Nat.add_comm 1 (digitsLength cs), widened_cons c cs _ hc, Nat.add_comm]
      · rw [widened_zero]

theorem exponentLength_crlf (cs : List Char) :
    exponentLength (crlf cs) = widened cs (exponentLength cs) := by
  fun_cases exponentLength cs with
  | case1 e c cs hmark =>
    have he : e ≠ '\n' := by
      rintro rfl
      cases hmark
    have hc : c ≠ '\n' := by
      rintro rfl
      simp at hmark
    rw [crlf_cons e _ he, crlf_cons c _ hc, exponentLength,
      next_crlf (Option.any Char.isDigit) cs (by decide), if_pos hmark, digitsLength_crlf,
      Nat.add_comm 2 (digitsLength cs), widened_cons e _ _ he, widened_cons c _ _ hc,
      Nat.add_comm]
  | case2 e c cs hmark =>
    rw [widened_zero]
    by_cases he : e = '\n'
    · rw [he]
      rfl
    by_cases hc : c = '\n'
    · rw [crlf_cons e _ he, hc, crlf_feed, exponentLength]
      simp
    · rw [crlf_cons e _ he, crlf_cons c _ hc, exponentLength,
        next_crlf (Option.any Char.isDigit) cs (by decide), if_neg hmark]
  | case3 cs hshort =>
    rw [widened_zero]
    match cs, hshort with
    | [], _ => rfl
    | [e], _ =>
      by_cases he : e = '\n'
      · rw [he]
        rfl
      · rw [crlf_cons e _ he]
        rfl
    | e :: c :: cs, hshort => exact absurd rfl (hshort e c cs)

theorem decimalLength_crlf (cs : List Char) :
    decimalLength (crlf cs) = widened cs (decimalLength cs) := by
  unfold decimalLength
  simp only [digitsLength_crlf, drop_widened, fractionLength_crlf, ← widened_add,
    exponentLength_crlf]

theorem numberLength_crlf (cs : List Char) :
    numberLength (crlf cs) = widened cs (numberLength cs) := by
  fun_cases numberLength cs with
  | case1 c d cs hmark =>
    rw [Bool.and_eq_true, beq_iff_eq, decide_eq_true_iff] at hmark
    have hc : c ≠ '\n' := by
      rintro rfl
      cases hmark.1
    have hd : d ≠ '\n' := by
      rintro rfl
      exact absurd hmark.2 (by decide)
    rw [crlf_cons c _ hc, crlf_cons d _ hd, numberLength, if_pos (by simpa using hmark),
      runLength_crlf _ cs (by decide), Nat.add_comm 2 (runLength _ cs), widened_cons c _ _ hc,
      widened_cons d _ _ hd, Nat.add_comm]
  | case2 c d cs hmark =>
    rw [← decimalLength_crlf]
    by_cases hc : c = '\n'
    · rw [hc]
      rfl
    by_cases hd : d = '\n'
    · rw [crlf_cons c _ hc, hd, crlf_feed, numberLength]
      simp
    · rw [crlf_cons c _ hc, crlf_cons d _ hd, numberLength, if_neg hmark]
  | case3 cs hshort =>
    rw [← decimalLength_crlf]
    match cs, hshort with
    | [], _ => rfl
    | [c], _ =>
      by_cases hc : c = '\n'
      · rw [hc]
        rfl
      · rw [crlf_cons c _ hc]
        rfl
    | c :: d :: cs, hshort => exact absurd rfl (hshort c d cs)

/-! Tags. -/

theorem startsEchoTag_crlf (cs : List Char) : startsEchoTag (crlf cs) = startsEchoTag cs :=
  isPrefixOf_crlf ['<', '?', '='] cs (by decide) (by decide)

theorem startsCloseTag_crlf (cs : List Char) : startsCloseTag (crlf cs) = startsCloseTag cs :=
  isPrefixOf_crlf ['?', '>'] cs (by decide) (by decide)

/-- The characters of the long tag are none of a line break. -/
theorem widened_longTag (cs : List Char) (hopens : ['<', '?'].isPrefixOf cs = true)
    (hword : sameWord ((cs.drop 2).take 3) ['p', 'h', 'p'] = true) : widened cs 5 = 5 := by
  have hopens' := List.isPrefixOf_iff_prefix.1 hopens
  have hlower := beq_iff_eq.1 hword
  have hlength : ((cs.drop 2).take 3).length = 3 := by
    simpa using congrArg List.length hlower
  have hfeed : '\n' ∉ (cs.drop 2).take 3 := by
    intro hmem
    have hmem' := List.mem_map_of_mem (f := Char.toLower) hmem
    rw [hlower] at hmem'
    exact absurd hmem' (by decide)
  rw [show 5 = 2 + 3 from rfl, widened_add, widened_of_front _ cs 2 hopens' (by decide) rfl,
    widened_of_front _ (cs.drop 2) 3 (List.take_prefix 3 _) hfeed hlength.symm]

theorem startsLongTag_crlf (cs : List Char) : startsLongTag (crlf cs) = startsLongTag cs := by
  unfold startsLongTag
  rw [isPrefixOf_crlf _ cs (by decide) (by decide)]
  by_cases hopens : ['<', '?'].isPrefixOf cs = true
  · have hopens' := List.isPrefixOf_iff_prefix.1 hopens
    rw [drop_of_front _ cs 2 hopens' (by decide) rfl,
      sameWord_take_crlf _ _ 3 (by decide) (by decide)]
    by_cases hword : sameWord ((cs.drop 2).take 3) ['p', 'h', 'p'] = true
    · rw [drop_of_widened cs 5 (widened_longTag cs hopens hword),
        next_crlf (Option.all isAsciiSpace) _ rfl]
    · rw [Bool.not_eq_true] at hword
      rw [hword]
      simp
  · rw [Bool.not_eq_true] at hopens
    rw [hopens]
    simp

theorem startsOpenTag_crlf (cs : List Char) : startsOpenTag (crlf cs) = startsOpenTag cs := by
  rw [startsOpenTag, startsOpenTag, startsEchoTag_crlf, startsLongTag_crlf]

theorem openTagLength_crlf (cs : List Char) (h : startsOpenTag cs = true) (hreturn : '\r' ∉ cs) :
    openTagLength (crlf cs) = widened cs (openTagLength cs) := by
  unfold openTagLength
  rw [startsEchoTag_crlf]
  split
  · rename_i hecho
    exact (widened_of_front _ cs 3 (List.isPrefixOf_iff_prefix.1 hecho) (by decide) rfl).symm
  · rename_i hecho
    rw [startsOpenTag, Bool.or_eq_true] at h
    have hlong := h.resolve_left hecho
    rw [startsLongTag, Bool.and_eq_true, Bool.and_eq_true] at hlong
    have hfive := widened_longTag cs hlong.1.1 hlong.1.2
    rw [drop_of_widened cs 5 hfive,
      breakLength_crlf _ _ (fun hmem => hreturn (List.mem_of_mem_drop hmem)) rfl, widened_add,
      hfive]

theorem closeTagLength_crlf (cs : List Char) (h : startsCloseTag cs = true)
    (hreturn : '\r' ∉ cs) : closeTagLength (crlf cs) = widened cs (closeTagLength cs) := by
  have hfront := List.isPrefixOf_iff_prefix.1 h
  unfold closeTagLength
  rw [drop_of_front _ cs 2 hfront (by decide) rfl,
    breakLength_crlf _ _ (fun hmem => hreturn (List.mem_of_mem_drop hmem)) rfl, widened_add,
    widened_of_front _ cs 2 hfront (by decide) rfl]

theorem htmlLength_cons (c : Char) (cs : List Char) (h : startsOpenTag (c :: cs) = false) :
    htmlLength (c :: cs) = htmlLength cs + 1 := by
  rw [htmlLength, findSuffix?_cons, h, if_neg Bool.false_ne_true]
  cases hfind : findSuffix? startsOpenTag cs with
  | none => simp [htmlLength, hfind]
  | some n => simp [htmlLength, hfind, Nat.add_comm]

theorem htmlLength_crlf (cs : List Char) : htmlLength (crlf cs) = widened cs (htmlLength cs) := by
  apply findSuffix?_getD_crlf
  · exact startsOpenTag_crlf
  · intro r h
    simp [startsOpenTag, startsEchoTag, startsLongTag] at h

/-! The lexemes of code that always end. -/

namespace Lexer

theorem lineCommentRest_crlf (cs : List Char) :
    lineCommentRest (crlf cs) = widened cs (lineCommentRest cs) := by
  apply findSuffix?_getD_crlf
  · intro r
    rw [next_crlf (Option.any _) r rfl, startsCloseTag_crlf]
  · intro r h
    rfl

theorem operatorRest_crlf (c : Char) (cs : List Char) (hc : c ≠ '\n') :
    operatorRest c (crlf cs) = widened cs (operatorRest c cs) := by
  unfold operatorRest
  rw [← crlf_cons c cs hc, startsAttribute_crlf, isPrefixOf_crlf _ _ (by decide) (by decide),
    isPrefixOf_crlf _ _ (by decide) (by decide), isPrefixOf_crlf _ _ (by decide) (by decide)]
  split
  · rename_i hop
    exact (widened_of_isPrefixOf ['#', '['] c cs 1 hop (by decide) rfl).symm
  split
  · rename_i hop
    exact (widened_of_isPrefixOf ['-', '>'] c cs 1 hop (by decide) rfl).symm
  split
  · rename_i hop
    exact (widened_of_isPrefixOf ['?', '-', '>'] c cs 2 hop (by decide) rfl).symm
  split
  · rename_i hop
    exact (widened_of_isPrefixOf [':', ':'] c cs 1 hop (by decide) rfl).symm
  · rw [widened_zero]

theorem plain_crlf (member : Bool) (c : Char) (cs : List Char) (hc : c ≠ '\n') :
    plain member c (crlf cs) = ((plain member c cs).1, widened cs (plain member c cs).2) := by
  have hnumber : numberLength (c :: crlf cs) - 1 = widened cs (numberLength (c :: cs) - 1) := by
    rw [← crlf_cons c cs hc, numberLength_crlf]
    cases numberLength (c :: cs) with
    | zero => rfl
    | succ n => rw [widened_cons c cs n hc, Nat.add_sub_cancel, Nat.add_sub_cancel]
  have hcomment : startsLineComment (c :: crlf cs) = startsLineComment (c :: cs) := by
    rw [← crlf_cons c cs hc, startsLineComment_crlf]
  unfold plain
  rw [hcomment, hnumber, startsLabel_crlf, next_crlf (Option.any Char.isDigit) cs (by decide),
    runLength_crlf isBlank cs rfl, runLength_crlf isLabelChar cs (by decide),
    lineCommentRest_crlf, operatorRest_crlf c cs hc, nameEnd_crlf]
  simp only [take_widened, drop_widened, crlf_name, nameKind_crlf]
  split_ifs <;> rfl

end Lexer

end Redeclaration
