import Redeclaration.Proofs.Text.Lines
import Redeclaration.Proofs.Text.Search
import Redeclaration.Token.Lexer

/-!
The lexemes of code that always end: blanks, line comments, names, numbers and
operators. Blanks are taken up as a whole, and the others hold no carriage
return, so that all of them are cut off cleanly.
-/

namespace Redeclaration.Lexer

open Text

theorem not_labelChar_return : isLabelChar '\r' = false := by decide

theorem take_pred (c : Char) (cs : List Char) (n : Nat) (hn : 0 < n) :
    c :: cs.take (n - 1) = (c :: cs).take n := by
  obtain ⟨m, rfl⟩ := Nat.exists_eq_succ_of_ne_zero (Nat.ne_of_gt hn)
  rfl

theorem notMem_take_runLength (p : Char → Bool) (cs : List Char) (d : Char)
    (hd : p d = false) : d ∉ cs.take (runLength p cs) := by
  intro hmem
  rw [take_runLength] at hmem
  have hp := List.mem_takeWhile_imp hmem
  rw [hd] at hp
  cases hp

theorem return_notMem_digits (cs : List Char) : '\r' ∉ cs.take (digitsLength cs) :=
  notMem_take_runLength _ cs '\r' (by decide)

theorem return_notMem_fraction (cs : List Char) : '\r' ∉ cs.take (fractionLength cs) := by
  fun_cases fractionLength cs with
  | case1 d cs hpoint =>
    rw [Bool.and_eq_true, beq_iff_eq] at hpoint
    rw [Nat.add_comm, List.take_succ_cons, List.mem_cons, hpoint.1, not_or]
    exact ⟨by decide, return_notMem_digits cs⟩
  | case2 => simp
  | case3 => simp

theorem return_notMem_exponent (cs : List Char) : '\r' ∉ cs.take (exponentLength cs) := by
  fun_cases exponentLength cs with
  | case1 e d cs hmark =>
    simp only [Bool.and_eq_true, Bool.or_eq_true, beq_iff_eq] at hmark
    rw [Nat.add_comm, List.take_succ_cons, List.take_succ_cons, List.mem_cons, List.mem_cons,
      not_or, not_or]
    refine ⟨?_, ?_, return_notMem_digits cs⟩
    · rcases hmark.1 with rfl | rfl <;> decide
    · rintro rfl
      rcases hmark.2 with hd | ⟨hd | hd, -⟩
      · exact absurd hd (by decide)
      · exact absurd hd (by decide)
      · exact absurd hd (by decide)
  | case2 => simp
  | case3 => simp

theorem return_notMem_decimal (cs : List Char) : '\r' ∉ cs.take (decimalLength cs) := by
  unfold decimalLength
  rw [List.take_add, List.take_add, List.mem_append, List.mem_append, not_or, not_or]
  exact ⟨⟨return_notMem_digits cs, return_notMem_fraction _⟩, return_notMem_exponent _⟩

theorem return_notMem_number (cs : List Char) : '\r' ∉ cs.take (numberLength cs) := by
  fun_cases numberLength cs with
  | case1 a d cs hmark =>
    rw [Bool.and_eq_true, beq_iff_eq, decide_eq_true_iff] at hmark
    rw [Nat.add_comm, List.take_succ_cons, List.take_succ_cons, List.mem_cons, List.mem_cons,
      not_or, not_or, hmark.1]
    refine ⟨by decide, ?_, notMem_take_runLength _ cs '\r' (by decide)⟩
    rintro rfl
    exact absurd hmark.2 (by decide)
  | case2 a d cs => exact return_notMem_decimal _
  | case3 cs => exact return_notMem_decimal _

theorem nameEnd_eq (passed : Nat) (cs : List Char) :
    nameEnd passed cs = passed + nameEnd 0 cs := by
  induction cs generalizing passed with
  | nil => rfl
  | cons c cs ih =>
    unfold nameEnd
    rw [ih (passed + 1), ih (0 + 1)]
    split <;> omega

theorem notMem_name (cs : List Char) (d : Char) (hlabel : isLabelChar d = false)
    (hback : d ≠ '\\') : d ∉ cs.take (nameEnd 0 cs) := by
  induction cs with
  | nil => simp
  | cons e cs ih =>
    unfold nameEnd
    split
    · -- A name goes on with a label character or a backslash.
      rename_i he
      rw [nameEnd_eq, Nat.add_comm, List.take_succ_cons, List.mem_cons, not_or]
      refine ⟨?_, ih⟩
      rintro rfl
      rw [hlabel, beq_false_of_ne hback] at he
      cases he
    · simp

theorem notMem_lineComment (cs : List Char) (d : Char) (hd : d = '\n' ∨ d = '\r') :
    d ∉ cs.take (lineCommentRest cs) := by
  intro hmem
  obtain ⟨m, hm, hget⟩ := List.mem_take_iff_getElem.1 hmem
  have hlt : m < lineCommentRest cs ∧ m < cs.length := by omega
  have hpassed := findSuffix?_passed _ cs m hlt.1
  -- The search would have stopped at the end of the line.
  rw [List.head?_drop, List.getElem?_eq_getElem hlt.2, hget] at hpassed
  rcases hd with rfl | rfl <;> cases hpassed

theorem notMem_of_isPrefixOf (p : List Char) (c : Char) (cs : List Char) (n : Nat) (d : Char)
    (h : p.isPrefixOf (c :: cs) = true) (hn : p.length = n + 1) (hd : d ∉ p) :
    d ∉ c :: cs.take n := by
  obtain ⟨rest, hrest⟩ := List.isPrefixOf_iff_prefix.1 h
  have hp : c :: cs.take n = p := by
    rw [← List.take_succ_cons, ← hrest, ← hn, List.take_left]
  rwa [hp]

theorem notMem_operator (c : Char) (cs : List Char) (d : Char) (hc : c ≠ d)
    (hd : d ∉ ['#', '[', '-', '>', '?', ':']) : d ∉ c :: cs.take (operatorRest c cs) := by
  unfold operatorRest
  split
  · rename_i hop
    exact notMem_of_isPrefixOf ['#', '['] c cs 1 d hop rfl (by simp_all)
  split
  · rename_i hop
    exact notMem_of_isPrefixOf ['-', '>'] c cs 1 d hop rfl (by simp_all)
  split
  · rename_i hop
    exact notMem_of_isPrefixOf ['?', '-', '>'] c cs 2 d hop rfl (by simp_all)
  split
  · rename_i hop
    exact notMem_of_isPrefixOf [':', ':'] c cs 1 d hop rfl (by simp_all)
  · simpa using hc.symm

theorem plain_cut (member : Bool) (c : Char) (cs : List Char) :
    CleanCut (c :: cs.take (plain member c cs).2) (cs.drop (plain member c cs).2) := by
  unfold plain
  split
  · -- A run of blanks ends before another character.
    apply cleanCut_of_head
    dsimp only
    rw [drop_runLength]
    intro hhead
    have hnot := List.head?_dropWhile_not isBlank cs
    rw [hhead] at hnot
    cases hnot
  rename_i hblank
  have hc : c ≠ '\r' := by
    rintro rfl
    exact hblank rfl
  have hcons (ds : List Char) (hds : '\r' ∉ ds) : '\r' ∉ c :: ds :=
    List.not_mem_cons_of_ne_of_not_mem hc.symm hds
  apply cleanCut_of_notMem
  split
  · exact hcons _ (notMem_lineComment cs '\r' (.inr rfl))
  split
  · exact hcons _ (notMem_take_runLength isLabelChar cs '\r' not_labelChar_return)
  split
  · dsimp only
    by_cases hpos : 0 < numberLength (c :: cs)
    · rw [take_pred c cs _ hpos]
      exact return_notMem_number (c :: cs)
    · rw [Nat.eq_zero_of_not_pos hpos]
      exact hcons _ (by simp)
  split
  · exact hcons _ (notMem_name cs '\r' not_labelChar_return (by decide))
  split
  · exact hcons _ (notMem_name cs '\r' not_labelChar_return (by decide))
  · exact notMem_operator c cs '\r' hc (by decide)

end Redeclaration.Lexer
