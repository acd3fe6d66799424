import Mathlib.Data.List.Basic
import Mathlib.Order.Basic
import Redeclaration.Text.Lines

/-!
Line breaks by their positions in a whole text. A line feed is a break, and so
is a carriage return that no line feed follows; the two together are one break,
at the line feed. Counting piece by piece agrees with this as long as no piece
ends between the two.
-/

namespace Redeclaration.Text

/-- Whether a line ends with the character at a position. -/
def isBreak (cs : List Char) (p : Nat) : Bool :=
  cs[p]? == some '\n' || (cs[p]? == some '\r' && cs[p + 1]? != some '\n')

/-- The number of line breaks before an offset. -/
def breaksBefore (cs : List Char) (o : Nat) : Nat :=
  (List.range o).countP (isBreak cs)

/-- No carriage return is cut off from its line feed between two texts. -/
def CleanCut (a b : List Char) : Prop :=
  a.getLast? = some '\r' → b.head? ≠ some '\n'

theorem breaksBefore_cons (c : Char) (cs : List Char) (o : Nat) :
    breaksBefore (c :: cs) (o + 1) = (if endsLine c cs then 1 else 0) + breaksBefore cs o := by
  have hfirst : isBreak (c :: cs) 0 = endsLine c cs := by
    cases cs <;> simp [isBreak, endsLine]
  have hlater : isBreak (c :: cs) ∘ Nat.succ = isBreak cs := by
    funext p
    simp [isBreak]
  unfold breaksBefore
  rw [List.range_succ_eq_map, List.countP_cons, List.countP_map, hfirst, hlater, Nat.add_comm]

/-- Breaks after a text are found without it. -/
theorem breaksBefore_append (a b : List Char) (o : Nat) :
    breaksBefore (a ++ b) (a.length + o) = breaksBefore (a ++ b) a.length + breaksBefore b o := by
  induction a with
  | nil => simp [breaksBefore]
  | cons c cs ih =>
    rw [List.cons_append, List.length_cons, Nat.add_right_comm, breaksBefore_cons, ih,
      breaksBefore_cons, Nat.add_assoc]

/-- Breaks in a text are found without what follows a clean cut. -/
theorem breaksBefore_cut (a b : List Char) (h : CleanCut a b) :
    breaksBefore (a ++ b) a.length = breaksBefore a a.length := by
  induction a with
  | nil => rfl
  | cons c cs ih =>
    rw [List.cons_append, List.length_cons, breaksBefore_cons, breaksBefore_cons]
    cases cs with
    | nil =>
      -- The only place where the text after the cut is looked at.
      have hlast : endsLine c b = endsLine c [] := by
        unfold endsLine
        by_cases hc : c = '\r'
        · have hb : (b.head? != some '\n') = true := bne_iff_ne.2 (h (by rw [hc]; rfl))
          rw [hb]
          rfl
        · rw [beq_false_of_ne hc, Bool.false_and, Bool.false_and]
      rw [List.nil_append, hlast]
      rfl
    | cons d ds =>
      have htail : CleanCut (d :: ds) b := by
        intro hlast
        exact h (by rwa [List.getLast?_cons_cons])
      rw [ih htail]
      rfl

theorem lineAfter_eq (line : Nat) (cs : List Char) :
    lineAfter line cs = line + breaksBefore cs cs.length := by
  induction cs generalizing line with
  | nil => rfl
  | cons c cs ih =>
    rw [lineAfter, ih, List.length_cons, breaksBefore_cons]
    split <;> omega

theorem cleanCut_of_head (a b : List Char) (h : b.head? ≠ some '\n') : CleanCut a b :=
  fun _ => h

theorem cleanCut_of_last (a b : List Char) (h : a.getLast? ≠ some '\r') : CleanCut a b :=
  fun hlast => absurd hlast h

theorem cleanCut_of_notMem (a b : List Char) (h : '\r' ∉ a) : CleanCut a b := by
  apply cleanCut_of_last
  intro hlast
  exact h (List.mem_of_getLast? hlast)

/-- What is in front of a text that is not empty does not matter for its cut. -/
theorem cleanCut_append (a b c : List Char) (hb : b ≠ []) (h : CleanCut b c) :
    CleanCut (a ++ b) c := by
  intro hlast
  rw [List.getLast?_append_of_ne_nil _ hb] at hlast
  exact h hlast

theorem breakLength_cons (alone : Char → Bool) (c : Char) (cs : List Char) :
    breakLength alone (c :: cs) =
      if c = '\r' ∧ cs.head? = some '\n' then 2 else if alone c then 1 else 0 := by
  simp [breakLength]

/-- A text that takes up the break after it is cut cleanly. -/
theorem cleanCut_break (alone : Char → Bool) (cs : List Char) (n : Nat)
    (h : (cs.take n).getLast? ≠ some '\r') :
    CleanCut (cs.take (n + breakLength alone (cs.drop n)))
      (cs.drop (n + breakLength alone (cs.drop n))) := by
  rw [List.take_add, ← List.drop_drop]
  cases hrest : cs.drop n with
  | nil => exact cleanCut_of_last _ _ (by simpa [breakLength] using h)
  | cons c rest =>
    rw [breakLength_cons]
    by_cases hpair : c = '\r' ∧ rest.head? = some '\n'
    · -- Both characters are taken up.
      obtain ⟨ds, rfl⟩ := List.head?_eq_some_iff.1 hpair.2
      rw [if_pos hpair]
      exact cleanCut_append _ _ _ (by simp) (cleanCut_of_last _ _ (by simp))
    rw [if_neg hpair]
    by_cases halone : alone c = true
    · rw [if_pos halone]
      apply cleanCut_append _ _ _ (by simp)
      intro hlast hhead
      have hc : c = '\r' := by simpa using hlast
      exact hpair ⟨hc, by simpa using hhead⟩
    · rw [if_neg halone]
      exact cleanCut_of_last _ _ (by simpa using h)

end Redeclaration.Text
