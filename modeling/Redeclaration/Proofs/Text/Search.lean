import Mathlib.Data.List.TakeWhile
import Redeclaration.Text.Search

/-!
What the searches of a text find: the first position with a property, and the
longest run of characters with one.
-/

namespace Redeclaration.Text

theorem findSuffixFrom?_eq (p : List Char → Bool) (passed : Nat) (cs : List Char) :
    findSuffixFrom? p passed cs = (findSuffix? p cs).map (passed + ·) := by
  unfold findSuffix?
  induction cs generalizing passed with
  | nil =>
    unfold findSuffixFrom?
    split <;> simp
  | cons c cs ih =>
    unfold findSuffixFrom?
    rw [ih (passed + 1), ih (0 + 1)]
    split
    · simp
    · rw [Option.map_map]
      congr 1
      funext n
      simp only [Function.comp_apply]
      omega

theorem findSuffix?_cons (p : List Char → Bool) (c : Char) (cs : List Char) :
    findSuffix? p (c :: cs) =
      if p (c :: cs) then some 0 else (findSuffix? p cs).map (1 + ·) := by
  rw [← findSuffixFrom?_eq]
  rfl

/-- A position that is found is the first one with the property. -/
theorem findSuffix?_eq_some (p : List Char → Bool) (cs : List Char) (n : Nat)
    (h : findSuffix? p cs = some n) :
    n ≤ cs.length ∧ p (cs.drop n) = true ∧ ∀ m < n, p (cs.drop m) = false := by
  induction cs generalizing n with
  | nil =>
    simp only [findSuffix?, findSuffixFrom?] at h
    split at h
    · rename_i hp
      cases h
      exact ⟨le_rfl, hp, by simp⟩
    · cases h
  | cons c cs ih =>
    rw [findSuffix?_cons] at h
    split at h
    · rename_i hp
      cases h
      exact ⟨Nat.zero_le _, hp, by simp⟩
    · rename_i hp
      obtain ⟨k, hk, rfl⟩ := Option.map_eq_some_iff.1 h
      obtain ⟨hle, hpk, hbefore⟩ := ih k hk
      rw [Nat.add_comm 1 k]
      refine ⟨Nat.succ_le_succ hle, hpk, ?_⟩
      intro m hm
      cases m with
      | zero => simpa using hp
      | succ m => exact hbefore m (by omega)

theorem findSuffix?_eq_none (p : List Char → Bool) (cs : List Char)
    (h : findSuffix? p cs = none) (m : Nat) (hm : m ≤ cs.length) : p (cs.drop m) = false := by
  induction cs generalizing m with
  | nil =>
    simp only [findSuffix?, findSuffixFrom?] at h
    split at h
    · cases h
    · rename_i hp
      simpa using hp
  | cons c cs ih =>
    rw [findSuffix?_cons] at h
    split at h
    · cases h
    · rename_i hp
      cases m with
      | zero => simpa using hp
      | succ m => exact ih (Option.map_eq_none_iff.1 h) m (Nat.le_of_succ_le_succ hm)

/-- A search passes over positions without the property, whether it finds one
with it or comes to the end. -/
theorem findSuffix?_passed (p : List Char → Bool) (cs : List Char) (m : Nat)
    (hm : m < (findSuffix? p cs).getD cs.length) : p (cs.drop m) = false := by
  cases hfind : findSuffix? p cs with
  | none =>
    rw [hfind, Option.getD_none] at hm
    exact findSuffix?_eq_none p cs hfind m hm.le
  | some n =>
    rw [hfind, Option.getD_some] at hm
    exact (findSuffix?_eq_some p cs n hfind).2.2 m hm

/-- A search that does not stop at once has a character to pass. -/
theorem findSuffix?_getD_cons (p : List Char → Bool) (c : Char) (cs : List Char)
    (h : p (c :: cs) = false) :
    (findSuffix? p (c :: cs)).getD (c :: cs).length = (findSuffix? p cs).getD cs.length + 1 := by
  rw [findSuffix?_cons, h, if_neg Bool.false_ne_true]
  cases findSuffix? p cs with
  | none => rfl
  | some n => simp [Nat.add_comm]

theorem runLength_cons (p : Char → Bool) (c : Char) (cs : List Char) (h : p c = true) :
    runLength p (c :: cs) = runLength p cs + 1 := by
  simp [runLength, h]

theorem take_runLength (p : Char → Bool) (cs : List Char) :
    cs.take (runLength p cs) = cs.takeWhile p := by
  calc cs.take (cs.takeWhile p).length
      = (cs.takeWhile p ++ cs.dropWhile p).take (cs.takeWhile p).length := by
        rw [List.takeWhile_append_dropWhile]
    _ = cs.takeWhile p := List.take_left

theorem drop_runLength (p : Char → Bool) (cs : List Char) :
    cs.drop (runLength p cs) = cs.dropWhile p := by
  calc cs.drop (cs.takeWhile p).length
      = (cs.takeWhile p ++ cs.dropWhile p).drop (cs.takeWhile p).length := by
        rw [List.takeWhile_append_dropWhile]
    _ = cs.dropWhile p := List.drop_left

theorem occursIn_iff (pattern cs : List Char) :
    occursIn pattern cs = true ↔ pattern <:+: cs := by
  rw [occursIn, Option.isSome_iff_exists]
  constructor
  · intro h
    obtain ⟨n, hn⟩ := h
    obtain ⟨-, hprefix, -⟩ := findSuffix?_eq_some _ cs n hn
    have hdrop : pattern <+: cs.drop n := List.isPrefixOf_iff_prefix.1 hprefix
    exact hdrop.isInfix.trans (List.drop_suffix n cs).isInfix
  · intro h
    obtain ⟨before, after, rfl⟩ := h
    by_contra hnone
    have hfound : findSuffix? pattern.isPrefixOf (before ++ pattern ++ after) = none := by
      apply Option.eq_none_iff_forall_ne_some.2
      intro n hn
      exact hnone ⟨n, hn⟩
    -- The pattern stands behind the text before it.
    have hmissed := findSuffix?_eq_none _ _ hfound before.length (by simp)
    rw [List.append_assoc, List.drop_left, Bool.eq_false_iff] at hmissed
    exact hmissed (List.isPrefixOf_iff_prefix.2 (List.prefix_append pattern after))

end Redeclaration.Text
