import Mathlib.Data.String.Basic
import Mathlib.Tactic.SplitIfs
import Redeclaration.Text.Utf8

/-!
The order of texts. Comparing two texts character by character is the same as
comparing their bytes in UTF-8: the code of a character is no beginning of
another code, and a greater character has a greater code.
-/

namespace Redeclaration.Text

theorem utf8Encode_data (cs : List Char) :
    cs.utf8Encode.data.toList = cs.flatMap String.utf8EncodeChar := by
  simp [List.utf8Encode]

theorem bytes_eq (s : String) : bytes s = s.toList.flatMap String.utf8EncodeChar := by
  rw [bytes, String.toUTF8_eq_toByteArray, ← String.utf8Encode_toList, utf8Encode_data]

theorem byte_cons_lt (a b : Nat) (l m : List UInt8) (ha : a < 256) (hb : b < 256) (hab : a ≤ b)
    (h : a = b → l < m) : UInt8.ofNat a :: l < UInt8.ofNat b :: m := by
  rw [List.cons_lt_cons_iff]
  rcases Nat.lt_or_eq_of_le hab with hlt | heq
  · left
    rw [UInt8.lt_iff_toNat_lt, UInt8.toNat_ofNat', UInt8.toNat_ofNat', Nat.mod_eq_of_lt ha,
      Nat.mod_eq_of_lt hb]
    exact hlt
  · exact .inr ⟨by rw [heq], h heq⟩

/-- A greater character has a greater code, whatever follows. -/
theorem utf8EncodeChar_lt (c d : Char) (h : c < d) (x y : List UInt8) :
    String.utf8EncodeChar c ++ x < String.utf8EncodeChar d ++ y := by
  have hlt : c.val.toNat < d.val.toNat := h
  have hmax : d.val.toNat < 0x110000 := by
    have hvalid := d.valid
    rcases hvalid with hv | hv <;> omega
  unfold String.utf8EncodeChar
  generalize c.val.toNat = v at hlt
  generalize d.val.toNat = w at hlt hmax
  -- The number of bytes grows with the character, and the first byte with it;
  -- codes of one length are compared digit by digit.
  dsimp only
  split_ifs
  all_goals try omega
  all_goals simp only [List.cons_append]
  all_goals repeat' first | omega | apply byte_cons_lt | intro heq

theorem flatMap_utf8EncodeChar_lt (a b : List Char) (h : a < b) :
    a.flatMap String.utf8EncodeChar < b.flatMap String.utf8EncodeChar := by
  induction a generalizing b with
  | nil =>
    cases b with
    | nil => cases h
    | cons d b =>
      obtain ⟨x, xs, hx⟩ := List.exists_cons_of_ne_nil (String.utf8EncodeChar_ne_nil (c := d))
      rw [List.flatMap_nil, List.flatMap_cons, hx]
      exact List.nil_lt_cons _ _
  | cons c a ih =>
    cases b with
    | nil => cases h
    | cons d b =>
      rw [List.flatMap_cons, List.flatMap_cons]
      rcases List.cons_lt_cons_iff.1 h with hcd | ⟨rfl, hab⟩
      · exact utf8EncodeChar_lt c d hcd _ _
      · exact List.append_left_lt (ih b hab)

/-- The order of texts is the order of their bytes. -/
theorem bytes_lt_iff (a b : String) : bytes a < bytes b ↔ a < b := by
  have hmono (a b : String) (h : a < b) : bytes a < bytes b := by
    rw [bytes_eq, bytes_eq]
    exact flatMap_utf8EncodeChar_lt _ _ (String.lt_iff_toList_lt.1 h)
  refine ⟨?_, hmono a b⟩
  intro h
  rcases lt_trichotomy a b with hab | rfl | hba
  · exact hab
  · exact absurd h (List.lt_irrefl _)
  · exact absurd (List.lt_trans h (hmono b a hba)) (List.lt_irrefl _)

end Redeclaration.Text
