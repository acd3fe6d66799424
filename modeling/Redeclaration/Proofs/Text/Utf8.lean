import Redeclaration.Proofs.Text.Bytes

/-!
The decoder on bytes that are a text. The first byte of a character tells how many follow, and
in which range the second one lies. Main statement: the bytes of a text are decoded to the text.
-/

namespace Redeclaration.Text

/-! What the first byte announces, for characters of two, three and four bytes. -/

theorem Lead.of?_two (k : Nat) (hlow : 2 ≤ k) (hk : k < 32) :
    Lead.of? (k + 192) = some ⟨k, 0x80, 0xBF, 0⟩ := by
  have hall : ∀ k < 32, 2 ≤ k → Lead.of? (k + 192) = some ⟨k, 0x80, 0xBF, 0⟩ := by decide
  exact hall k hk hlow

theorem Lead.of?_three (k : Nat) (hk : k < 16) :
    Lead.of? (k + 224) =
      some ⟨k, if k = 0 then 0xA0 else 0x80, if k = 13 then 0x9F else 0xBF, 1⟩ := by
  have hall : ∀ k < 16, Lead.of? (k + 224) =
      some ⟨k, if k = 0 then 0xA0 else 0x80, if k = 13 then 0x9F else 0xBF, 1⟩ := by decide
  exact hall k hk

theorem Lead.of?_four (k : Nat) (hk : k < 5) :
    Lead.of? (k + 240) =
      some ⟨k, if k = 0 then 0x90 else 0x80, if k = 4 then 0x8F else 0xBF, 2⟩ := by
  have hall : ∀ k < 5, Lead.of? (k + 240) =
      some ⟨k, if k = 0 then 0x90 else 0x80, if k = 4 then 0x8F else 0xBF, 2⟩ := by decide
  exact hall k hk

/-! Bytes that continue a character. -/

theorem toNat_byte (n : Nat) (hn : n < 256) : (UInt8.ofNat n).toNat = n :=
  UInt8.toNat_ofNat_of_lt' hn

theorem continueChar_last (bits low high n : Nat) (rest : List UInt8) (hn : n < 64)
    (hlow : low ≤ n + 128) (hhigh : n + 128 ≤ high) :
    continueChar ⟨bits, low, high, 0⟩ (UInt8.ofNat (n + 128) :: rest) =
      (some (bits * 64 + n), 1) := by
  have hbyte : (UInt8.ofNat (n + 128)).toNat = n + 128 := toNat_byte _ (by omega)
  rw [continueChar, hbyte]
  simp [hlow, hhigh]

theorem continueChar_more (bits low high further n : Nat) (rest : List UInt8) (hn : n < 64)
    (hlow : low ≤ n + 128) (hhigh : n + 128 ≤ high) :
    continueChar ⟨bits, low, high, further + 1⟩ (UInt8.ofNat (n + 128) :: rest) =
      ((continueChar ⟨bits * 64 + n, 0x80, 0xBF, further⟩ rest).1,
        (continueChar ⟨bits * 64 + n, 0x80, 0xBF, further⟩ rest).2 + 1) := by
  have hbyte : (UInt8.ofNat (n + 128)).toNat = n + 128 := toNat_byte _ (by omega)
  rw [continueChar, hbyte]
  simp [hlow, hhigh]

theorem decode_cons (b : UInt8) (bs : List UInt8) (c : Option Char) (n : Nat)
    (h : decodeOne b bs = (c, n)) : decode (b :: bs) = c :: decode (bs.drop n) := by
  rw [decode, h]

/-- A first byte with the bits `k` and a lead, and what continues it. -/
theorem decodeOne_lead (m : Nat) (l : Lead) (bs : List UInt8) (v n : Nat) (hm : m < 256)
    (hlow : 128 ≤ m) (hl : Lead.of? m = some l) (hbs : continueChar l bs = (some v, n)) :
    decodeOne (UInt8.ofNat m) bs = (some (Char.ofNat v), n) := by
  have hbyte : (UInt8.ofNat m).toNat = m := toNat_byte m hm
  rw [decodeOne, hbyte, if_neg (by omega), hl]
  simp only [hbs, Option.map_some]

/-- The bytes of a character are decoded to it, whatever follows. -/
theorem decode_utf8EncodeChar (c : Char) (rest : List UInt8) :
    decode (String.utf8EncodeChar c ++ rest) = some c :: decode rest := by
  have hvalid : c.val.toNat < 0xD800 ∨ 0xDFFF < c.val.toNat ∧ c.val.toNat < 0x110000 := c.valid
  have hchar : Char.ofNat c.val.toNat = c := c.ofNat_toNat
  unfold String.utf8EncodeChar
  generalize c.val.toNat = v at hvalid hchar
  dsimp only
  -- In each case the bits of the bytes make up the number of the character again.
  split_ifs with hone htwo hthree
  · have hbyte : (UInt8.ofNat v).toNat = v := toNat_byte _ (by omega)
    rw [List.singleton_append, decode_cons _ _ (some c) 0, List.drop_zero]
    rw [decodeOne, hbyte, if_pos (by omega), hchar]
  · have hlead := Lead.of?_two (v / 64 % 32) (by omega) (by omega)
    have hlast := continueChar_last (v / 64 % 32) 0x80 0xBF (v % 64) rest (by omega) (by omega)
      (by omega)
    have hbits : v / 64 % 32 * 64 + v % 64 = v := by omega
    rw [hbits] at hlast
    rw [List.cons_append, List.singleton_append,
      decode_cons _ _ _ _ (decodeOne_lead _ _ _ v 1 (by omega) (by omega) hlead hlast), hchar]
    rfl
  · have hlead := Lead.of?_three (v / 4096 % 16) (by omega)
    have hlast := continueChar_last (v / 4096 % 16 * 64 + v / 64 % 64) 0x80 0xBF (v % 64) rest
      (by omega) (by omega) (by omega)
    have hsecond := continueChar_more (v / 4096 % 16)
      (if v / 4096 % 16 = 0 then 0xA0 else 0x80) (if v / 4096 % 16 = 13 then 0x9F else 0xBF) 0
      (v / 64 % 64) (UInt8.ofNat (v % 64 + 128) :: rest) (by omega) (by split <;> omega)
      (by split <;> omega)
    have hbits : (v / 4096 % 16 * 64 + v / 64 % 64) * 64 + v % 64 = v := by omega
    rw [hlast, hbits] at hsecond
    rw [List.cons_append, List.cons_append, List.singleton_append,
      decode_cons _ _ _ _ (decodeOne_lead _ _ _ v 2 (by omega) (by omega) hlead hsecond), hchar]
    rfl
  · have hlead := Lead.of?_four (v / 262144 % 8) (by omega)
    have hlast := continueChar_last ((v / 262144 % 8 * 64 + v / 4096 % 64) * 64 + v / 64 % 64)
      0x80 0xBF (v % 64) rest (by omega) (by omega) (by omega)
    have hthird := continueChar_more (v / 262144 % 8 * 64 + v / 4096 % 64) 0x80 0xBF 0
      (v / 64 % 64) (UInt8.ofNat (v % 64 + 128) :: rest) (by omega) (by omega) (by omega)
    have hsecond := continueChar_more (v / 262144 % 8)
      (if v / 262144 % 8 = 0 then 0x90 else 0x80) (if v / 262144 % 8 = 4 then 0x8F else 0xBF) 1
      (v / 4096 % 64)
      (UInt8.ofNat (v / 64 % 64 + 128) :: UInt8.ofNat (v % 64 + 128) :: rest) (by omega)
      (by split <;> omega) (by split <;> omega)
    have hbits : ((v / 262144 % 8 * 64 + v / 4096 % 64) * 64 + v / 64 % 64) * 64 + v % 64 = v := by
      omega
    rw [hthird, hlast, hbits] at hsecond
    rw [List.cons_append, List.cons_append, List.cons_append, List.singleton_append,
      decode_cons _ _ _ _ (decodeOne_lead _ _ _ v 3 (by omega) (by omega) hlead hsecond), hchar]
    rfl

/-- The bytes of a text are decoded to the text. -/
theorem decode_flatMap (cs : List Char) :
    decode (cs.flatMap String.utf8EncodeChar) = cs.map some := by
  induction cs with
  | nil => rw [List.flatMap_nil, decode]; rfl
  | cons c cs ih => rw [List.flatMap_cons, decode_utf8EncodeChar, ih, List.map_cons]

theorem decodeLossy_bytes (s : String) : decodeLossy (bytes s) = s := by
  rw [decodeLossy, bytes_eq, decode_flatMap, List.map_map]
  have hsame : (fun c : Option Char => c.getD '\ufffd') ∘ some = id := rfl
  rw [hsame, List.map_id, String.ofList_toList]

/-- A single byte stands for a character of its own, and is no part of another one. -/
theorem toNat_of_mem_utf8EncodeChar (c : Char) (b : UInt8) (hb : b ∈ String.utf8EncodeChar c)
    (hlt : b.toNat < 128) : c.toNat = b.toNat := by
  have hmax : c.val.toNat < 0x110000 := by
    have hvalid := c.valid
    rcases hvalid with hv | hv <;> omega
  show c.val.toNat = b.toNat
  unfold String.utf8EncodeChar at hb
  generalize c.val.toNat = v at hb hmax
  dsimp only at hb
  split_ifs at hb
  · rw [List.mem_singleton.1 hb, toNat_byte v (by omega)]
  -- The bytes of a longer code are all above the single ones.
  all_goals
    simp only [List.mem_cons, List.not_mem_nil, or_false] at hb
    rcases hb with rfl | hb
    · rw [toNat_byte _ (by omega)] at hlt
      omega
  · rw [hb, toNat_byte _ (by omega)] at hlt
    omega
  · rcases hb with rfl | rfl <;> (rw [toNat_byte _ (by omega)] at hlt; omega)
  · rcases hb with rfl | rfl | rfl <;> (rw [toNat_byte _ (by omega)] at hlt; omega)

theorem bytes_injective (s t : String) (h : bytes s = bytes t) : s = t := by
  rw [← decodeLossy_bytes s, h, decodeLossy_bytes]

end Redeclaration.Text
