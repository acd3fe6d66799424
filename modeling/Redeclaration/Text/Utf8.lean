/-!
UTF-8, and the decoding of any bytes. Bytes that belong to no character are grouped the way the
standard recommends: the longest start of a character that breaks off counts as
one error, and every other byte as one of its own.
-/

namespace Redeclaration.Text

/-- The bytes of a text in UTF-8. -/
def bytes (s : String) : List UInt8 :=
  s.toUTF8.data.toList

/-- The shape of a character of several bytes after its first one: the bits of
that byte, the range of the second byte and the number of bytes after that. -/
structure Lead where
  bits : Nat
  low : Nat
  high : Nat
  further : Nat
deriving DecidableEq, Repr

/-- The shape that a first byte announces. The narrow ranges keep out overlong
forms, surrogates and what lies beyond the last code point. -/
def Lead.of? (b : Nat) : Option Lead :=
  if 0xC2 ≤ b && b ≤ 0xDF then some ⟨b - 0xC0, 0x80, 0xBF, 0⟩
  else if b == 0xE0 then some ⟨b - 0xE0, 0xA0, 0xBF, 1⟩
  else if b == 0xED then some ⟨b - 0xE0, 0x80, 0x9F, 1⟩
  else if 0xE1 ≤ b && b ≤ 0xEF then some ⟨b - 0xE0, 0x80, 0xBF, 1⟩
  else if b == 0xF0 then some ⟨b - 0xF0, 0x90, 0xBF, 2⟩
  else if 0xF1 ≤ b && b ≤ 0xF3 then some ⟨b - 0xF0, 0x80, 0xBF, 2⟩
  else if b == 0xF4 then some ⟨b - 0xF0, 0x80, 0x8F, 2⟩
  else none

/-- Reads bytes that continue a character, the first of them in its own range:
the code point, if there are enough of them, and how many there are. -/
def continueChar (l : Lead) (bs : List UInt8) : Option Nat × Nat :=
  match bs with
  | [] => (none, 0)
  | b :: rest =>
    if l.low ≤ b.toNat && b.toNat ≤ l.high then
      let bits := l.bits * 64 + (b.toNat - 0x80)
      match l.further with
      | 0 => (some bits, 1)
      | n + 1 =>
        let (code, m) := continueChar ⟨bits, 0x80, 0xBF, n⟩ rest
        (code, m + 1)
    else (none, 0)

/-- Decodes what starts with the byte `b`: a character or an error, and the
number of further bytes that belong to it. -/
def decodeOne (b : UInt8) (bs : List UInt8) : Option Char × Nat :=
  if b.toNat < 0x80 then (some (Char.ofNat b.toNat), 0)
  else
    match Lead.of? b.toNat with
    | none => (none, 0)
    | some l =>
      let (code, n) := continueChar l bs
      (code.map Char.ofNat, n)

/-- The characters of a list of bytes, with nothing in the place of an error. -/
def decode (bytes : List UInt8) : List (Option Char) :=
  match bytes with
  | [] => []
  | b :: bs =>
    let (c, n) := decodeOne b bs
    c :: decode (bs.drop n)
termination_by bytes.length
decreasing_by simp only [List.length_drop, List.length_cons]; omega

/-- The text of a list of bytes, with the replacement character for errors. -/
def decodeLossy (bytes : List UInt8) : String :=
  String.ofList ((decode bytes).map fun c => c.getD '\ufffd')

/-- The text of a list of bytes without errors. -/
def decode? (bytes : List UInt8) : Option String :=
  ((decode bytes).mapM id).map String.ofList

end Redeclaration.Text
