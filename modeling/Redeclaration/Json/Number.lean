/-!
Numbers in JSON texts. No setting is a number, so only two things matter: how
far a number goes, and whether it is one at all. A number whose value does not
fit a double is not: its digits are taken up as long as they fit 64 bits, and
the product with a power of ten, both rounded to 53 bits, must stay below the
rounding limit of the largest double.
-/

namespace Redeclaration.Json

/-- Why a text is refused. -/
inductive Refusal where
  /-- The text ends too early. -/
  | early
  /-- The text is no JSON. -/
  | malformed
  /-- The text is JSON so far, but not of the form that is asked for. -/
  | misfit
deriving DecidableEq, Repr

/-- The refusal of a text that lacks something at this position. -/
def Refusal.lacking (cs : List Char) : Refusal :=
  if cs.isEmpty then .early else .malformed

/-- The digits of a number: before the point, after the point, and of the
exponent with its sign. -/
structure Digits where
  whole : List Char
  fraction : List Char := []
  negative : Bool := false
  exponent : List Char := []
deriving DecidableEq, Repr

namespace Digits

def digitValue (c : Char) : Nat := c.toNat - '0'.toNat

def significandLimit : Nat := Nat.pow 2 64 - 1

def exponentLimit : Nat := Nat.pow 2 31 - 1

/-- Digits that are taken up one by one while the value stays within 64 bits. -/
structure Uptake where
  value : Nat
  taken : Nat := 0
  full : Bool := false

def Uptake.push (u : Uptake) (c : Char) : Uptake :=
  let next := u.value * 10 + digitValue c
  if u.full || significandLimit < next then { u with full := true }
  else { u with value := next, taken := u.taken + 1 }

def Uptake.pushAll (u : Uptake) (cs : List Char) : Uptake :=
  cs.foldl push u

/-- A natural number rounded to 53 bits, a half to the even neighbour. -/
def round53 (n : Nat) : Nat :=
  let unit := Nat.pow 2 (n.log2 + 1 - 53)
  let q := n / unit
  let r := n % unit
  if unit < 2 * r || (unit == 2 * r && q % 2 == 1) then (q + 1) * unit else q * unit

/-- The least number that rounds to no double. -/
def doubleLimit : Nat := Nat.pow 2 1024 - Nat.pow 2 970

/-- Whether the value is too large for a double. -/
def overflows (d : Digits) : Bool :=
  let whole := Uptake.pushAll ⟨0, 0, false⟩ d.whole
  let all := Uptake.pushAll ⟨whole.value, 0, false⟩ d.fraction
  let shift : Int := (d.whole.length - whole.taken : Nat) - (all.taken : Int)
  let given := d.exponent.foldl (fun n c => n * 10 + digitValue c) 0
  if all.value == 0 then false
  else if exponentLimit < given then !d.negative
  else
    match shift + (if d.negative then -(given : Int) else given) with
    | .ofNat e => 308 < e || doubleLimit ≤ round53 all.value * round53 (Nat.pow 10 e)
    | .negSucc _ => false

end Digits

/-- The digits at the start of a text, of which there must be one. -/
def digits (cs : List Char) : Except Refusal (List Char) :=
  match cs.takeWhile Char.isDigit with
  | [] => .error (.lacking cs)
  | ds => .ok ds

/-- The digits before the point. Zero stands alone. -/
def wholeDigits (cs : List Char) : Except Refusal (List Char) := do
  let ds ← digits cs
  if ds.head? == some '0' && 1 < ds.length then .error .malformed else .ok ds

/-- The point and the digits after it, if there is one. -/
def fractionDigits : List Char → Except Refusal (Nat × List Char)
  | [] => .ok (0, [])
  | c :: cs =>
    if c == '.' then do
      let ds ← digits cs
      return (1 + ds.length, ds)
    else .ok (0, [])

/-- The length of the exponent, its sign and its digits, if there is one. -/
def exponentDigits : List Char → Except Refusal (Nat × Bool × List Char)
  | [] => .ok (0, false, [])
  | c :: cs =>
    if c == 'e' || c == 'E' then do
      let signs := (cs.head?.filter fun s => s == '+' || s == '-').toList
      let ds ← digits (cs.drop signs.length)
      return (1 + signs.length + ds.length, signs == ['-'], ds)
    else .ok (0, false, [])

/-- The length of the number at the start of a text. -/
def numberLength (cs : List Char) : Except Refusal Nat := do
  let sign := if cs.head? == some '-' then 1 else 0
  let whole ← wholeDigits (cs.drop sign)
  let n := sign + whole.length
  let (m, fraction) ← fractionDigits (cs.drop n)
  let (k, negative, exponent) ← exponentDigits (cs.drop (n + m))
  if (Digits.mk whole fraction negative exponent).overflows then .error .malformed
  else .ok (n + m + k)

end Redeclaration.Json
