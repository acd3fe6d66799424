import Redeclaration.Text.Search

/-!
Number literals. Only their extent matters, so a digit of any base up to
sixteen may follow each of the base marks.
-/

namespace Redeclaration

open Text

def isHexDigit (c : Char) : Bool :=
  c.isDigit || ('a' ≤ c && c ≤ 'f') || ('A' ≤ c && c ≤ 'F')

/-- The digits at the start of a text, with the underscores among them. -/
def digitsLength (cs : List Char) : Nat :=
  runLength (fun c => c.isDigit || c == '_') cs

/-- A point that no second point follows, and its digits. -/
def fractionLength : List Char → Nat
  | c :: cs => if c == '.' && cs.head? != some '.' then 1 + digitsLength cs else 0
  | [] => 0

/-- The exponent mark, if a digit or a sign and a digit follow it, and its
digits. -/
def exponentLength : List Char → Nat
  | e :: c :: cs =>
    if (e == 'e' || e == 'E')
        && (c.isDigit || ((c == '+' || c == '-') && cs.head?.any Char.isDigit)) then
      2 + digitsLength cs
    else 0
  | _ => 0

def decimalLength (cs : List Char) : Nat :=
  let whole := digitsLength cs
  let fraction := fractionLength (cs.drop whole)
  whole + fraction + exponentLength (cs.drop (whole + fraction))

/-- The length of the number literal that starts here. -/
def numberLength : List Char → Nat
  | c :: d :: cs =>
    if c == '0' && d ∈ ['x', 'X', 'b', 'B', 'o', 'O'] then
      2 + runLength (fun c => isHexDigit c || c == '_') cs
    else decimalLength (c :: d :: cs)
  | cs => decimalLength cs

end Redeclaration
