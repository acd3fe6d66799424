import Redeclaration.Json.Number
import Redeclaration.Text.Lines

/-!
The symbols of a JSON text. A symbol that cannot be read is kept as broken and
ends the list, because whether and how it is refused depends on what is expected
in its place.
-/

namespace Redeclaration.Json

inductive Symbol where
  | openList
  | closeList
  | openObject
  | closeObject
  | comma
  | colon
  | string (text : String)
  | number
  | bool (value : Bool)
  | null
  /-- A string that cannot be read. -/
  | brokenString (why : Refusal)
  /-- Anything else that cannot be read. -/
  | broken (why : Refusal)
deriving DecidableEq, Repr

namespace Symbol

def isBroken : Symbol → Bool
  | brokenString _ | broken _ => true
  | _ => false

/-- The refusal of a symbol where a value of another type is expected. A list or
an object is refused at its bracket, any other value once it is read. -/
def refusal : Symbol → Refusal
  | brokenString why | broken why => why
  | closeList | closeObject | comma | colon => .malformed
  | openList | openObject | string _ | number | bool _ | null => .misfit

end Symbol

def hexValue? (c : Char) : Option Nat :=
  if '0' ≤ c && c ≤ '9' then some (c.toNat - '0'.toNat)
  else if 'a' ≤ c && c ≤ 'f' then some (c.toNat - 'a'.toNat + 10)
  else if 'A' ≤ c && c ≤ 'F' then some (c.toNat - 'A'.toNat + 10)
  else none

/-- The 16-bit unit that four hexadecimal digits stand for. The text ends too
early if less than four bytes are left of it. -/
def unit (cs : List Char) : Except Refusal Nat :=
  if (String.ofList cs).utf8ByteSize < 4 then .error .early
  else
    match (cs.take 4).mapM hexValue? with
    | some [a, b, c, d] => .ok (((a * 16 + b) * 16 + c) * 16 + d)
    | _ => .error .malformed

def isHighSurrogate (u : Nat) : Bool := 0xD800 ≤ u && u ≤ 0xDBFF

def isLowSurrogate (u : Nat) : Bool := 0xDC00 ≤ u && u ≤ 0xDFFF

/-- The second half of a surrogate pair, after the first half. -/
def secondUnit : List Char → Except Refusal Nat
  | '\\' :: 'u' :: cs => do
    let low ← unit cs
    if isLowSurrogate low then .ok low else .error .malformed
  | ['\\'] => .error .early
  | cs => .error (.lacking cs)

/-- The character of a numeric escape after its letter, and the number of
characters it takes. -/
def numericEscape (cs : List Char) : Except Refusal (Char × Nat) := do
  let high ← unit cs
  if isLowSurrogate high then .error .malformed
  else if isHighSurrogate high then
    let low ← secondUnit (cs.drop 4)
    return (Char.ofNat (0x10000 + (high - 0xD800) * 0x400 + (low - 0xDC00)), 10)
  else return (Char.ofNat high, 4)

/-- The character that a letter after a backslash stands for. -/
def shortEscape? (c : Char) : Option Char :=
  match c with
  | '"' => some '"'
  | '\\' => some '\\'
  | '/' => some '/'
  | 'b' => some '\x08'
  | 'f' => some '\x0c'
  | 'n' => some '\n'
  | 'r' => some '\r'
  | 't' => some '\t'
  | _ => none

/-- The character of an escape after its backslash, and the number of characters
it takes. -/
def escape : List Char → Except Refusal (Char × Nat)
  | [] => .error .early
  | c :: cs =>
    match shortEscape? c with
    | some d => .ok (d, 1)
    | none =>
      if c == 'u' then do
        let (d, n) ← numericEscape cs
        return (d, n + 1)
      else .error .malformed

/-- The content of a string after its opening quote, and the number of
characters up to and with the closing one. What is decoded already is held in
reverse. -/
def content (decoded : List Char) (passed : Nat) (cs : List Char) :
    Except Refusal (String × Nat) :=
  match cs with
  | [] => .error .early
  | c :: rest =>
    if c == '"' then .ok (String.ofList decoded.reverse, passed + 1)
    else if c == '\\' then
      match escape rest with
      | .error why => .error why
      | .ok (d, n) => content (d :: decoded) (passed + 1 + n) (rest.drop n)
    else if c.toNat < 32 then .error .malformed
    else content (c :: decoded) (passed + 1) rest
termination_by cs.length
decreasing_by all_goals simp only [List.length_drop, List.length_cons]; omega

/-- A word after its first letter, of which each further one must be there. -/
def word (s : Symbol) (letters cs : List Char) : Symbol :=
  match letters, cs with
  | [], _ => s
  | _ :: _, [] => .broken .early
  | l :: ls, c :: rest => if l == c then word s ls rest else .broken .malformed

/-- The symbol that starts with the character `c`, and the number of its further
characters. -/
def symbol (c : Char) (cs : List Char) : Symbol × Nat :=
  match c with
  | '[' => (.openList, 0)
  | ']' => (.closeList, 0)
  | '\x7b' => (.openObject, 0)
  | '\x7d' => (.closeObject, 0)
  | ',' => (.comma, 0)
  | ':' => (.colon, 0)
  | 't' => (word (.bool true) ['r', 'u', 'e'] cs, 3)
  | 'f' => (word (.bool false) ['a', 'l', 's', 'e'] cs, 4)
  | 'n' => (word .null ['u', 'l', 'l'] cs, 3)
  | '"' =>
    match content [] 0 cs with
    | .ok (text, n) => (.string text, n)
    | .error why => (.brokenString why, 0)
  | c =>
    if c == '-' || c.isDigit then
      match numberLength (c :: cs) with
      | .ok n => (.number, n - 1)
      | .error why => (.broken why, 0)
    else (.broken .malformed, 0)

/-- The symbols of a text, up to the first that is broken. -/
def symbols (cs : List Char) : List Symbol :=
  match cs with
  | [] => []
  | c :: rest =>
    if Text.isBlank c then symbols rest
    else
      let (s, n) := symbol c rest
      if s.isBroken then [s] else s :: symbols (rest.drop n)
termination_by cs.length
decreasing_by all_goals simp only [List.length_drop, List.length_cons]; omega

end Redeclaration.Json
