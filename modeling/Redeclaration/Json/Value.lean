/-!
JSON values and how they are written: two spaces of indentation for each level,
one item or member on a line, and nothing between the brackets of an empty list
or object.
-/

namespace Redeclaration.Json

inductive Value where
  | text (value : String)
  | number (value : Nat)
  | list (items : List Value)
  | object (members : List (String × Value))
deriving Repr

/-- A hexadecimal digit in lower case. -/
def hexDigit (n : Nat) : Char :=
  if n < 10 then Char.ofNat ('0'.toNat + n) else Char.ofNat ('a'.toNat + (n - 10))

/-- How a character is written inside of quotes. Control characters without a
letter of their own are written by number, and all others as they are. -/
def escaped (c : Char) : List Char :=
  match c with
  | '"' => ['\\', '"']
  | '\\' => ['\\', '\\']
  | '\x08' => ['\\', 'b']
  | '\x0c' => ['\\', 'f']
  | '\n' => ['\\', 'n']
  | '\r' => ['\\', 'r']
  | '\t' => ['\\', 't']
  | c =>
    if c.toNat < 32 then
      ['\\', 'u', '0', '0', hexDigit (c.toNat / 16), hexDigit (c.toNat % 16)]
    else [c]

def quoted (s : String) : String :=
  "\"" ++ String.ofList (s.toList.flatMap escaped) ++ "\""

def indentation (level : Nat) : String :=
  String.ofList (List.replicate (2 * level) ' ')

/-- The written lines between brackets, or the brackets alone. -/
def block (opening closing : String) (level : Nat) (lines : List String) : String :=
  if lines.isEmpty then opening ++ closing
  else
    opening ++ "\n"
      ++ String.intercalate ",\n" (lines.map fun l => indentation (level + 1) ++ l)
      ++ "\n" ++ indentation level ++ closing

mutual

/-- The text of a value that stands at a level of indentation. -/
def Value.write (level : Nat) : Value → String
  | .text value => quoted value
  | .number value => toString value
  | .list items => block "[" "]" level (writeItems (level + 1) items)
  | .object members => block "\x7b" "\x7d" level (writeMembers (level + 1) members)

def writeItems (level : Nat) : List Value → List String
  | [] => []
  | v :: vs => v.write level :: writeItems level vs

def writeMembers (level : Nat) : List (String × Value) → List String
  | [] => []
  | (key, v) :: rest => (quoted key ++ ": " ++ v.write level) :: writeMembers level rest

end

end Redeclaration.Json
