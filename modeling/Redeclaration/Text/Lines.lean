/-!
Lines and blanks of a text. A line ends with a line feed, with a carriage
return, or with a carriage return and a line feed, which together count once.
-/

namespace Redeclaration.Text

/-- Whether a line ends with the character `c` when `cs` follows it. -/
def endsLine (c : Char) (cs : List Char) : Bool :=
  c == '\n' || (c == '\r' && cs.head? != some '\n')

/-- The line reached after a text that starts on `line`. -/
def lineAfter (line : Nat) : List Char → Nat
  | [] => line
  | c :: cs => lineAfter (if endsLine c cs then line + 1 else line) cs

/-- Space, tab, line feed and carriage return. -/
def isBlank (c : Char) : Bool :=
  c == ' ' || c == '\t' || c == '\n' || c == '\r'

/-- The blanks that stay on the line. -/
def isIndent (c : Char) : Bool :=
  c == ' ' || c == '\t'

/-- The blanks and the form feed. -/
def isAsciiSpace (c : Char) : Bool :=
  isBlank c || c == '\x0c'

/-- The length of the break at the start of a text: two for a carriage return
and a line feed, one for a character with `alone`. -/
def breakLength (alone : Char → Bool) : List Char → Nat
  | [] => 0
  | c :: cs =>
    if c == '\r' && cs.head? == some '\n' then 2
    else if alone c then 1
    else 0

end Redeclaration.Text
