import Redeclaration.Text.Lines
import Redeclaration.Text.Search

/-!
The tags that separate code from the text around it.
-/

namespace Redeclaration

open Text

/-- Whether the short opening tag starts here, which echoes what follows. -/
def startsEchoTag (cs : List Char) : Bool :=
  ['<', '?', '='].isPrefixOf cs

/-- Whether the long opening tag starts here: its letters in any case, and after
them a blank, a form feed or the end of the file. -/
def startsLongTag (cs : List Char) : Bool :=
  ['<', '?'].isPrefixOf cs && sameWord ((cs.drop 2).take 3) ['p', 'h', 'p']
    && (cs.drop 5).head?.all isAsciiSpace

def startsOpenTag (cs : List Char) : Bool :=
  startsEchoTag cs || startsLongTag cs

/-- The length of the opening tag that starts here. One blank or line break
belongs to the long tag. -/
def openTagLength (cs : List Char) : Nat :=
  if startsEchoTag cs then 3 else 5 + breakLength isBlank (cs.drop 5)

def startsCloseTag (cs : List Char) : Bool :=
  ['?', '>'].isPrefixOf cs

/-- The length of the closing tag that starts here. One line break belongs to
it, unless it is a carriage return alone. -/
def closeTagLength (cs : List Char) : Nat :=
  2 + breakLength (· == '\n') (cs.drop 2)

/-- The length of the text up to the next opening tag or the end. -/
def htmlLength (cs : List Char) : Nat :=
  (findSuffix? startsOpenTag cs).getD cs.length

end Redeclaration
