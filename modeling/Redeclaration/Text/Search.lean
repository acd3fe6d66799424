/-!
Searching a text. A position is the suffix that starts there, so that a test on
a position sees everything that follows it. The loops carry the number of
characters passed and use no stack.
-/

namespace Redeclaration.Text

/-- The position of the first suffix with `p`, counted from `passed`. -/
def findSuffixFrom? (p : List Char → Bool) (passed : Nat) : List Char → Option Nat
  | [] => if p [] then some passed else none
  | c :: cs =>
    if p (c :: cs) then some passed else findSuffixFrom? p (passed + 1) cs

/-- The number of characters before the first suffix with `p`. -/
def findSuffix? (p : List Char → Bool) (cs : List Char) : Option Nat :=
  findSuffixFrom? p 0 cs

/-- The number of leading characters with `p`. -/
def runLength (p : Char → Bool) (cs : List Char) : Nat :=
  (cs.takeWhile p).length

/-- Whether `pattern` occurs in a text, the empty pattern at its end at the
latest. -/
def occursIn (pattern cs : List Char) : Bool :=
  (findSuffix? pattern.isPrefixOf cs).isSome

/-- The texts agree up to the case of ASCII letters. -/
def sameWord (a b : List Char) : Bool :=
  a.map Char.toLower == b.map Char.toLower

end Redeclaration.Text
