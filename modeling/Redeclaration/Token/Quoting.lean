import Redeclaration.Token.Word

/-!
String literals: how they open, where they end, and where an interpolation
interrupts them. A heredoc or nowdoc ends with its label, indented at will, at
the start of a line; the first line after the opening counts.
-/

namespace Redeclaration

open Text

/-- What ends a string that may hold interpolations. -/
inductive Closing where
  | quote (mark : Char)
  | heredoc (label : List Char)
deriving DecidableEq, Repr

/-- How a string goes on after its opening. -/
inductive Quoting where
  /-- Up to the next apostrophe, without interpolations. -/
  | single
  /-- Up to the label, without interpolations. -/
  | nowdoc (label : List Char)
  | interpolated (closing : Closing)
deriving DecidableEq, Repr

/-- The opening of a string: its length and how the string goes on. -/
structure Opening where
  length : Nat
  quoting : Quoting
deriving DecidableEq, Repr

/-- The opening line of a heredoc or nowdoc: three angle brackets, blanks, the
label, bare or in quotes, and a line break. Apostrophes make it a nowdoc. -/
def labelOpening? (cs : List Char) : Option Opening :=
  let arrows := ['<', '<', '<']
  let body := cs.drop 3
  let indent := runLength isIndent body
  let quoted := body.drop indent
  let mark := quoted.head?.filter fun c => c == '"' || c == '\''
  let marks := mark.toList
  let label := (quoted.drop marks.length).takeWhile isLabelChar
  let tail := quoted.drop (marks.length + label.length)
  let eol := breakLength (fun c => c == '\n' || c == '\r') (tail.drop marks.length)
  if arrows.isPrefixOf cs && startsLabel label && marks.isPrefixOf tail && eol != 0 then
    some
      { length := 3 + indent + 2 * marks.length + label.length + eol
        quoting := if mark == some '\'' then .nowdoc label else .interpolated (.heredoc label) }
  else none

/-- The opening of a string without the letter that may stand before it. -/
def plainOpening? : List Char → Option Opening
  | [] => none
  | c :: cs =>
    if c == '\'' then some ⟨1, .single⟩
    else if c == '"' then some ⟨1, .interpolated (.quote c)⟩
    else labelOpening? (c :: cs)

/-- The opening of a string. All but the backtick may have the letter b before
them. -/
def opening? : List Char → Option Opening
  | [] => none
  | c :: cs =>
    if c == 'b' || c == 'B' then
      (plainOpening? cs).map fun o => { o with length := o.length + 1 }
    else if c == '\x60' then some ⟨1, .interpolated (.quote c)⟩
    else plainOpening? (c :: cs)

/-- Counts from `passed` up to and with the apostrophe that ends a string. A
backslash takes the next character with it. -/
def singleEnd? (passed : Nat) : List Char → Option Nat
  | [] => none
  | c :: cs =>
    if c == '\'' then some (passed + 1)
    else if c == '\\' then
      match cs with
      | [] => none
      | _ :: rest => singleEnd? (passed + 2) rest
    else singleEnd? (passed + 1) cs

/-- The length of the line start that closes a heredoc or nowdoc: blanks and the
label, which no further label character may follow. -/
def markerLength? (label cs : List Char) : Option Nat :=
  let indent := runLength isIndent cs
  let rest := cs.drop indent
  if label.isPrefixOf rest && !(rest.drop label.length).head?.any isLabelChar then
    some (indent + label.length)
  else none

/-- Counts from `passed` up to and with the marker that closes a nowdoc. A
marker is looked for wherever a line starts. -/
def nowdocEnd? (label : List Char) (lineStart : Bool) (passed : Nat) (cs : List Char) :
    Option Nat :=
  match (if lineStart then markerLength? label cs else none), cs with
  | some n, _ => some (passed + n)
  | none, [] => none
  | none, c :: rest => nowdocEnd? label (endsLine c rest) (passed + 1) rest

/-- Where a fragment of an interpolating string stops. -/
inductive FragmentEnd where
  /-- After that many characters the string has ended. -/
  | closed (length : Nat)
  /-- After that many characters an interpolation starts. -/
  | interrupted (length : Nat)
  /-- The text ends before the string. -/
  | missing
deriving DecidableEq, Repr

/-- Whether an interpolation starts here. -/
def startsInterpolation (cs : List Char) : Bool :=
  ['{', '$'].isPrefixOf cs || ['$', '{'].isPrefixOf cs

/-- The length of the closing at the start of a text. -/
def Closing.length? (closing : Closing) (lineStart : Bool) (cs : List Char) : Option Nat :=
  match closing with
  | .quote mark => if cs.head? == some mark then some 1 else none
  | .heredoc label => if lineStart then markerLength? label cs else none

/-- Follows a fragment from `passed` characters on. A backslash takes the next
character with it, unless that ends a line. -/
def fragmentEnd (closing : Closing) (lineStart : Bool) (passed : Nat) (cs : List Char) :
    FragmentEnd :=
  match closing.length? lineStart cs, cs with
  | some n, _ => .closed (passed + n)
  | none, [] => .missing
  | none, c :: rest =>
    if startsInterpolation (c :: rest) then .interrupted passed
    else if c == '\\' then
      match rest with
      | d :: more =>
        if d == '\n' || d == '\r' then fragmentEnd closing false (passed + 1) (d :: more)
        else fragmentEnd closing false (passed + 2) more
      | [] => .missing
    else fragmentEnd closing (endsLine c rest) (passed + 1) rest
termination_by cs.length

end Redeclaration
