import Redeclaration.Text.Utf8

/-!
Paths as texts. A slash separates the components of a path. A point alone is a
component only at the start of a relative path; elsewhere it is passed over,
like an empty component.

Only what is reported of a path is defined for paths of any bytes, which are taken
apart like the text whose characters stand for these bytes. Elsewhere a path is a
text, so that names whose bytes are not UTF-8 are left out.
-/

namespace Redeclaration.Path

inductive Component where
  | root
  | current
  | parent
  | name (text : List Char)
deriving DecidableEq, Repr

/-- The pieces between the slashes of a text. -/
def pieces : List Char → List (List Char)
  | [] => [[]]
  | c :: cs =>
    if c == '/' then [] :: pieces cs
    else
      match pieces cs with
      | [] => [[c]]
      | p :: ps => (c :: p) :: ps

/-- The component that a piece stands for, unless it is passed over. -/
def component? (piece : List Char) : Option Component :=
  if piece == [] || piece == ['.'] then none
  else if piece == ['.', '.'] then some .parent
  else some (.name piece)

def isAbsolute (cs : List Char) : Bool :=
  cs.head? == some '/'

/-- The component at the start of a path that is not a piece like the others:
the root, or a point. -/
def anchor? (cs : List Char) : Option Component :=
  if isAbsolute cs then some .root
  else if (pieces cs).head? == some ['.'] then some .current
  else none

def components (cs : List Char) : List Component :=
  (anchor? cs).toList ++ (pieces cs).filterMap component?

/-- Drops slashes, and points between slashes, from the start of a text. -/
def trimStart : List Char → List Char
  | '/' :: cs => trimStart cs
  | ['.'] => []
  | '.' :: '/' :: cs => trimStart cs
  | cs => cs

/-- Drops slashes, and points between slashes, from the end of a text. -/
def trimEnd (cs : List Char) : List Char :=
  (trimStart cs.reverse).reverse

/-- The text of a path without slashes and points at its end, which leaves its
anchor alone. -/
def trimmed (cs : List Char) : List Char :=
  let n := (anchor? cs).toList.length
  cs.take n ++ trimEnd (cs.drop n)

/-- The text after the first piece that is not passed over. -/
def dropPiece (cs : List Char) : List Char :=
  (trimStart cs).dropWhile (· != '/')

/-- The text after a number of components, the anchor among them. -/
def dropComponents (n : Nat) (cs : List Char) : List Char :=
  let a := min n (anchor? cs).toList.length
  Nat.repeat dropPiece (n - a) (cs.drop a)

/-- The path below a base whose components it starts with: nothing is left of
the base and of slashes and points at both ends, all else is kept as written. -/
def below? (base cs : List Char) : Option (List Char) :=
  let n := (components base).length
  if (components base).isPrefixOf (components cs) then
    if n == 0 then some (trimmed cs)
    else some (trimEnd (trimStart (dropComponents n cs)))
  else none

/-- The text whose characters stand for single bytes. Whatever the other bytes
mean, slashes and points are bytes of their own, so that a path of bytes has the
components of this text. -/
def ofBytes (path : List UInt8) : String :=
  String.ofList (path.map Char.ofUInt8)

/-- What is reported of a path: the path below its base, or the path itself. -/
def reported (base path : List UInt8) : List UInt8 :=
  match below? (ofBytes base).toList (ofBytes path).toList with
  | some rest => rest.map Char.toUInt8
  | none => path

/-- The path as a report shows it, which is a text: the bytes that belong to no
character give way to the replacement character, and backslashes to slashes. -/
def shownBytes (base path : List UInt8) : String :=
  String.ofList ((Text.decodeLossy (reported base path)).toList.map
    fun c => if c == '\\' then '/' else c)

/-- The path as a report shows it, if the base and the path are texts. -/
def shown (base path : String) : String :=
  shownBytes (Text.bytes base) (Text.bytes path)

/-- The last component, if it is a name. -/
def fileName? (path : String) : Option (List Char) :=
  match (components path.toList).getLast? with
  | some (.name text) => some text
  | _ => none

/-- The path without its last component. The root has no parent. -/
def parent? (path : String) : Option String :=
  let cs := path.toList
  let n := (anchor? cs).toList.length
  let body := trimEnd (cs.drop n)
  let shorter := (body.reverse.dropWhile (· != '/')).reverse
  if !body.isEmpty then some (String.ofList (cs.take n ++ trimEnd shorter))
  else if anchor? cs == some .current then some ""
  else none

/-- A path taken from a directory, or the path alone if it is absolute. -/
def join (directory path : String) : String :=
  if isAbsolute path.toList then path
  else if directory == "" || directory.toList.getLast? == some '/' then directory ++ path
  else directory ++ "/" ++ path

/-- An extension with its point. -/
def dotted (extension : String) : String :=
  if extension.toList.head? == some '.' then extension else "." ++ extension

/-- Whether the file name of a path ends with one of the extensions. -/
def hasExtension (extensions : List String) (path : String) : Bool :=
  match fileName? path with
  | none => false
  | some name => extensions.any fun e => e.toList.isSuffixOf name

end Redeclaration.Path
