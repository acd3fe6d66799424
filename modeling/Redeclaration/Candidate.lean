import Redeclaration.FileError

/-!
The files that a scan path stands for. A path to a file stands for that file; a
path to a directory for the files below it, in the order of a walk that enters
no links. A link counts as a file unless it leads to a directory, so that a link
to nowhere is noticed when it is read.
-/

namespace Redeclaration

/-- The path of a file, or a path that cannot be listed. -/
abbrev Candidate := Except FileError String

namespace Candidate

/-- The path of the node that is reached by names below a root. -/
def pathBelow (root : String) (names : List String) : String :=
  names.foldl Path.join root

/-- Whether a leaf of the walk is taken up: a file, or a link that leads to no
directory. -/
def isTaken (d : Disk) (path : String) : Bool :=
  !d.isDirectory path

/-- The paths below a directory whose names end with one of the extensions. -/
def below (d : Disk) (extensions : List String) (root : String) (n : Node) : List String :=
  (n.leaves.map (pathBelow root)).filter fun path =>
    isTaken d path && Path.hasExtension extensions path

/-- The candidates of a scan path whose names end with one of the extensions. -/
def ofRoot (d : Disk) (extensions : List String) (root : String) : List Candidate :=
  if d.isFile root then
    if Path.hasExtension extensions root then [.ok root] else []
  else
    match d.locate .follow root with
    | .error why => [.error (.unlistable root why)]
    | .ok place =>
      match d.tree.at? place with
      | some n => (below d extensions root n).map .ok
      | none => []

end Candidate

end Redeclaration
