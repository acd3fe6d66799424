import Redeclaration.FileTree
import Redeclaration.Path

/-!
From the text of a path to a place in the tree. Links are followed on the way,
forty of them at most. Everything but the last piece of a path must be a
directory, and so must what a slash or a point follows.
-/

namespace Redeclaration

/-- Why a path leads nowhere, or not to a file. -/
inductive AccessError where
  | missing
  | notDirectory
  | isDirectory
  | tooManyLinks
  | nulInName
deriving DecidableEq, Repr

def AccessError.message : AccessError → String
  | missing => "No such file or directory (os error 2)"
  | notDirectory => "Not a directory (os error 20)"
  | isDirectory => "Is a directory (os error 21)"
  | tooManyLinks => "Too many levels of symbolic links (os error 40)"
  | nulInName => "file name contained an unexpected NUL byte"

namespace FileTree

/-- How the last name of a path is treated. -/
inductive Purpose where
  /-- It must exist, and a link is followed. -/
  | follow
  /-- It must exist, and a link is left alone. -/
  | inspect
  /-- It may be missing, and a link is followed. -/
  | create
deriving DecidableEq, Repr

def linkLimit : Nat := 40

/-- The pieces of a path as texts. -/
def steps (path : String) : List String :=
  (Path.pieces path.toList).map String.ofList

/-- The place that pending pieces lead to from a place, while so many links may
be followed. -/
def resolve (t : FileTree) (purpose : Purpose) (links : Nat) (place : List String)
    (pending : List String) : Except AccessError (List String) :=
  match pending with
  | [] => .ok place
  | piece :: rest =>
    match t.at? place with
    | some (.directory entries) =>
      if piece == "" || piece == "." then resolve t purpose links place rest
      else if piece == ".." then resolve t purpose links place.dropLast rest
      else
        match entries.lookup piece with
        | none =>
          if rest.isEmpty && purpose == .create then .ok (place ++ [piece])
          else .error .missing
        | some (.link target) =>
          if rest.isEmpty && purpose == .inspect then .ok (place ++ [piece])
          else
            match links with
            | 0 => .error .tooManyLinks
            | links + 1 =>
              if target == "" then .error .missing
              else
                let start := if Path.isAbsolute target.toList then [] else place
                resolve t purpose links start (steps target ++ rest)
        | some _ => resolve t purpose links (place ++ [piece]) rest
    | _ => .error .notDirectory
termination_by (links, pending.length)

/-- The text of a place: its names, each after a slash. -/
def placeText (place : List String) : String :=
  if place.isEmpty then "/" else place.foldl (fun text name => text ++ "/" ++ name) ""

end FileTree

/-- A tree as it is seen from one of its directories, at which paths start
unless they are absolute. -/
structure Disk where
  tree : FileTree
  directory : List String

namespace Disk

/-- The place of a path. -/
def locate (d : Disk) (purpose : FileTree.Purpose) (path : String) :
    Except AccessError (List String) :=
  if path == "" then .error .missing
  else if '\x00' ∈ path.toList then .error .nulInName
  else
    let start := if Path.isAbsolute path.toList then [] else d.directory
    d.tree.resolve purpose FileTree.linkLimit start (FileTree.steps path)

/-- The file or directory that a path leads to. -/
def find? (d : Disk) (path : String) : Option Node :=
  match d.locate .follow path with
  | .ok place => d.tree.at? place
  | .error _ => none

def isFile (d : Disk) (path : String) : Bool :=
  match d.find? path with
  | some (.file _) => true
  | _ => false

def isDirectory (d : Disk) (path : String) : Bool :=
  match d.find? path with
  | some (.directory _) => true
  | _ => false

/-- The content of the file that a path leads to. -/
def read (d : Disk) (path : String) : Except AccessError (List UInt8) := do
  let place ← d.locate .follow path
  match d.tree.at? place with
  | some (.file bytes) => .ok bytes
  | some (.directory _) => .error .isDirectory
  | _ => .error .missing

/-- The path without links, points and superfluous slashes. -/
def canonical (d : Disk) (path : String) : Except AccessError String := do
  let place ← d.locate .follow path
  return FileTree.placeText place

end Disk

end Redeclaration
