/-!
Files, links and directories as a value. The entries of a directory stand in the
order of their names, so that a walk meets them in order, and no two of them
have the same name. Names and the targets of links are texts: a tree has no name
whose bytes are not UTF-8.
-/

namespace Redeclaration

inductive Node where
  | file (bytes : List UInt8)
  /-- A symbolic link with the path that it leads to. -/
  | link (target : String)
  | directory (entries : List (String × Node))
deriving Repr

namespace Node

/-- The entry of a directory with this name. -/
def child? (name : String) : Node → Option Node
  | .directory entries => entries.lookup name
  | _ => none

/-- The node that is reached by a list of names. No link is followed. -/
def at? (n : Node) : List String → Option Node
  | [] => some n
  | name :: names =>
    match n.child? name with
    | none => none
    | some m => m.at? names

/-- All entries stand in the order of their names, also further down. -/
inductive Ordered : Node → Prop
  | file (bytes : List UInt8) : Ordered (.file bytes)
  | link (target : String) : Ordered (.link target)
  | directory {entries : List (String × Node)}
      (names : entries.Pairwise fun a b => a.1 < b.1)
      (children : ∀ e ∈ entries, Ordered e.2) : Ordered (.directory entries)

mutual

/-- The names that lead to each file and link, in the order of a walk that
enters directories on its way. -/
def leaves : Node → List (List String)
  | .file _ => [[]]
  | .link _ => [[]]
  | .directory entries => leavesIn entries

/-- The names that lead to each file and link below the entries. -/
def leavesIn : List (String × Node) → List (List String)
  | [] => []
  | (name, n) :: rest => n.leaves.map (name :: ·) ++ leavesIn rest

end

end Node

/-- A tree of files below its root directory. -/
structure FileTree where
  entries : List (String × Node)
  ordered : (Node.directory entries).Ordered

namespace FileTree

def root (t : FileTree) : Node :=
  .directory t.entries

/-- The tree without entries. -/
def empty : FileTree where
  entries := []
  ordered := .directory .nil (by simp)

/-- The node at a list of names from the root. -/
def at? (t : FileTree) (place : List String) : Option Node :=
  t.root.at? place

end FileTree

end Redeclaration
