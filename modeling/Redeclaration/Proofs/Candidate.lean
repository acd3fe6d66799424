import Redeclaration.Candidate
import Redeclaration.Proofs.FileTree

/-!
What a walk meets. A walk from a directory goes through all directories below it,
so that it meets whatever a walk from one of these would meet, under the same
paths.
-/

namespace Redeclaration

namespace Node

theorem mem_leavesIn_of_lookup (entries : List (String × Node)) (name : String) (m : Node)
    (leaf : List String) (hm : entries.lookup name = some m) (hleaf : leaf ∈ m.leaves) :
    name :: leaf ∈ leavesIn entries := by
  induction entries with
  | nil => cases hm
  | cons entry entries ih =>
    obtain ⟨other, n⟩ := entry
    rw [leavesIn, List.mem_append]
    rw [List.lookup_cons] at hm
    split at hm
    · rename_i heq
      cases hm
      left
      rw [← beq_iff_eq.1 heq]
      exact List.mem_map_of_mem hleaf
    · exact .inr (ih hm)

/-- A walk meets what a walk from further down meets. -/
theorem append_mem_leaves (n m : Node) (names leaf : List String) (hm : n.at? names = some m)
    (hleaf : leaf ∈ m.leaves) : names ++ leaf ∈ n.leaves := by
  induction names generalizing n with
  | nil =>
    cases hm
    exact hleaf
  | cons name names ih =>
    obtain ⟨entries, k, rfl, hlookup, hk⟩ := at?_cons_eq_some n m name names hm
    exact mem_leavesIn_of_lookup entries name k _ hlookup (ih k hk)

end Node

namespace Candidate

/-- A path leads below another one, or to the same place: it goes on with names
of the tree, none of which is a link. -/
def Beneath (d : Disk) (inner outer : String) : Prop :=
  ∃ place names, d.locate .follow outer = .ok place ∧
    d.locate .follow inner = .ok (place ++ names) ∧ inner = pathBelow outer names

theorem pathBelow_append (root : String) (a b : List String) :
    pathBelow root (a ++ b) = pathBelow (pathBelow root a) b :=
  List.foldl_append

theorem ofRoot_of_nowhere (d : Disk) (extensions : List String) (root : String)
    (place : List String) (hplace : d.locate .follow root = .ok place)
    (hnone : d.tree.at? place = none) : ofRoot d extensions root = [] := by
  simp [ofRoot, Disk.isFile, Disk.find?, hplace, hnone]

/-- A file is the only leaf of its own walk, so that it needs no case of its own. -/
theorem ofRoot_eq_below (d : Disk) (extensions : List String) (root : String)
    (place : List String) (n : Node) (hplace : d.locate .follow root = .ok place)
    (hn : d.tree.at? place = some n) :
    ofRoot d extensions root = (below d extensions root n).map .ok := by
  cases n with
  | file bytes =>
    have hfile : d.isFile root = true := by
      simp [Disk.isFile, Disk.find?, hplace, hn]
    have htaken : isTaken d root = true := by
      simp [isTaken, Disk.isDirectory, Disk.find?, hplace, hn]
    have hself : pathBelow root [] = root := rfl
    rw [ofRoot, if_pos hfile]
    by_cases hext : Path.hasExtension extensions root = true
    · simp [below, Node.leaves, hself, htaken, hext]
    · simp [below, Node.leaves, hself, hext]
  | link target => simp [ofRoot, Disk.isFile, Disk.find?, hplace, hn]
  | directory entries => simp [ofRoot, Disk.isFile, Disk.find?, hplace, hn]

/-- The candidates of a path that leads below another one are among the
candidates of that one. -/
theorem ofRoot_subset_of_beneath (d : Disk) (extensions : List String) (inner outer : String)
    (h : Beneath d inner outer) : ofRoot d extensions inner ⊆ ofRoot d extensions outer := by
  obtain ⟨place, names, houter, hinner, hpath⟩ := h
  cases hm : d.tree.at? (place ++ names) with
  | none =>
    rw [ofRoot_of_nowhere d extensions inner _ hinner hm]
    exact List.nil_subset _
  | some m =>
    -- The node below is reached by way of the node above.
    obtain ⟨n, hn, hnames⟩ : ∃ n, d.tree.at? place = some n ∧ n.at? names = some m := by
      rw [FileTree.at?, Node.at?_append] at hm
      exact Option.bind_eq_some_iff.1 hm
    rw [ofRoot_eq_below d extensions inner _ m hinner hm,
      ofRoot_eq_below d extensions outer _ n houter hn]
    apply List.map_subset
    intro path hp
    obtain ⟨hleaf, hkept⟩ := List.mem_filter.1 hp
    obtain ⟨leaf, hmem, rfl⟩ := List.mem_map.1 hleaf
    refine List.mem_filter.2 ⟨List.mem_map.2 ⟨names ++ leaf, ?_, ?_⟩, hkept⟩
    · exact Node.append_mem_leaves n m names leaf hnames hmem
    · rw [pathBelow_append, ← hpath]

end Candidate

end Redeclaration
