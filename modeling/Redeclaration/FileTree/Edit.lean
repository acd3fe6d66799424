import Redeclaration.FileTree.Lookup

/-!
Changes of a tree. Each of them keeps the entries in order.
-/

namespace Redeclaration

namespace Node

/-- Gives the entry with this name a new node, at its place in the order. -/
def setEntry (name : String) (n : Node) : List (String × Node) → List (String × Node)
  | [] => [(name, n)]
  | e :: rest =>
    if name = e.1 then (name, n) :: rest
    else if name < e.1 then (name, n) :: e :: rest
    else e :: setEntry name n rest

theorem mem_setEntry {name : String} {n : Node} {entries : List (String × Node)}
    {e : String × Node} (he : e ∈ setEntry name n entries) :
    e = (name, n) ∨ e ∈ entries := by
  induction entries with
  | nil => simpa only [setEntry, List.mem_cons] using he
  | cons d rest ih =>
    unfold setEntry at he
    by_cases hd : name = d.1
    · rw [if_pos hd, List.mem_cons] at he
      exact he.imp_right (List.mem_cons_of_mem _)
    · rw [if_neg hd] at he
      by_cases hlt : name < d.1
      · rw [if_pos hlt, List.mem_cons] at he
        exact he
      · rw [if_neg hlt, List.mem_cons] at he
        rcases he with he | he
        · exact .inr (he ▸ List.mem_cons_self)
        · exact (ih he).imp_right (List.mem_cons_of_mem _)

/-- A new node keeps the entries in order. -/
theorem pairwise_setEntry (name : String) (n : Node) {entries : List (String × Node)}
    (h : entries.Pairwise fun a b => a.1 < b.1) :
    (setEntry name n entries).Pairwise fun a b => a.1 < b.1 := by
  induction entries with
  | nil => simp [setEntry]
  | cons d rest ih =>
    have hc := List.pairwise_cons.1 h
    unfold setEntry
    by_cases hd : name = d.1
    · rw [if_pos hd]
      exact List.pairwise_cons.2 ⟨fun e he => hd ▸ hc.1 e he, hc.2⟩
    · rw [if_neg hd]
      by_cases hlt : name < d.1
      · rw [if_pos hlt]
        refine List.pairwise_cons.2 ⟨?_, h⟩
        intro e he
        rcases List.mem_cons.1 he with he | he
        · exact he ▸ hlt
        · exact String.lt_trans hlt (hc.1 e he)
      · rw [if_neg hlt]
        refine List.pairwise_cons.2 ⟨?_, ih hc.2⟩
        intro e he
        rcases mem_setEntry he with he | he
        · have hgt : d.1 < name := by
            rcases Std.lt_trichotomy d.1 name with h | h | h
            · exact h
            · exact absurd h.symm hd
            · exact absurd h hlt
          exact he ▸ hgt
        · exact hc.1 e he

theorem Ordered.entries {entries : List (String × Node)}
    (h : (Node.directory entries).Ordered) : entries.Pairwise fun a b => a.1 < b.1 := by
  cases h with
  | directory names _ => exact names

theorem Ordered.children {entries : List (String × Node)}
    (h : (Node.directory entries).Ordered) : ∀ e ∈ entries, e.2.Ordered := by
  cases h with
  | directory _ children => exact children

/-- The entry with this name, or an empty directory. -/
def childOrNew (name : String) (entries : List (String × Node)) : Node :=
  (entries.lookup name).getD (.directory [])

theorem mem_of_lookup_eq_some {name : String} {n : Node} {entries : List (String × Node)}
    (h : entries.lookup name = some n) : ∃ e ∈ entries, e.2 = n := by
  induction entries with
  | nil => cases h
  | cons d rest ih =>
    rw [List.lookup_cons] at h
    split at h
    · exact ⟨d, List.mem_cons_self, Option.some.inj h⟩
    · obtain ⟨e, he, hn⟩ := ih h
      exact ⟨e, List.mem_cons_of_mem _ he, hn⟩

theorem ordered_childOrNew {name : String} {entries : List (String × Node)}
    (h : ∀ e ∈ entries, e.2.Ordered) : (childOrNew name entries).Ordered := by
  unfold childOrNew
  cases hl : entries.lookup name with
  | none => exact .directory .nil (by simp)
  | some n =>
    obtain ⟨e, he, hn⟩ := mem_of_lookup_eq_some hl
    exact hn ▸ h e he

/-- Puts a node at a list of names below a directory. Directories on the way are
made where they are missing. -/
def put (n : Node) : List String → Node → Node
  | [], _ => n
  | name :: names, .directory entries =>
    .directory (setEntry name (put n names (childOrNew name entries)) entries)
  | _ :: _, m => m

theorem ordered_put {n : Node} (hn : n.Ordered) (names : List String) {m : Node}
    (hm : m.Ordered) : (put n names m).Ordered := by
  induction names generalizing m with
  | nil => exact hn
  | cons name names ih =>
    cases m with
    | file bytes => exact hm
    | link target => exact hm
    | directory entries =>
      refine .directory (pairwise_setEntry _ _ hm.entries) fun e he => ?_
      rcases mem_setEntry he with he | he
      · exact he ▸ ih (ordered_childOrNew hm.children)
      · exact hm.children e he

/-- Removes the node at a list of names below a directory. -/
def erase : List String → Node → Node
  | [name], .directory entries => .directory (entries.filter fun e => e.1 != name)
  | name :: next :: names, .directory entries =>
    match entries.lookup name with
    | none => .directory entries
    | some m => .directory (setEntry name (erase (next :: names) m) entries)
  | _, m => m

theorem ordered_erase (names : List String) {m : Node} (hm : m.Ordered) :
    (erase names m).Ordered := by
  fun_induction erase names m with
  | case1 name entries =>
    exact .directory (hm.entries.filter _) fun e he =>
      hm.children e (List.mem_filter.1 he).1
  | case2 => exact hm
  | case3 name next names entries m hl ih =>
    obtain ⟨e, he, hn⟩ := mem_of_lookup_eq_some hl
    refine .directory (pairwise_setEntry _ _ hm.entries) fun d hd => ?_
    rcases mem_setEntry hd with hd | hd
    · exact hd ▸ ih (hn ▸ hm.children e he)
    · exact hm.children d hd
  | case4 => exact hm

end Node

namespace FileTree

/-- The tree with this root, if it is a directory. -/
def ofRoot? (root : Node) (h : root.Ordered) : Option FileTree :=
  match root, h with
  | .directory entries, h => some ⟨entries, h⟩
  | _, _ => none

/-- Puts an ordered node at a place. -/
def put? (t : FileTree) (place : List String) (n : Node) (h : n.Ordered) : Option FileTree :=
  ofRoot? (Node.put n place t.root) (Node.ordered_put h place t.ordered)

/-- Removes the node at a place. -/
def erase? (t : FileTree) (place : List String) : Option FileTree :=
  ofRoot? (Node.erase place t.root) (Node.ordered_erase place t.ordered)

/-- Follows pieces from a place, and makes the directories that are missing. -/
def enter? (t : FileTree) (place : List String) :
    List String → Option (FileTree × List String)
  | [] => some (t, place)
  | piece :: rest =>
    match t.resolve .create linkLimit place [piece] with
    | .error _ => none
    | .ok next =>
      match t.at? next with
      | some (.directory _) => t.enter? next rest
      | some _ => none
      | none =>
        match t.put? next (.directory []) (.directory .nil (by simp)) with
        | none => none
        | some made => made.enter? next rest

/-- What can be written at a path. -/
inductive Item where
  | file (bytes : List UInt8)
  | link (target : String)
  | directory
deriving DecidableEq, Repr

/-- Writes an item into the directory at a place. A file takes the place of a
file, and through a link that of its target; a directory may exist already. -/
def writeAt? (t : FileTree) (place : List String) (name : String) : Item → Option FileTree
  | .directory => (t.enter? place [name]).map (·.1)
  | .link target =>
    match t.resolve .inspect linkLimit place [name] with
    | .ok _ => none
    | .error _ => t.put? (place ++ [name]) (.link target) (.link target)
  | .file bytes =>
    match t.resolve .create linkLimit place [name] with
    | .error _ => none
    | .ok target =>
      if t.at? target matches some (.directory _) then none
      else t.put? target (.file bytes) (.file bytes)

/-- Writes an item at a path below a place, and makes the directories that are
missing on the way. -/
def write? (t : FileTree) (place : List String) (path : String) (i : Item) :
    Option FileTree :=
  let pieces := (steps path).filter fun p => p != "" && p != "."
  match pieces.getLast? with
  | none => if i == .directory then some t else none
  | some name => do
    let (made, parent) ← t.enter? place pieces.dropLast
    made.writeAt? parent name i

/-- Removes what stands at a path below a place, a link itself and a directory
with all that it holds. -/
def remove? (t : FileTree) (place : List String) (path : String) : Option FileTree :=
  match t.resolve .inspect linkLimit place (steps path) with
  | .error _ => none
  | .ok target => t.erase? target

end FileTree

end Redeclaration
