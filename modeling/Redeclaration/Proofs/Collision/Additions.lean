import Mathlib.Data.Finset.Card
import Mathlib.Data.Finset.Dedup
import Mathlib.Data.Finset.Filter
import Redeclaration.Proofs.Collision

/-!
What is added and what collides. Declarations are added one by one or a file at a
time, and the map of the collisions is asked for names, for groups, for its size and
for its entries in order. Main statement: all answers are read off the declarations
that were added, whatever their order.
-/

namespace Redeclaration

open Text

/-- A declaration of a file is added, or all of them. -/
inductive Addition where
  | one (path : String) (d : Declaration)
  | file (path : String) (ds : List Declaration)
deriving DecidableEq, Repr

namespace Addition

/-- The declarations that are added, each with the path of its file. -/
def declared : Addition → List (String × Declaration)
  | one path d => [(path, d)]
  | file path ds => ds.map fun d => (path, d)

/-- What is noted of them. -/
def sightings : Addition → List Sighting
  | one path d => Sighting.ofFile path [d]
  | file path ds => Sighting.ofFile path ds

end Addition

/-- The map of the collisions after some additions. -/
def collisionsAfter (adds : List Addition) : List Collision :=
  collisions (adds.flatMap Addition.sightings)

/-- All declarations that are added. -/
def allDeclared (adds : List Addition) : List (String × Declaration) :=
  adds.flatMap Addition.declared

/-- The places where a name is declared, in the order in which they are added. -/
def declaredAt (adds : List Addition) (g : Group) (n : String) : List Location :=
  ((allDeclared adds).filter fun x => x.2.group == g && x.2.name == n).map fun x =>
    ⟨x.1, x.2.line⟩

/-- The names that are declared twice or more. -/
def colliding (adds : List Addition) : Finset (Group × String) :=
  ((allDeclared adds).map fun x => (x.2.group, x.2.name)).toFinset.filter fun k =>
    2 ≤ (declaredAt adds k.1 k.2).length

/-- A map answers for what was added. -/
structure Answers (adds : List Addition) (m : List Collision) : Prop where
  found : ∀ g n, (Collision.find? m g n).isSome = true ↔ 2 ≤ (declaredAt adds g n).length
  locations : ∀ g n ls, Collision.find? m g n = some ls →
    ls.Perm (declaredAt adds g n) ∧ ls.Pairwise Location.Before
  /-- The entries of the map are what is found in it. -/
  listed : ∀ g n ls, ⟨g, n, ls⟩ ∈ m ↔ Collision.find? m g n = some ls
  increasing : m.Pairwise fun a b =>
    a.group.rank < b.group.rank ∨ a.group = b.group ∧ bytes a.name < bytes b.name
  size : m.length = (colliding adds).card
  empty : m.isEmpty = true ↔ ∀ g n, (declaredAt adds g n).length < 2
  group : ∀ g, (Collision.ofGroup? m g).isSome = true ↔
    ∃ n, 2 ≤ (declaredAt adds g n).length
  /-- A group has its own entries, in the order of the map. -/
  members : ∀ g cs, Collision.ofGroup? m g = some cs → cs = m.filter (·.group == g)

theorem locationsOf_sightings (a : Addition) (g : Group) (n : String) :
    Sighting.locationsOf g n a.sightings =
      (a.declared.filter fun x => x.2.group == g && x.2.name == n).map fun x =>
        ⟨x.1, x.2.line⟩ := by
  unfold Sighting.locationsOf
  cases a with
  | one path d =>
    simp only [Addition.sightings, Addition.declared, Sighting.ofFile, List.map_cons,
      List.map_nil, List.filter_cons, List.filter_nil]
    split <;> rfl
  | file path ds =>
    simp only [Addition.sightings, Addition.declared, Sighting.ofFile, List.filter_map,
      List.map_map]
    rfl

/-- What is noted of a name are the places where it is declared. -/
theorem locationsOf_flatMap_sightings (adds : List Addition) (g : Group) (n : String) :
    Sighting.locationsOf g n (adds.flatMap Addition.sightings) = declaredAt adds g n := by
  induction adds with
  | nil => rfl
  | cons a adds ih =>
    have hsplit (ss ms : List Sighting) : Sighting.locationsOf g n (ss ++ ms) =
        Sighting.locationsOf g n ss ++ Sighting.locationsOf g n ms := by
      simp [Sighting.locationsOf]
    rw [List.flatMap_cons, hsplit, ih, locationsOf_sightings]
    simp [declaredAt, allDeclared]

namespace Collision

/-- In a map without repeated names, a name is found with its own entry. -/
theorem find?_eq_some_iff (cs : List Collision)
    (h : cs.Pairwise fun a b => nameplate a.group a.name < nameplate b.group b.name)
    (g : Group) (n : String) (ls : List Location) :
    find? cs g n = some ls ↔ ⟨g, n, ls⟩ ∈ cs := by
  unfold find?
  constructor
  · intro hfind
    obtain ⟨c, hc, rfl⟩ := Option.map_eq_some_iff.1 hfind
    have hkey := List.find?_some hc
    simp only [Bool.and_eq_true, beq_iff_eq] at hkey
    rw [← hkey.1, ← hkey.2]
    exact List.mem_of_find?_eq_some hc
  · intro hmem
    induction cs with
    | nil => cases hmem
    | cons c cs ih =>
      obtain ⟨hlt, hcs⟩ := List.pairwise_cons.1 h
      rcases List.mem_cons.1 hmem with rfl | hmem
      · simp
      · have hother := not_same_of_nameplate_lt _ _ _ _ (hlt _ hmem)
        rw [List.find?_cons_of_neg (by simpa using hother)]
        exact ih hcs hmem

theorem ofGroup?_isSome_iff (cs : List Collision) (g : Group) :
    (ofGroup? cs g).isSome = true ↔ ∃ n ls, ⟨g, n, ls⟩ ∈ cs := by
  unfold ofGroup?
  constructor
  · intro hsome
    split at hsome
    · cases hsome
    · rename_i hne
      obtain ⟨c, hc⟩ := List.exists_mem_of_ne_nil _ fun hnil => hne hnil
      obtain ⟨hmem, hgroup⟩ := List.mem_filter.1 hc
      rw [beq_iff_eq] at hgroup
      exact ⟨c.name, c.locations, hgroup ▸ hmem⟩
  · rintro ⟨n, ls, hmem⟩
    split
    · rename_i hnil
      rw [List.filter_eq_nil_iff] at hnil
      exact absurd (hnil _ hmem) (by simp)
    · rfl

theorem ofGroup?_eq_some (cs found : List Collision) (g : Group)
    (h : ofGroup? cs g = some found) : found = cs.filter (·.group == g) := by
  unfold ofGroup? at h
  split at h
  · cases h
  · cases h
    rfl

end Collision

theorem nameplate_lt_iff (g h : Group) (m n : String) :
    nameplate g m < nameplate h n ↔ g.rank < h.rank ∨ g = h ∧ bytes m < bytes n := by
  have hgroup : g.rank = h.rank ↔ g = h := ⟨Group.rank_injective g h, congrArg _⟩
  rw [nameplate, nameplate, Prod.Lex.toLex_lt_toLex, bytes_lt_iff, hgroup]

theorem mem_colliding (adds : List Addition) (g : Group) (n : String) :
    (g, n) ∈ colliding adds ↔ 2 ≤ (declaredAt adds g n).length := by
  unfold colliding
  rw [Finset.mem_filter, and_iff_right_iff_imp]
  intro (htwice : 2 ≤ (declaredAt adds g n).length)
  -- A name with a place is the name of a declaration.
  have hne : declaredAt adds g n ≠ [] := List.ne_nil_of_length_pos (by omega)
  obtain ⟨l, hl⟩ := List.exists_mem_of_ne_nil _ hne
  obtain ⟨x, hx, -⟩ := List.mem_map.1 hl
  obtain ⟨hmem, hkey⟩ := List.mem_filter.1 hx
  simp only [Bool.and_eq_true, beq_iff_eq] at hkey
  rw [List.mem_toFinset, List.mem_map]
  exact ⟨x, hmem, by rw [hkey.1, hkey.2]⟩

theorem exists_mem_collisionsAfter_iff (adds : List Addition) (g : Group) (n : String) :
    (∃ ls, ⟨g, n, ls⟩ ∈ collisionsAfter adds) ↔ 2 ≤ (declaredAt adds g n).length := by
  rw [← locationsOf_flatMap_sightings]
  exact exists_mem_collisions_iff _ g n

/-- Each colliding name has one entry. -/
theorem length_collisionsAfter (adds : List Addition) :
    (collisionsAfter adds).length = (colliding adds).card := by
  have hnodup : ((collisionsAfter adds).map fun c => (c.group, c.name)).Nodup := by
    rw [List.Nodup, List.pairwise_map]
    apply (collisions_increasing _).imp
    intro a b hlt heq
    rw [Prod.mk.injEq] at heq
    exact not_same_of_nameplate_lt _ _ _ _ hlt heq
  have hkeys : ((collisionsAfter adds).map fun c => (c.group, c.name)).toFinset =
      colliding adds := by
    ext ⟨g, n⟩
    rw [mem_colliding, ← exists_mem_collisionsAfter_iff, List.mem_toFinset, List.mem_map]
    constructor
    · rintro ⟨c, hc, heq⟩
      cases heq
      exact ⟨c.locations, hc⟩
    · rintro ⟨ls, hmem⟩
      exact ⟨_, hmem, rfl⟩
  rw [← hkeys, List.toFinset_card_of_nodup hnodup, List.length_map]

/-- The collisions are exactly the names that were added twice or more, each once and
in order, with all of its places in order. -/
theorem collisionsAfter_answers (adds : List Addition) : Answers adds (collisionsAfter adds) := by
  have hincreasing := collisions_increasing (adds.flatMap Addition.sightings)
  have hfind (g : Group) (n : String) (ls : List Location) :
      Collision.find? (collisionsAfter adds) g n = some ls ↔ ⟨g, n, ls⟩ ∈ collisionsAfter adds :=
    Collision.find?_eq_some_iff _ hincreasing g n ls
  refine ⟨?_, ?_, fun g n ls => (hfind g n ls).symm, ?_, length_collisionsAfter adds, ?_, ?_, ?_⟩
  · intro g n
    rw [Option.isSome_iff_exists, ← exists_mem_collisionsAfter_iff]
    exact exists_congr (hfind g n)
  · intro g n ls hls
    obtain ⟨-, hperm, hbefore⟩ := (mem_collisions_iff _ _).1 ((hfind g n ls).1 hls)
    rw [locationsOf_flatMap_sightings] at hperm
    exact ⟨hperm, hbefore⟩
  · apply hincreasing.imp
    intro a b hlt
    exact (nameplate_lt_iff _ _ _ _).1 hlt
  · rw [List.isEmpty_iff, List.eq_nil_iff_forall_not_mem]
    constructor
    · intro hnone g n
      by_contra htwice
      obtain ⟨ls, hmem⟩ := (exists_mem_collisionsAfter_iff adds g n).2 (by omega)
      exact hnone _ hmem
    · intro hfew c hmem
      have htwice := (exists_mem_collisionsAfter_iff adds c.group c.name).1 ⟨c.locations, hmem⟩
      have hlt := hfew c.group c.name
      omega
  · intro g
    rw [Collision.ofGroup?_isSome_iff]
    exact exists_congr (exists_mem_collisionsAfter_iff adds g)
  · intro g cs hcs
    exact Collision.ofGroup?_eq_some _ cs g hcs

example :
    collisionsAfter [.file "b" [⟨.constant, "F", 9⟩, ⟨.function, "F", 2⟩, ⟨.function, "F", 1⟩],
      .one "a" ⟨.function, "F", 2⟩, .one "a" ⟨.function, "F", 2⟩] =
    [⟨.function, "F", [⟨"a", 2⟩, ⟨"a", 2⟩, ⟨"b", 1⟩, ⟨"b", 2⟩]⟩] := by
  cbv

end Redeclaration
