import Mathlib.Data.List.Sort
import Mathlib.Data.Prod.Lex
import Mathlib.Data.String.Basic
import Redeclaration.Collision
import Redeclaration.Proofs.Text.Bytes

/-!
The collisions of a list of sightings. Sorted sightings of one name stand side by
side, so that gathering them front to back yields each name once. Main statement:
a name collides exactly if it is sighted twice or more, and then with all of its
locations in order.
-/

namespace Redeclaration

open Text

/-! The orders of locations and sightings, as orders of tuples. -/

def Location.place (l : Location) : String ×ₗ Nat :=
  toLex (l.path, l.line)

theorem Location.le_iff (a b : Location) : a.le b = true ↔ a.place ≤ b.place := by
  simp [Location.le, Location.place, Prod.Lex.toLex_le_toLex]

theorem Location.place_injective (a b : Location) (h : a.place = b.place) : a = b := by
  have hpair : (a.path, a.line) = (b.path, b.line) := toLex.injective h
  cases a
  cases b
  simpa using hpair

/-- By the bytes of the path, then by line. -/
def Location.Before (a b : Location) : Prop :=
  bytes a.path < bytes b.path ∨ a.path = b.path ∧ a.line ≤ b.line

theorem Location.before_iff (a b : Location) : a.Before b ↔ a.place ≤ b.place := by
  rw [Location.Before, bytes_lt_iff]
  simp [Location.place, Prod.Lex.toLex_le_toLex]

theorem Group.rank_injective (g h : Group) (hr : g.rank = h.rank) : g = h := by
  cases g <;> cases h <;> first | rfl | cases hr

/-- What names of a report are ordered by. -/
def nameplate (g : Group) (n : String) : Nat ×ₗ String :=
  toLex (g.rank, n)

theorem nameplate_eq_iff (g h : Group) (m n : String) :
    nameplate g m = nameplate h n ↔ g = h ∧ m = n := by
  constructor
  · intro heq
    have hpair : (g.rank, m) = (h.rank, n) := toLex.injective heq
    exact ⟨Group.rank_injective g h (congrArg Prod.fst hpair), congrArg Prod.snd hpair⟩
  · rintro ⟨rfl, rfl⟩
    rfl

theorem not_same_of_nameplate_lt (g h : Group) (m n : String)
    (hlt : nameplate g m < nameplate h n) : ¬ (g = h ∧ m = n) := by
  rintro ⟨rfl, rfl⟩
  exact lt_irrefl _ hlt

namespace Sighting

def place (s : Sighting) : (Nat ×ₗ String) ×ₗ (String ×ₗ Nat) :=
  toLex (nameplate s.group s.name, s.location.place)

theorem le_iff (a b : Sighting) : a.le b = true ↔ a.place ≤ b.place := by
  have hgroup : a.group = b.group ↔ a.group.rank = b.group.rank :=
    ⟨congrArg _, Group.rank_injective _ _⟩
  simp only [le, place, nameplate, Prod.Lex.toLex_le_toLex, Prod.Lex.toLex_lt_toLex,
    Bool.or_eq_true, Bool.and_eq_true, decide_eq_true_eq, beq_iff_eq, Location.le_iff, hgroup,
    toLex_inj, Prod.mk.injEq]
  tauto

theorem nameplate_le (a b : Sighting) (h : a.le b = true) :
    nameplate a.group a.name ≤ nameplate b.group b.name := by
  rw [le_iff, place, place, Prod.Lex.toLex_le_toLex] at h
  rcases h with h | h
  · exact h.le
  · exact h.1.le

theorem sorted_mergeSort (ss : List Sighting) :
    (ss.mergeSort Sighting.le).Pairwise fun a b => a.le b = true := by
  apply List.pairwise_mergeSort
  · intro a b c hab hbc
    rw [le_iff] at hab hbc ⊢
    exact hab.trans hbc
  · intro a b
    rw [Bool.or_eq_true, le_iff, le_iff]
    exact le_total a.place b.place

theorem place_injective (a b : Sighting) (h : a.place = b.place) : a = b := by
  have hpair : (nameplate a.group a.name, a.location.place) =
      (nameplate b.group b.name, b.location.place) := toLex.injective h
  obtain ⟨hg, hn⟩ := (nameplate_eq_iff _ _ _ _).1 (congrArg Prod.fst hpair)
  have hl := Location.place_injective _ _ (congrArg Prod.snd hpair)
  cases a
  cases b
  simp_all

/-- There is only one order in which sorted sightings can stand. -/
theorem mergeSort_eq_of_perm (ss ms : List Sighting) (h : ss.Perm ms) :
    ss.mergeSort Sighting.le = ms.mergeSort Sighting.le := by
  have hsorted : (ss.mergeSort Sighting.le).Perm (ms.mergeSort Sighting.le) :=
    ((List.mergeSort_perm ss _).trans h).trans (List.mergeSort_perm ms _).symm
  apply hsorted.eq_of_pairwise _ (sorted_mergeSort ss) (sorted_mergeSort ms)
  intro a b _ _ hab hba
  rw [le_iff] at hab hba
  exact place_injective a b (le_antisymm hab hba)

/-- The locations of the sightings of one name, in their order. -/
def locationsOf (g : Group) (n : String) (ss : List Sighting) : List Location :=
  (ss.filter fun s => s.group == g && s.name == n).map (·.location)

theorem locationsOf_perm (g : Group) (n : String) (ss ms : List Sighting) (h : ss.Perm ms) :
    (locationsOf g n ss).Perm (locationsOf g n ms) :=
  (h.filter _).map _

theorem locationsOf_cons_same (g : Group) (n : String) (s : Sighting) (ss : List Sighting)
    (hg : s.group = g) (hn : s.name = n) :
    locationsOf g n (s :: ss) = s.location :: locationsOf g n ss := by
  simp [locationsOf, hg, hn]

theorem locationsOf_cons_other (g : Group) (n : String) (s : Sighting) (ss : List Sighting)
    (h : ¬ (s.group = g ∧ s.name = n)) : locationsOf g n (s :: ss) = locationsOf g n ss := by
  unfold locationsOf
  rw [List.filter_cons_of_neg (by simpa using h)]

theorem mem_of_locationsOf (g : Group) (n : String) (ss : List Sighting)
    (h : locationsOf g n ss ≠ []) : ∃ s ∈ ss, s.group = g ∧ s.name = n := by
  obtain ⟨l, hl⟩ := List.exists_mem_of_ne_nil _ h
  obtain ⟨s, hs, -⟩ := List.mem_map.1 hl
  obtain ⟨hmem, hkey⟩ := List.mem_filter.1 hs
  exact ⟨s, hmem, by simpa using hkey⟩

/-- Sorted sightings have the locations of each name in order. -/
theorem locationsOf_sorted (g : Group) (n : String) (ms : List Sighting)
    (h : ms.Pairwise fun a b => a.le b = true) :
    (locationsOf g n ms).Pairwise Location.Before := by
  unfold locationsOf
  rw [List.pairwise_map]
  apply (h.filter _).imp_of_mem
  intro a b ha hb hab
  have hka := (List.mem_filter.1 ha).2
  have hkb := (List.mem_filter.1 hb).2
  simp only [Bool.and_eq_true, beq_iff_eq] at hka hkb
  rw [le_iff, place, place, hka.1, hka.2, hkb.1, hkb.2, Prod.Lex.toLex_le_toLex] at hab
  rw [Location.before_iff]
  exact hab.resolve_left (lt_irrefl _) |>.2

end Sighting

namespace Collision

open Sighting

/-- Each sighted name once, in order and with all of its locations. -/
structure Gathered (ms : List Sighting) (cs : List Collision) : Prop where
  locations : ∀ c ∈ cs, c.locations = locationsOf c.group c.name ms
  sighted : ∀ c ∈ cs, c.locations ≠ []
  complete : ∀ s ∈ ms, ∃ c ∈ cs, c.group = s.group ∧ c.name = s.name
  increasing : cs.Pairwise fun a b => nameplate a.group a.name < nameplate b.group b.name

theorem Gathered.nameplate_le (ms : List Sighting) (cs : List Collision) (s : Sighting)
    (h : Gathered ms cs) (hs : ∀ m ∈ ms, s.le m = true) (c : Collision) (hc : c ∈ cs) :
    nameplate s.group s.name ≤ nameplate c.group c.name := by
  obtain ⟨m, hm, hg, hn⟩ := mem_of_locationsOf c.group c.name ms
    (h.locations c hc ▸ h.sighted c hc)
  rw [← hg, ← hn]
  exact Sighting.nameplate_le s m (hs m hm)

theorem Gathered.first (ms : List Sighting) (cs : List Collision) (s : Sighting)
    (h : Gathered ms cs)
    (hs : ∀ c ∈ cs, nameplate s.group s.name < nameplate c.group c.name) :
    Gathered (s :: ms) (⟨s.group, s.name, [s.location]⟩ :: cs) := by
  -- A later sighting of the name would have been gathered already.
  have hnone : locationsOf s.group s.name ms = [] := by
    by_contra hne
    obtain ⟨m, hm, hg, hn⟩ := mem_of_locationsOf _ _ _ hne
    obtain ⟨c, hc, hcg, hcn⟩ := h.complete m hm
    apply not_same_of_nameplate_lt _ _ _ _ (hs c hc)
    exact ⟨(hcg.trans hg).symm, (hcn.trans hn).symm⟩
  have hother : ∀ c ∈ cs, ¬ (s.group = c.group ∧ s.name = c.name) := by
    intro c hc
    exact not_same_of_nameplate_lt _ _ _ _ (hs c hc)
  refine ⟨?_, ?_, ?_, List.pairwise_cons.2 ⟨hs, h.increasing⟩⟩
  · rintro c hc
    rcases List.mem_cons.1 hc with rfl | hc
    · rw [locationsOf_cons_same _ _ _ _ rfl rfl, hnone]
    · rw [locationsOf_cons_other _ _ _ _ (hother c hc)]
      exact h.locations c hc
  · rintro c hc
    rcases List.mem_cons.1 hc with rfl | hc
    · simp
    · exact h.sighted c hc
  · rintro m hm
    rcases List.mem_cons.1 hm with rfl | hm
    · exact ⟨_, List.mem_cons_self, rfl, rfl⟩
    · obtain ⟨c, hc, hkey⟩ := h.complete m hm
      exact ⟨c, List.mem_cons_of_mem _ hc, hkey⟩

theorem Gathered.again (ms : List Sighting) (c : Collision) (cs : List Collision) (s : Sighting)
    (h : Gathered ms (c :: cs)) (hg : c.group = s.group) (hn : c.name = s.name) :
    Gathered (s :: ms) ({ c with locations := s.location :: c.locations } :: cs) := by
  obtain ⟨hlt, hcs⟩ := List.pairwise_cons.1 h.increasing
  have hother : ∀ e ∈ cs, ¬ (s.group = e.group ∧ s.name = e.name) := by
    intro e he
    rw [← hg, ← hn]
    exact not_same_of_nameplate_lt _ _ _ _ (hlt e he)
  refine ⟨?_, ?_, ?_, List.pairwise_cons.2 ⟨hlt, hcs⟩⟩
  · rintro e he
    rcases List.mem_cons.1 he with rfl | he
    · rw [locationsOf_cons_same _ _ _ _ hg.symm hn.symm, h.locations c List.mem_cons_self]
    · rw [locationsOf_cons_other _ _ _ _ (hother e he)]
      exact h.locations e (List.mem_cons_of_mem _ he)
  · rintro e he
    rcases List.mem_cons.1 he with rfl | he
    · simp
    · exact h.sighted e (List.mem_cons_of_mem _ he)
  · rintro m hm
    -- Whatever had the name of the head still has it.
    have hhead : ∀ e ∈ c :: cs, ∃ e' ∈ { c with locations := s.location :: c.locations } :: cs,
        e'.group = e.group ∧ e'.name = e.name := by
      rintro e he
      rcases List.mem_cons.1 he with rfl | he
      · exact ⟨_, List.mem_cons_self, rfl, rfl⟩
      · exact ⟨e, List.mem_cons_of_mem _ he, rfl, rfl⟩
    rcases List.mem_cons.1 hm with rfl | hm
    · exact ⟨_, List.mem_cons_self, hg, hn⟩
    · obtain ⟨e, he, heg, hen⟩ := h.complete m hm
      obtain ⟨e', he', hg', hn'⟩ := hhead e he
      exact ⟨e', he', hg'.trans heg, hn'.trans hen⟩

/-- A sighting that stands before all others is gathered in front. -/
theorem gathered_gather (ms : List Sighting) (cs : List Collision) (s : Sighting)
    (h : Gathered ms cs) (hs : ∀ m ∈ ms, s.le m = true) :
    Gathered (s :: ms) (gather s cs) := by
  have hle := Gathered.nameplate_le ms cs s h hs
  cases cs with
  | nil => exact Gathered.first ms [] s h (by simp)
  | cons c cs =>
    rw [gather]
    split
    · rename_i hkey
      simp only [Bool.and_eq_true, beq_iff_eq] at hkey
      exact Gathered.again ms c cs s h hkey.1 hkey.2
    · rename_i hkey
      simp only [Bool.and_eq_true, beq_iff_eq] at hkey
      -- The gathered names increase, so it is enough to be before the first one.
      have hhead : nameplate s.group s.name < nameplate c.group c.name := by
        apply lt_of_le_of_ne (hle c List.mem_cons_self)
        intro heq
        obtain ⟨hg, hn⟩ := (nameplate_eq_iff _ _ _ _).1 heq
        exact hkey ⟨hg.symm, hn.symm⟩
      apply Gathered.first ms (c :: cs) s h
      rintro e he
      rcases List.mem_cons.1 he with rfl | he
      · exact hhead
      · exact hhead.trans ((List.pairwise_cons.1 h.increasing).1 e he)

theorem gathered_foldr (ms : List Sighting) (h : ms.Pairwise fun a b => a.le b = true) :
    Gathered ms (ms.foldr gather []) := by
  induction ms with
  | nil => exact ⟨by simp, by simp, by simp, .nil⟩
  | cons s ms ih =>
    obtain ⟨hs, hms⟩ := List.pairwise_cons.1 h
    exact gathered_gather ms _ s (ih hms) hs

theorem gathered_names (ss : List Sighting) :
    Gathered (ss.mergeSort Sighting.le) (names ss) :=
  gathered_foldr _ (sorted_mergeSort ss)

end Collision

theorem Location.eq_of_perm_of_before (ls ms : List Location) (hp : ls.Perm ms)
    (hl : ls.Pairwise Location.Before) (hm : ms.Pairwise Location.Before) : ls = ms := by
  apply hp.eq_of_pairwise _ hl hm
  intro a b _ _ hab hba
  rw [Location.before_iff] at hab hba
  exact Location.place_injective a b (le_antisymm hab hba)

open Sighting in
/-- A name collides exactly if it is sighted twice or more, and then with all of
its locations in order. -/
theorem mem_collisions_iff (ss : List Sighting) (c : Collision) :
    c ∈ collisions ss ↔
      2 ≤ c.locations.length ∧
        c.locations.Perm (locationsOf c.group c.name ss) ∧
        c.locations.Pairwise Location.Before := by
  have hgathered := Collision.gathered_names ss
  have hsorted := sorted_mergeSort ss
  have hperm : ∀ g n, (locationsOf g n (ss.mergeSort Sighting.le)).Perm (locationsOf g n ss) :=
    fun g n => locationsOf_perm g n _ _ (List.mergeSort_perm ss Sighting.le)
  rw [collisions, List.mem_filter, decide_eq_true_eq]
  constructor
  · rintro ⟨hc, hlen⟩
    rw [hgathered.locations c hc] at hlen ⊢
    exact ⟨hlen, hperm _ _, locationsOf_sorted _ _ _ hsorted⟩
  · rintro ⟨hlen, hlocs, hbefore⟩
    refine ⟨?_, hlen⟩
    -- There is only one order in which the locations can stand.
    have heq : c.locations = locationsOf c.group c.name (ss.mergeSort Sighting.le) :=
      Location.eq_of_perm_of_before _ _ (hlocs.trans (hperm _ _).symm) hbefore
        (locationsOf_sorted _ _ _ hsorted)
    have hne : locationsOf c.group c.name (ss.mergeSort Sighting.le) ≠ [] := by
      rw [← heq]
      exact List.ne_nil_of_length_pos (by omega)
    obtain ⟨m, hm, hg, hn⟩ := mem_of_locationsOf _ _ _ hne
    obtain ⟨e, he, heg, hen⟩ := hgathered.complete m hm
    have hsame : e = c := by
      have hlocations := hgathered.locations e he
      rw [heg, hen, hg, hn, ← heq] at hlocations
      cases e
      cases c
      simp_all
    exact hsame ▸ he

theorem exists_mem_collisions_iff (ss : List Sighting) (g : Group) (n : String) :
    (∃ ls, ⟨g, n, ls⟩ ∈ collisions ss) ↔ 2 ≤ (Sighting.locationsOf g n ss).length := by
  constructor
  · rintro ⟨ls, h⟩
    obtain ⟨hlen, hperm, -⟩ := (mem_collisions_iff ss _).1 h
    rwa [← hperm.length_eq]
  · intro hlen
    have hperm := Sighting.locationsOf_perm g n _ _ (List.mergeSort_perm ss Sighting.le)
    refine ⟨Sighting.locationsOf g n (ss.mergeSort Sighting.le),
      (mem_collisions_iff ss _).2 ⟨?_, hperm, ?_⟩⟩
    · rwa [← hperm.length_eq] at hlen
    · exact Sighting.locationsOf_sorted g n _ (Sighting.sorted_mergeSort ss)

/-- What collides does not depend on the order of the sightings. -/
theorem collisions_perm (ss ms : List Sighting) (h : ss.Perm ms) :
    collisions ss = collisions ms := by
  unfold collisions Collision.names
  rw [Sighting.mergeSort_eq_of_perm ss ms h]

/-- No name is reported twice, and names stand in the order of a report. -/
theorem collisions_increasing (ss : List Sighting) :
    (collisions ss).Pairwise fun a b =>
      nameplate a.group a.name < nameplate b.group b.name :=
  (Collision.gathered_names ss).increasing.filter _

end Redeclaration
