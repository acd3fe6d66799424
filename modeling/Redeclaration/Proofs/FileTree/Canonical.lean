import Mathlib.Data.List.Induction
import Redeclaration.Proofs.FileTree
import Redeclaration.Settings

/-!
Canonical forms of paths. The canonical form spells the place that a path ends at: the names
from the root on, none of which is a link. Main statement: a canonical form is its own
canonical form, whatever links and points led to it.
-/

namespace Redeclaration

namespace FileTree

theorem toList_placeText (place : List String) (h : place ≠ []) :
    (placeText place).toList = place.flatMap fun name => '/' :: name.toList := by
  have hfold (text : String) :
      (place.foldl (fun text name => text ++ "/" ++ name) text).toList =
        text.toList ++ place.flatMap fun name => '/' :: name.toList := by
    clear h
    induction place generalizing text with
    | nil => exact (List.append_nil _).symm
    | cons name place ih =>
      rw [List.foldl_cons, ih, List.flatMap_cons, String.toList_append, String.toList_append]
      simp
  rw [placeText, if_neg (by simpa using h), hfold]
  rfl

theorem pieces_places (place : List String) (h : ∀ name ∈ place, Path.IsName name) :
    Path.pieces (place.flatMap fun name => '/' :: name.toList) =
      [] :: place.map String.toList := by
  induction place using List.reverseRecOn with
  | nil => rfl
  | append_singleton place name ih =>
    have hname := Path.pieces_of_notMem _ (h name (by simp)).no_slash
    rw [List.flatMap_append, List.flatMap_singleton, Path.pieces_append_slash,
      ih fun u hu => h u (List.mem_append_left _ hu), hname, List.map_append]
    rfl

/-- The text of a place is followed from the root, which the empty piece before the first
slash stands for. -/
theorem steps_placeText (place : List String) (hne : place ≠ [])
    (h : ∀ name ∈ place, Path.IsName name) : steps (placeText place) = "" :: place := by
  have hsame : String.ofList ∘ String.toList = id := by
    funext name
    exact String.ofList_toList
  rw [steps, toList_placeText place hne, pieces_places place h, List.map_cons, List.map_map,
    hsame, List.map_id]

theorem isAbsolute_placeText (place : List String) :
    Path.isAbsolute (placeText place).toList = true := by
  cases place with
  | nil => rfl
  | cons name place =>
    rw [toList_placeText _ (List.cons_ne_nil name place)]
    rfl

theorem nul_placeText (place : List String) (h : ∀ name ∈ place, Path.IsName name) :
    '\x00' ∉ (placeText place).toList := by
  cases place with
  | nil => decide
  | cons name place =>
    rw [toList_placeText _ (List.cons_ne_nil name place)]
    intro hmem
    obtain ⟨other, hother, hnul⟩ := List.mem_flatMap.1 hmem
    rcases List.mem_cons.1 hnul with hslash | hnul
    · exact absurd hslash (by decide)
    · exact (h other hother).no_nul hnul

end FileTree

namespace Disk

open FileTree

/-- A path ends at a place, links followed, and a file or a directory stands there. -/
structure EndsAt (d : Disk) (path : String) (place : List String) : Prop where
  located : d.locate .follow path = .ok place
  reached : ∃ n, d.tree.at? place = some n ∧ ∀ target, n ≠ .link target

/-- The canonical form of a path spells the place that the path ends at. -/
def CanonicalForm (d : Disk) (path text : String) : Prop :=
  ∃ place, d.EndsAt path place ∧ text = placeText place

theorem exists_endsAt_iff (d : Disk) (path : String) :
    Settings.pathExists d path = true ↔ ∃ place, d.EndsAt path place := by
  unfold Settings.pathExists isDirectory isFile find?
  constructor
  · intro h
    cases hlocate : d.locate .follow path with
    | error e =>
      rw [hlocate] at h
      cases h
    | ok place =>
      rw [hlocate] at h
      refine ⟨place, hlocate, ?_⟩
      cases hat : d.tree.at? place with
      | none =>
        simp [hat] at h
      | some n =>
        refine ⟨n, rfl, ?_⟩
        intro target hlink
        simp [hat, hlink] at h
  · intro h
    obtain ⟨place, hlocate, n, hat, hlink⟩ := h
    rw [hlocate]
    dsimp only
    rw [hat]
    cases n with
    | file bytes => rfl
    | directory entries => rfl
    | link target => exact absurd rfl (hlink target)

/-- The text of a place leads to that place, since names lead straight down to it. -/
theorem locate_placeText (d : Disk) (purpose : Purpose) (place : List String) (n : Node)
    (hnamed : d.tree.root.Named) (hat : d.tree.at? place = some n)
    (hlink : ∀ target, n = .link target → purpose = .inspect) :
    d.locate purpose (placeText place) = .ok place := by
  have hnames := Node.isName_of_at? _ n place hnamed hat
  have habsolute := isAbsolute_placeText place
  have hempty : placeText place ≠ "" := by
    intro hempty
    rw [hempty] at habsolute
    cases habsolute
  rw [locate, if_neg (by simpa using hempty), if_neg (nul_placeText place hnames), if_pos habsolute]
  -- Every path from the root starts with an empty piece, at which nothing happens.
  by_cases hroot : place = []
  · rw [hroot]
    have hpassed (piece : String) (rest : List String) (h : piece = "") :
        d.tree.resolve purpose linkLimit [] (piece :: rest) =
          d.tree.resolve purpose linkLimit [] rest := by
      rw [resolve, h]
      rfl
    have hsteps : steps (placeText []) = ["", ""] := by decide
    rw [hsteps, hpassed _ _ rfl, hpassed _ _ rfl, resolve]
  · rw [steps_placeText place hroot hnames, resolve_cons _ _ _ _ _ _ (.inr hroot)]
    have hstep : d.tree.firstStep linkLimit [] "" = .ok (linkLimit, [], []) := rfl
    rw [hstep]
    exact resolve_names d.tree purpose linkLimit [] place n hat hnames hlink

theorem endsAt_placeText (d : Disk) (path : String) (place : List String)
    (hnamed : d.tree.root.Named) (h : d.EndsAt path place) :
    d.EndsAt (placeText place) place := by
  obtain ⟨n, hat, hlink⟩ := h.reached
  refine ⟨?_, n, hat, hlink⟩
  apply locate_placeText d .follow place n hnamed hat
  intro target htarget
  exact absurd htarget (hlink target)

theorem CanonicalForm.again {d : Disk} {path text : String} (h : d.CanonicalForm path text)
    (hnamed : d.tree.root.Named) : d.CanonicalForm text text := by
  obtain ⟨place, hends, rfl⟩ := h
  exact ⟨place, endsAt_placeText d path place hnamed hends, rfl⟩

theorem CanonicalForm.isAbsolute {d : Disk} {path text : String} (h : d.CanonicalForm path text) :
    Path.isAbsolute text.toList = true := by
  obtain ⟨place, -, rfl⟩ := h
  exact isAbsolute_placeText place

end Disk

end Redeclaration
