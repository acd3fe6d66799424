import Redeclaration.Proofs.Path.Below
import Redeclaration.Proofs.Settings

/-!
Settings that come from a settings file. Every path is checked twice, first where it is taken
from a directory and then where it is resolved, and the second check never finds anything.
Main statement: the first path that leads nowhere is refused, and if there is none the
settings hold the canonical forms of all paths.
-/

namespace Redeclaration

namespace Path

end Path

namespace Disk

/-- A file that can be read is what its path leads to. -/
theorem read_eq_ok (d : Disk) (path : String) (bytes : List UInt8)
    (h : d.read path = .ok bytes) :
    ∃ place, d.locate .follow path = .ok place ∧ d.tree.at? place = some (.file bytes) := by
  obtain ⟨place, hplace, hbytes⟩ := (bind_eq_ok_iff _ _ _).1 h
  refine ⟨place, hplace, ?_⟩
  split at hbytes
  · rename_i content hat
    rw [hat, Except.ok.inj hbytes]
  · cases hbytes
  · cases hbytes

theorem isFile_of_read (d : Disk) (path : String) (bytes : List UInt8)
    (h : d.read path = .ok bytes) : d.isFile path = true := by
  obtain ⟨place, hplace, hat⟩ := d.read_eq_ok path bytes h
  simp [isFile, find?, hplace, hat]

end Disk

namespace Settings

/-- The paths that are scanned: those that are provided, taken from the working directory, or
else those of the document, taken from its own directory. -/
def scanTargets (cwd : String) (provided : List String) (home : String) (doc : Document) :
    List String :=
  if provided = [] then doc.scanPaths.map (Path.join home) else provided.map (Path.join cwd)

/-- The paths that are excluded, taken from the directory of the document. -/
def excludeTargets (home : String) (doc : Document) : List String :=
  doc.excludePaths.map (Path.join home)

/-- The first path that leads nowhere. -/
def firstMissing? (d : Disk) (paths : List String) : Option String :=
  paths.find? fun path => !pathExists d path

theorem firstMissing?_append (d : Disk) (a b : List String) :
    firstMissing? d (a ++ b) = (firstMissing? d a).or (firstMissing? d b) :=
  List.find?_append

theorem mapM_joinExisting (d : Disk) (directory : String) (paths : List String) :
    paths.mapM (joinExisting d directory) =
      match firstMissing? d (paths.map (Path.join directory)) with
      | some path => .error (.invalidPath path)
      | none => .ok (paths.map (Path.join directory)) := by
  induction paths with
  | nil => rfl
  | cons path paths ih =>
    rw [List.mapM_cons, ih, List.map_cons]
    unfold joinExisting firstMissing?
    dsimp only
    by_cases hexists : pathExists d (Path.join directory path) = true
    · rw [if_pos hexists, List.find?_cons_of_neg (by simp [hexists])]
      cases hrest : (paths.map (Path.join directory)).find? fun path => !pathExists d path with
      | none => rfl
      | some missing => rfl
    · rw [if_neg hexists, List.find?_cons_of_pos (by simpa using hexists)]
      rfl

/-- The paths of a document are looked at in one order, the excluded ones last. -/
theorem ofDocument_eq (d : Disk) (cwd : String) (provided : List String) (home : String)
    (doc : Document) :
    ofDocument d cwd provided home doc =
      match firstMissing? d (scanTargets cwd provided home doc ++ excludeTargets home doc) with
      | some path => .error (.invalidPath path)
      | none =>
        ofPaths d (scanTargets cwd provided home doc) (excludeTargets home doc)
          doc.fileExtensions cwd doc.ignoreParseFailures := by
  have hboth (directory : String) (paths : List String) :
      (do
        let scanned ← paths.mapM (joinExisting d directory)
        let excluded ← doc.excludePaths.mapM (joinExisting d home)
        ofPaths d scanned excluded doc.fileExtensions cwd doc.ignoreParseFailures) =
      match firstMissing? d (paths.map (Path.join directory) ++ excludeTargets home doc) with
      | some path => .error (.invalidPath path)
      | none =>
        ofPaths d (paths.map (Path.join directory)) (excludeTargets home doc)
          doc.fileExtensions cwd doc.ignoreParseFailures := by
    rw [mapM_joinExisting, mapM_joinExisting, firstMissing?_append]
    unfold excludeTargets
    cases firstMissing? d (paths.map (Path.join directory)) with
    | some path => rfl
    | none =>
      cases firstMissing? d (doc.excludePaths.map (Path.join home)) with
      | some path => rfl
      | none => rfl
  -- Which paths are scanned hangs on whether some are provided, and so does their directory.
  cases provided with
  | nil => exact hboth home doc.scanPaths
  | cons first provided => exact hboth cwd (first :: provided)

theorem firstMissing?_eq_none_iff (d : Disk) (paths : List String) :
    firstMissing? d paths = none ↔ ∀ path ∈ paths, pathExists d path = true := by
  unfold firstMissing?
  rw [List.find?_eq_none]
  simp

/-- A file that can be read and decoded gives the settings of its document. -/
theorem ofFile_eq_ofDocument (d : Disk) (cwd : String) (provided : List String)
    (file home text : String) (bytes : List UInt8) (doc : Document)
    (hread : d.read (Path.join cwd file) = .ok bytes) (htext : Text.decode? bytes = some text)
    (hdoc : Document.read text = .ok doc)
    (hhome : Path.parent? (Path.join cwd file) = some home) :
    ofFile d cwd provided file = ofDocument d cwd provided home doc := by
  have hfile := d.isFile_of_read _ bytes hread
  have hdocument : readDocument d (Path.join cwd file) = .ok doc := by
    simp [readDocument, hfile, hread, htext, hdoc, bind, Except.bind, Except.mapError]
  unfold ofFile
  dsimp only
  rw [hdocument, hhome]
  rfl

end Settings

end Redeclaration
