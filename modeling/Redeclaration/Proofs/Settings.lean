import Mathlib.Data.List.Forall2
import Redeclaration.Proofs.FileTree.Canonical

/-!
Settings that are made from paths. They are made exactly if all paths lead to a file or a
directory, and hold the canonical forms of these paths. Main statement: settings that are
made once more from what they hold come out the same.
-/

namespace Redeclaration

theorem bind_eq_ok_iff {α β ε : Type} (x : Except ε α) (f : α → Except ε β) (b : β) :
    (x >>= f) = .ok b ↔ ∃ a, x = .ok a ∧ f a = .ok b := by
  cases x with
  | error e => simp [bind, Except.bind]
  | ok a => simp [bind, Except.bind]

theorem mapM_eq_ok_iff {α β ε : Type} (f : α → Except ε β) (xs : List α) (ys : List β) :
    xs.mapM f = .ok ys ↔ List.Forall₂ (fun x y => f x = .ok y) xs ys := by
  induction xs generalizing ys with
  | nil =>
    rw [List.mapM_nil, List.forall₂_nil_left_iff]
    exact ⟨fun h => (Except.ok.inj h).symm, fun h => h ▸ rfl⟩
  | cons x xs ih =>
    rw [List.mapM_cons, bind_eq_ok_iff, List.forall₂_cons_left_iff]
    constructor
    · intro h
      obtain ⟨y, hy, hrest⟩ := h
      obtain ⟨rest, hrest, hys⟩ := (bind_eq_ok_iff _ _ _).1 hrest
      exact ⟨y, rest, hy, (ih rest).1 hrest, (Except.ok.inj hys).symm⟩
    · intro h
      obtain ⟨y, rest, hy, hrest, hys⟩ := h
      refine ⟨y, hy, (bind_eq_ok_iff _ _ _).2 ⟨rest, (ih rest).2 hrest, ?_⟩⟩
      rw [hys]
      rfl

namespace Settings

/-- A path that exists never fails to be resolved. -/
theorem canonical_eq_ok_iff (d : Disk) (path text : String) :
    canonical d path = .ok text ↔ d.CanonicalForm path text := by
  constructor
  · intro h
    unfold canonical at h
    split at h
    · rename_i hexists
      obtain ⟨place, hends⟩ := (d.exists_endsAt_iff path).1 hexists
      rw [Disk.canonical, hends.located] at h
      exact ⟨place, hends, (Except.ok.inj h).symm⟩
    · cases h
  · intro h
    obtain ⟨place, hends, rfl⟩ := h
    rw [canonical, if_pos ((d.exists_endsAt_iff path).2 ⟨place, hends⟩), Disk.canonical,
      hends.located]
    rfl

/-- The settings that paths, extensions and a flag stand for. -/
structure Resolved (d : Disk) (scanPaths excludePaths fileExtensions : List String)
    (baseDirectory : String) (ignoreParseFailures : Bool) (s : Settings) : Prop where
  scanPaths : List.Forall₂ d.CanonicalForm scanPaths s.scanPaths
  excludePaths : List.Forall₂ d.CanonicalForm excludePaths s.excludePaths
  fileExtensions : s.fileExtensions = fileExtensions.map Path.dotted
  baseDirectory : d.CanonicalForm baseDirectory s.baseDirectory
  ignoreParseFailures : s.ignoreParseFailures = ignoreParseFailures

theorem ofPaths_eq_ok_iff (d : Disk) (scanPaths excludePaths fileExtensions : List String)
    (baseDirectory : String) (ignoreParseFailures : Bool) (s : Settings) :
    ofPaths d scanPaths excludePaths fileExtensions baseDirectory ignoreParseFailures = .ok s ↔
      Resolved d scanPaths excludePaths fileExtensions baseDirectory ignoreParseFailures s := by
  simp only [ofPaths, bind_eq_ok_iff, mapM_eq_ok_iff, canonical_eq_ok_iff]
  constructor
  · intro h
    obtain ⟨scanned, hscanned, excluded, hexcluded, base, hbase, hs⟩ := h
    cases hs
    exact ⟨hscanned, hexcluded, rfl, hbase, rfl⟩
  · intro h
    refine ⟨_, h.scanPaths, _, h.excludePaths, _, h.baseDirectory, ?_⟩
    rw [← h.fileExtensions, ← h.ignoreParseFailures]
    rfl

theorem exists_canonicalForms (d : Disk) (paths : List String)
    (h : ∀ path ∈ paths, pathExists d path = true) :
    ∃ texts, List.Forall₂ d.CanonicalForm paths texts := by
  induction paths with
  | nil => exact ⟨[], .nil⟩
  | cons path paths ih =>
    obtain ⟨place, hends⟩ := (d.exists_endsAt_iff path).1 (h path List.mem_cons_self)
    obtain ⟨texts, htexts⟩ := ih fun p hp => h p (List.mem_cons_of_mem path hp)
    exact ⟨FileTree.placeText place :: texts, .cons ⟨place, hends, rfl⟩ htexts⟩

/-- Paths that all exist give settings. -/
theorem exists_ofPaths (d : Disk) (scanPaths excludePaths fileExtensions : List String)
    (baseDirectory : String) (ignoreParseFailures : Bool)
    (hpaths : ∀ path ∈ scanPaths ++ excludePaths, pathExists d path = true)
    (hbase : pathExists d baseDirectory = true) :
    ∃ s, ofPaths d scanPaths excludePaths fileExtensions baseDirectory ignoreParseFailures =
      .ok s := by
  obtain ⟨scanned, hscanned⟩ := exists_canonicalForms d scanPaths
    fun path hpath => hpaths path (List.mem_append_left _ hpath)
  obtain ⟨excluded, hexcluded⟩ := exists_canonicalForms d excludePaths
    fun path hpath => hpaths path (List.mem_append_right _ hpath)
  obtain ⟨place, hends⟩ := (d.exists_endsAt_iff baseDirectory).1 hbase
  refine ⟨⟨scanned, excluded, fileExtensions.map Path.dotted, FileTree.placeText place,
    ignoreParseFailures⟩, ?_⟩
  apply (ofPaths_eq_ok_iff _ _ _ _ _ _ _).2
  exact ⟨hscanned, hexcluded, rfl, ⟨place, hends, rfl⟩, rfl⟩

theorem head?_dotted (extension : String) :
    (Path.dotted extension).toList.head? = some '.' := by
  unfold Path.dotted
  by_cases hpoint : (extension.toList.head? == some '.') = true
  · rw [if_pos hpoint]
    exact beq_iff_eq.1 hpoint
  · rw [if_neg hpoint, String.toList_append]
    rfl

/-- An extension has its point from the first time on. -/
theorem dotted_dotted (extension : String) :
    Path.dotted (Path.dotted extension) = Path.dotted extension := by
  have hpoint := head?_dotted extension
  generalize Path.dotted extension = dotted at hpoint
  rw [Path.dotted, hpoint]
  rfl

theorem canonicalForms_again (d : Disk) (paths texts : List String)
    (hnamed : d.tree.root.Named) (h : List.Forall₂ d.CanonicalForm paths texts) :
    List.Forall₂ d.CanonicalForm texts texts := by
  induction h with
  | nil => exact .nil
  | cons hform hforms ih => exact .cons (hform.again hnamed) ih

/-- Settings that are made from the paths, the extensions and the flag of settings are these
settings. -/
theorem ofPaths_again (d : Disk) (scanPaths excludePaths fileExtensions : List String)
    (baseDirectory : String) (ignoreParseFailures : Bool) (s : Settings)
    (hnamed : d.tree.root.Named)
    (h : ofPaths d scanPaths excludePaths fileExtensions baseDirectory ignoreParseFailures =
      .ok s) :
    ofPaths d s.scanPaths s.excludePaths s.fileExtensions s.baseDirectory
      s.ignoreParseFailures = .ok s := by
  have hs := (ofPaths_eq_ok_iff _ _ _ _ _ _ s).1 h
  have hdotted : Path.dotted ∘ Path.dotted = Path.dotted := by
    funext extension
    exact dotted_dotted extension
  apply (ofPaths_eq_ok_iff _ _ _ _ _ _ s).2
  refine ⟨?_, ?_, ?_, hs.baseDirectory.again hnamed, rfl⟩
  · exact canonicalForms_again d scanPaths _ hnamed hs.scanPaths
  · exact canonicalForms_again d excludePaths _ hnamed hs.excludePaths
  · rw [hs.fileExtensions, List.map_map, hdotted]

/-- A settings file of a directory that is not scanned. Its scan path does not exist. -/
def configText : String :=
  "\x7b\"scanPaths\":[\"gone\"],\"excludePaths\":[\"vendor\"]\x7d"

/-- The directory `conf` has a settings file and a link into the directory `src`. -/
def configuredDisk : Disk where
  tree :=
    { entries :=
        [("conf", .directory [("c.json", .file (configText.toList.map Char.toUInt8)),
            ("vendor", .link "../src/gen/.")]),
          ("src", .directory [("A.php", .file []), ("gen", .directory [])])]
      ordered := by decide }
  directory := ["conf"]

theorem named_configuredDisk : configuredDisk.tree.root.Named := by
  decide

/-- The parent of what a link leads to, a link with a slash behind it, and the working
directory. -/
theorem ofPaths_again_links :
    configuredDisk.tree.root.Named ∧
      ofPaths configuredDisk ["vendor/..//A.php"] ["./vendor/"] ["php", ".inc"] "." false =
        .ok ⟨["/src/A.php"], ["/src/gen"], [".php", ".inc"], "/conf", false⟩ ∧
      ofPaths configuredDisk ["/src/A.php"] ["/src/gen"] [".php", ".inc"] "/conf" false =
        .ok ⟨["/src/A.php"], ["/src/gen"], [".php", ".inc"], "/conf", false⟩ := by
  obtain ⟨hfile, hlink, hbase⟩ :
      configuredDisk.locate .follow "vendor/..//A.php" = .ok ["src", "A.php"] ∧
      configuredDisk.locate .follow "./vendor/" = .ok ["src", "gen"] ∧
      configuredDisk.locate .follow "." = .ok ["conf"] := by
    simp [Disk.locate, FileTree.steps, Path.pieces, Path.isAbsolute, FileTree.linkLimit,
      FileTree.resolve, FileTree.at?, FileTree.root, Node.at?, Node.child?, List.lookup_cons,
      configuredDisk]
  have hmade : ofPaths configuredDisk ["vendor/..//A.php"] ["./vendor/"] ["php", ".inc"] "."
      false = .ok ⟨["/src/A.php"], ["/src/gen"], [".php", ".inc"], "/conf", false⟩ := by
    apply (ofPaths_eq_ok_iff _ _ _ _ _ _ _).2
    refine ⟨.cons ⟨_, ⟨hfile, _, rfl, by simp⟩, ?_⟩ .nil,
      .cons ⟨_, ⟨hlink, _, rfl, by simp⟩, ?_⟩ .nil, ?_, ⟨_, ⟨hbase, _, rfl, by simp⟩, ?_⟩, rfl⟩
    all_goals decide +kernel
  exact ⟨named_configuredDisk, hmade,
    ofPaths_again _ _ _ _ _ _ _ named_configuredDisk hmade⟩

end Settings

end Redeclaration
