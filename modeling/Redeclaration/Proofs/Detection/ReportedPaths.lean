import Redeclaration.Proofs.Detection.ScanPaths
import Redeclaration.Proofs.Path.Bytes
import Redeclaration.Proofs.Settings

/-!
The paths of a report. A run shows each file by its path below the base directory, or by the
path itself, as a text. Main statement: if what is reported is a text, the path that is shown
leads from the base directory back to the file, so that two such files with different components
are never shown by one path. Names that are no texts are shown alike, and so are backslashes
and slashes.
-/

namespace Redeclaration

namespace Settings

/-- The base directory and the scan paths do not depend on a working directory. -/
structure Rooted (s : Settings) : Prop where
  baseDirectory : Path.isAbsolute s.baseDirectory.toList = true
  scanPaths : ∀ path ∈ s.scanPaths, Path.isAbsolute path.toList = true

theorem isAbsolute_of_canonicalForms (d : Disk) (paths texts : List String)
    (h : List.Forall₂ d.CanonicalForm paths texts) :
    ∀ text ∈ texts, Path.isAbsolute text.toList = true := by
  induction h with
  | nil => nofun
  | cons hform _ ih => exact List.forall_mem_cons.2 ⟨hform.isAbsolute, ih⟩

theorem rooted_ofPaths (d : Disk) (scanPaths excludePaths fileExtensions : List String)
    (baseDirectory : String) (ignoreParseFailures : Bool) (s : Settings)
    (h : ofPaths d scanPaths excludePaths fileExtensions baseDirectory ignoreParseFailures =
      .ok s) : s.Rooted := by
  have hs := (ofPaths_eq_ok_iff _ _ _ _ _ _ s).1 h
  exact ⟨hs.baseDirectory.isAbsolute, isAbsolute_of_canonicalForms d _ _ hs.scanPaths⟩

end Settings

namespace Candidate

theorem isAbsolute_pathBelow (root : String) (names : List String)
    (h : Path.isAbsolute root.toList = true) :
    Path.isAbsolute (pathBelow root names).toList = true := by
  induction names generalizing root with
  | nil => exact h
  | cons name names ih => exact ih _ (Path.isAbsolute_join_of_isAbsolute root name h)

/-- A candidate is the scan path itself or goes on from it. -/
theorem exists_names_of_mem_ofRoot (d : Disk) (extensions : List String) (root path : String)
    (h : .ok path ∈ ofRoot d extensions root) : ∃ names, path = pathBelow root names := by
  cases hplace : d.locate .follow root with
  | error why =>
    -- The only candidate is the failure to list the path.
    have hfile : d.isFile root = false := by
      simp [Disk.isFile, Disk.find?, hplace]
    simp [ofRoot, hfile, hplace] at h
  | ok place =>
    cases hn : d.tree.at? place with
    | none =>
      rw [ofRoot_of_nowhere d extensions root place hplace hn] at h
      cases h
    | some n =>
      rw [ofRoot_eq_below d extensions root place n hplace hn] at h
      obtain ⟨path', hbelow, hpath⟩ := List.mem_map.1 h
      obtain ⟨hleaf, -⟩ := List.mem_filter.1 hbelow
      obtain ⟨names, -, hnames⟩ := List.mem_map.1 hleaf
      exact ⟨names, by rw [hnames, Except.ok.inj hpath]⟩

theorem isAbsolute_of_mem_candidates (d : Disk) (s : Settings) (hs : s.Rooted) (path : String)
    (h : .ok path ∈ candidates d s) : Path.isAbsolute path.toList = true := by
  obtain ⟨root, hroot, hpath⟩ := List.mem_flatMap.1 h
  obtain ⟨names, rfl⟩ := exists_names_of_mem_ofRoot d s.fileExtensions root path hpath
  exact isAbsolute_pathBelow root names (hs.scanPaths root hroot)

theorem exists_path_of_mem_sightings (d : Disk) (s : Settings) (c : Candidate) (x : Sighting)
    (h : x ∈ c.sightings d s) :
    ∃ path, c = .ok path ∧ x.location.path = Path.shown s.baseDirectory path := by
  cases c with
  | error e => cases h
  | ok path =>
    refine ⟨path, rfl, ?_⟩
    simp only [sightings] at h
    split at h
    · cases h
    · split at h
      · cases h
      · obtain ⟨y, -, rfl⟩ := List.mem_map.1 h
        rfl

end Candidate

/-- A location of a report belongs to a candidate. -/
theorem exists_candidate_of_location (d : Disk) (s : Settings) (f : Findings)
    (hf : (detect d s).outcome = .ok f) (c : Collision) (hc : c ∈ f.collisions) (l : Location)
    (hl : l ∈ c.locations) :
    ∃ path, .ok path ∈ candidates d s ∧ l.path = Path.shown s.baseDirectory path := by
  obtain ⟨-, rfl⟩ := (detect_eq_ok_iff d s f).1 hf
  obtain ⟨-, hlocations, -⟩ := (mem_collisions_iff _ c).1 hc
  obtain ⟨x, hx, rfl⟩ : ∃ x ∈ (candidates d s).flatMap (·.sightings d s), x.location = l := by
    have hmem := hlocations.mem_iff.1 hl
    obtain ⟨x, hx, hxl⟩ := List.mem_map.1 hmem
    exact ⟨x, (List.mem_filter.1 hx).1, hxl⟩
  obtain ⟨candidate, hcandidate, hseen⟩ := List.mem_flatMap.1 hx
  obtain ⟨path, rfl, hpath⟩ := Candidate.exists_path_of_mem_sightings d s candidate x hseen
  exact ⟨path, hcandidate, hpath⟩

/-- A file in a directory, and a file whose name is written with a backslash in place of the
slash. -/
def backslashed : Disk where
  tree :=
    { entries := [("s", .directory [("a", .directory [("t", classFile)]), ("a\\t", classFile)])]
      ordered := by decide }
  directory := []

/-- Names that are no texts lose the bytes by which they differ, and what is shown leads to
neither file. A backslash is shown as a slash, so that the two files of a collision can be shown
as one. -/
theorem files_shown_alike :
    (let base := Text.bytes "/w"
      let p := Text.bytes "/w/a" ++ 0xFF :: Text.bytes ".php"
      let q := Text.bytes "/w/a" ++ 0xFE :: Text.bytes ".php"
      Path.isAbsolute (Path.ofBytes base).toList = true ∧
        Path.isAbsolute (Path.ofBytes p).toList = true ∧
        Path.isAbsolute (Path.ofBytes q).toList = true ∧ 0x5C ∉ p ∧ 0x5C ∉ q ∧
        Path.components (Path.ofBytes p).toList ≠ Path.components (Path.ofBytes q).toList ∧
        Path.shownBytes base p = "a\ufffd.php" ∧ Path.shownBytes base q = "a\ufffd.php" ∧
        Path.components (Path.join (Path.ofBytes base)
          (Path.ofBytes (Text.bytes (Path.shownBytes base p)))).toList ≠
            Path.components (Path.ofBytes p).toList) ∧
      candidates backslashed (scanning ["/s"]) = [.ok "/s/a/t", .ok "/s/a\\t"] ∧
      Path.components "/s/a/t".toList ≠ Path.components "/s/a\\t".toList ∧
      Path.shown "/" "/s/a/t" = "s/a/t" ∧ Path.shown "/" "/s/a\\t" = "s/a/t" ∧
      (detect backslashed (scanning ["/s"])).outcome =
        .ok ⟨2, 0, [⟨.type, "A", [⟨"s/a/t", 1⟩, ⟨"s/a/t", 1⟩]⟩]⟩ := by
  refine ⟨?_, ?_, ?_, ?_, ?_, ?_⟩
  · decide +kernel
  · cbv
  · decide
  · decide +kernel
  · decide +kernel
  · cbv

/-- What is shown of a path leads from the base back to the path, be it below the base or not, if
what is reported of it is a text, and only then. So paths with different components of which texts
are reported are shown differently. On a disk all names are texts: candidates with different
components are shown by different paths, and each location of a report leads to a candidate.
Settings that are made from any paths have absolute ones. -/
theorem shown_identifies :
    (∀ base path : List UInt8, Path.isAbsolute (Path.ofBytes base).toList = true →
      Path.isAbsolute (Path.ofBytes path).toList = true → 0x5C ∉ path →
      (Path.components (Path.join (Path.ofBytes base)
          (Path.ofBytes (Text.bytes (Path.shownBytes base path)))).toList =
            Path.components (Path.ofBytes path).toList ↔
        ∃ text, Text.bytes text = Path.reported base path)) ∧
    (∀ base p q : List UInt8, Path.isAbsolute (Path.ofBytes base).toList = true →
      Path.isAbsolute (Path.ofBytes p).toList = true →
      Path.isAbsolute (Path.ofBytes q).toList = true → 0x5C ∉ p → 0x5C ∉ q →
      (∃ text, Text.bytes text = Path.reported base p) →
      (∃ text, Text.bytes text = Path.reported base q) →
      Path.components (Path.ofBytes p).toList ≠ Path.components (Path.ofBytes q).toList →
      Path.shownBytes base p ≠ Path.shownBytes base q) ∧
    (∀ base path : String, Path.isAbsolute base.toList = true →
      Path.isAbsolute path.toList = true → '\\' ∉ path.toList →
      Path.components (Path.join base (Path.shown base path)).toList =
        Path.components path.toList) ∧
    (∀ (d : Disk) (s : Settings), s.Rooted → ∀ p q : String,
      .ok p ∈ candidates d s → .ok q ∈ candidates d s →
      '\\' ∉ p.toList → '\\' ∉ q.toList →
      Path.components p.toList ≠ Path.components q.toList →
      Path.shown s.baseDirectory p ≠ Path.shown s.baseDirectory q) ∧
    (∀ (d : Disk) (s : Settings) (f : Findings), s.Rooted → (detect d s).outcome = .ok f →
      ∀ c ∈ f.collisions, ∀ l ∈ c.locations, ∃ p, .ok p ∈ candidates d s ∧
        l.path = Path.shown s.baseDirectory p ∧
        ('\\' ∉ p.toList →
          Path.components (Path.join s.baseDirectory l.path).toList =
            Path.components p.toList)) ∧
    (∀ (d : Disk) (scanPaths excludePaths fileExtensions : List String) (baseDirectory : String)
      (ignoreParseFailures : Bool) (s : Settings),
      Settings.ofPaths d scanPaths excludePaths fileExtensions baseDirectory
        ignoreParseFailures = .ok s → s.Rooted) := by
  refine ⟨Path.components_join_shownBytes_iff, ?_, Path.components_join_shown, ?_, ?_,
    Settings.rooted_ofPaths⟩
  · intro base p q hbase hp hq hbackp hbackq htextp htextq hne hshown
    have hjoinp := (Path.components_join_shownBytes_iff base p hbase hp hbackp).2 htextp
    have hjoinq := (Path.components_join_shownBytes_iff base q hbase hq hbackq).2 htextq
    -- One path that is shown leads one way from the base, to both paths.
    rw [hshown] at hjoinp
    exact hne (hjoinp.symm.trans hjoinq)
  · intro d s hs p q hp hq hbackp hbackq hne hshown
    have hjoinp := Path.components_join_shown _ p hs.baseDirectory
      (Candidate.isAbsolute_of_mem_candidates d s hs p hp) hbackp
    have hjoinq := Path.components_join_shown _ q hs.baseDirectory
      (Candidate.isAbsolute_of_mem_candidates d s hs q hq) hbackq
    rw [hshown] at hjoinp
    exact hne (hjoinp.symm.trans hjoinq)
  · intro d s f hs hf c hc l hl
    obtain ⟨p, hp, hpath⟩ := exists_candidate_of_location d s f hf c hc l hl
    refine ⟨p, hp, hpath, ?_⟩
    intro hback
    rw [hpath]
    exact Path.components_join_shown _ p hs.baseDirectory
      (Candidate.isAbsolute_of_mem_candidates d s hs p hp) hback

/-- A path below its base, the base itself, a directory beside it whose name goes on, names in
bytes, and two files of one class. -/
theorem shown_identifies_twoClasses :
    Path.shown "/srv//app/." "/srv/./app/x//../y/." = "x//../y" ∧
      Path.components (Path.join "/srv//app/." "x//../y").toList =
        Path.components "/srv/./app/x//../y/.".toList ∧
      Path.shown "/srv//app/." "/srv/app" = "" ∧
      Path.components (Path.join "/srv//app/." "").toList = Path.components "/srv/app".toList ∧
      Path.shown "/srv//app/." "/srv/app2/x" = "/srv/app2/x" ∧
      Path.components (Path.join "/srv//app/." "/srv/app2/x").toList =
        Path.components "/srv/app2/x".toList ∧
      -- The base need not be a text for what is reported below it to be one.
      Text.bytes "é" = Path.reported [0x2F, 0xFF] [0x2F, 0xFF, 0x2F, 0xC3, 0xA9] ∧
      Path.components (Path.join (Path.ofBytes [0x2F, 0xFF]) (Path.ofBytes (Text.bytes
        (Path.shownBytes [0x2F, 0xFF] [0x2F, 0xFF, 0x2F, 0xC3, 0xA9])))).toList =
          Path.components (Path.ofBytes [0x2F, 0xFF, 0x2F, 0xC3, 0xA9]).toList ∧
      Path.shownBytes [0x2F, 0xFF] [0x2F, 0xFF, 0x2F, 0xC3, 0xA9] ≠
        Path.shownBytes [0x2F, 0xFF] [0x2F, 0x61] ∧
      candidates twoClasses (scanning ["/s", "/t"]) = [.ok "/s/t", .ok "/t"] ∧
      Path.shown "/" "/s/t" ≠ Path.shown "/" "/t" ∧
      (∃ p, .ok p ∈ candidates twoClasses (scanning ["/s", "/s/t"]) ∧
        "s/t" = Path.shown "/" p) ∧
      ∃ s, Settings.ofPaths twoClasses ["./s//", "t"] [] ["t"] "s/.." false = .ok s ∧
        s.Rooted := by
  obtain ⟨hbytes, hbytesapart, hback, happart, hreported, hmade⟩ := shown_identifies
  have hbelow : Path.shown "/srv//app/." "/srv/./app/x//../y/." = "x//../y" := by decide +kernel
  have hself : Path.shown "/srv//app/." "/srv/app" = "" := by decide +kernel
  have hbeside : Path.shown "/srv//app/." "/srv/app2/x" = "/srv/app2/x" := by decide +kernel
  have hcandidates : candidates twoClasses (scanning ["/s", "/t"]) = [.ok "/s/t", .ok "/t"] := by
    cbv
  have hrooted (paths : List String) (h : ∀ path ∈ paths, Path.isAbsolute path.toList = true) :
      (scanning paths).Rooted := ⟨by simp [scanning, Path.isAbsolute], h⟩
  have htext : Text.bytes "é" = Path.reported [0x2F, 0xFF] [0x2F, 0xFF, 0x2F, 0xC3, 0xA9] := by
    decide +kernel
  refine ⟨hbelow, ?_, hself, ?_, hbeside, ?_, htext, ?_, ?_, hcandidates, ?_, ?_, ?_⟩
  · have h := hback "/srv//app/." "/srv/./app/x//../y/." (by decide) (by decide) (by decide)
    rwa [hbelow] at h
  · have h := hback "/srv//app/." "/srv/app" (by decide) (by decide) (by decide)
    rwa [hself] at h
  · have h := hback "/srv//app/." "/srv/app2/x" (by decide) (by decide) (by decide)
    rwa [hbeside] at h
  · exact (hbytes _ _ (by decide) (by decide) (by decide)).2 ⟨"é", htext⟩
  · exact hbytesapart _ _ [0x2F, 0x61] (by decide) (by decide) (by decide) (by decide) (by decide)
      ⟨"é", htext⟩ ⟨"/a", by decide +kernel⟩ (by decide)
  · exact happart twoClasses (scanning ["/s", "/t"]) (hrooted _ (by decide)) "/s/t" "/t"
      (by simp [hcandidates]) (by simp [hcandidates]) (by decide) (by decide) (by decide)
  · obtain ⟨p, hp, hpath, -⟩ := hreported twoClasses (scanning ["/s", "/s/t"]) _
      (hrooted _ (by decide)) detect_overlapping _ List.mem_cons_self ⟨"s/t", 1⟩
      List.mem_cons_self
    exact ⟨p, hp, hpath⟩
  · have hpaths : ∀ path ∈ ["./s//", "t"] ++ [], Settings.pathExists twoClasses path = true := by
      intro path hpath
      obtain rfl | rfl : path = "./s//" ∨ path = "t" := by simpa using hpath
      all_goals cbv
    obtain ⟨s, hs⟩ := Settings.exists_ofPaths twoClasses ["./s//", "t"] [] ["t"] "s/.." false
      hpaths (by cbv)
    exact ⟨s, hs, hmade _ _ _ _ _ _ s hs⟩

end Redeclaration
