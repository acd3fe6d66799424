import Redeclaration.Proofs.Candidate.Walk
import Redeclaration.Proofs.Detection.ScanPaths
import Redeclaration.Proofs.Settings.File
import Redeclaration.Proofs.Text.Search

/-!
What the excluded paths of a settings file keep out of a run. An excluded path stands for the
place that it ends at, with links followed, while a candidate keeps its own name. Main
statement: whatever stands at that place or below it is counted as excluded and declares
nothing. A link that is excluded stands for its target, so that the link itself is left out
only if its path happens to hold an excluded text.
-/

namespace Redeclaration

open FileTree

namespace FileTree

/-- Only the text of the root ends with a slash. -/
theorem eq_nil_of_placeText_slash (place : List String) (front : List Char)
    (hplace : ∀ u ∈ place, Path.IsName u) (h : (placeText place).toList = front ++ ['/']) :
    place = [] := by
  by_contra hroot
  obtain ⟨above, name, rfl⟩ := (List.eq_nil_or_concat' place).resolve_left hroot
  have hname := hplace name (by simp)
  obtain ⟨start, c, hc⟩ := (List.eq_nil_or_concat' name.toList).resolve_left
    (Path.toList_ne name [] hname.ne_empty)
  rw [toList_placeText _ hroot, List.flatMap_append, List.flatMap_singleton, hc,
    ← List.cons_append, ← List.append_assoc] at h
  -- The last character of the text is that of its last name.
  have hlast : c = '/' := List.singleton_inj.1 (List.append_inj' h rfl).2
  apply hname.no_slash
  rw [hc, hlast]
  simp

/-- One more name makes the text of a place longer. -/
theorem join_placeText (place : List String) (name : String)
    (hplace : ∀ u ∈ place, Path.IsName u) (hname : Path.IsName name) :
    Path.join (placeText place) name = placeText (place ++ [name]) := by
  have hrelative := Path.isAbsolute_of_isName name hname
  apply String.toList_inj.1
  rw [toList_placeText (place ++ [name]) (by simp), List.flatMap_append, List.flatMap_singleton]
  by_cases hroot : place = []
  · have hslash : Path.join (placeText []) name = "/" ++ name := by
      rw [Path.join, hrelative]
      rfl
    rw [hroot, hslash, String.toList_append]
    rfl
  rcases Path.join_cases (placeText place) name hrelative with
    ⟨hempty, -⟩ | ⟨front, hfront, -⟩ | ⟨-, hjoin⟩
  · have habsolute := isAbsolute_placeText place
    rw [hempty] at habsolute
    cases habsolute
  · exact absurd (eq_nil_of_placeText_slash place front hplace hfront) hroot
  · rw [hjoin, toList_placeText place hroot]

theorem pathBelow_placeText (place names : List String)
    (hplace : ∀ u ∈ place, Path.IsName u) (hnames : ∀ u ∈ names, Path.IsName u) :
    Candidate.pathBelow (placeText place) names = placeText (place ++ names) := by
  induction names generalizing place with
  | nil => rw [List.append_nil]; rfl
  | cons name names ih =>
    have hname := hnames name List.mem_cons_self
    have hlonger : ∀ u ∈ place ++ [name], Path.IsName u := by
      intro u hu
      rcases List.mem_append.1 hu with hu | hu
      · exact hplace u hu
      · rwa [List.mem_singleton.1 hu]
    have hrest := ih (place ++ [name]) hlonger fun u hu => hnames u (List.mem_cons_of_mem name hu)
    rw [List.append_assoc, List.singleton_append] at hrest
    rw [← hrest, ← join_placeText place name hplace hname]
    rfl

/-- The text of a place starts with the text of each place above it. -/
theorem placeText_isPrefix (above place : List String) (h : above <+: place) :
    (placeText above).toList <+: (placeText place).toList := by
  obtain ⟨names, rfl⟩ := h
  by_cases hroot : above = []
  · -- Every absolute path starts with the slash of the root.
    obtain ⟨body, hbody⟩ := Path.exists_body _ (isAbsolute_placeText (above ++ names))
    rw [hbody, hroot]
    exact ⟨body, rfl⟩
  · rw [toList_placeText above hroot, toList_placeText (above ++ names) (by simp [hroot]),
      List.flatMap_append]
    exact List.prefix_append _ _

end FileTree

namespace Disk

/-- A path that ends with no link ends at its own entry. -/
theorem endsAt_of_inspect (d : Disk) (path : String) (entry : List String) (n : Node)
    (hentry : d.locate .inspect path = .ok entry) (hn : d.tree.at? entry = some n)
    (hlink : ∀ target, n ≠ .link target) : d.EndsAt path entry := by
  obtain ⟨hempty, hnul, hresolve⟩ := d.locate_eq_ok .inspect path entry hentry
  refine ⟨?_, n, hn, hlink⟩
  rw [locate, if_neg (by simpa using hempty), if_neg hnul]
  exact d.tree.resolve_follow_of_inspect _ _ _ entry n hn hlink hresolve

end Disk

namespace Candidate

/-- A candidate of a canonical scan path is the text of its own entry, whatever links lead to
other names of the same file. -/
theorem exists_entry_of_mem_ofRoot (d : Disk) (extensions : List String) (given root : String)
    (c : Candidate) (hnamed : d.tree.root.Named) (hroot : d.CanonicalForm given root)
    (h : c ∈ ofRoot d extensions root) :
    ∃ entry, c = .ok (placeText entry) ∧ d.locate .inspect (placeText entry) = .ok entry := by
  obtain ⟨place, hends, rfl⟩ := hroot
  obtain ⟨n, hn, -⟩ := hends.reached
  have hplace := (d.endsAt_placeText given place hnamed hends).located
  have hordered := Node.ordered_at? _ _ place d.tree.ordered hn
  rw [ofRoot_eq_below d extensions _ place n hplace hn] at h
  obtain ⟨path, hbelow, rfl⟩ := List.mem_map.1 h
  obtain ⟨hleaf, -⟩ := List.mem_filter.1 hbelow
  obtain ⟨names, hmem, rfl⟩ := List.mem_map.1 hleaf
  obtain ⟨m, hm, -⟩ := (Node.mem_leaves_iff n names hordered).1 hmem
  have hat : d.tree.at? (place ++ names) = some m := by
    rw [FileTree.at?, Node.at?_append, ← FileTree.at?, hn]
    exact hm
  have hnames := Node.isName_of_at? _ m _ hnamed hat
  have htext := pathBelow_placeText place names
    (fun u hu => hnames u (List.mem_append_left names hu))
    (fun u hu => hnames u (List.mem_append_right place hu))
  refine ⟨place ++ names, congrArg _ htext, ?_⟩
  exact d.locate_placeText .inspect _ m hnamed hat fun _ _ => rfl

/-- A run leaves a candidate out: it does not read it, counts it as excluded, and finds what it
would find without it. -/
structure LeftOut (d : Disk) (s : Settings) (c : Candidate) : Prop where
  excluded : c.isExcluded s = true
  unread : c.failure? d s = none
  counted : ∀ before after f, candidates d s = before ++ c :: after →
    (detect d s).outcome = .ok f →
      f.filesExcluded = (Findings.ofCandidates d s (before ++ after)).filesExcluded + 1 ∧
      f.filesAnalysed = (Findings.ofCandidates d s (before ++ after)).filesAnalysed ∧
      f.collisions = (Findings.ofCandidates d s (before ++ after)).collisions

theorem leftOut_of_isExcluded (d : Disk) (s : Settings) (c : Candidate)
    (h : c.isExcluded s = true) : LeftOut d s c := by
  have hanalysed : c.isAnalysed d s = false := by
    simp [isAnalysed, h]
  have hseen := sightings_of_not_isAnalysed d s c hanalysed
  refine ⟨h, ?_, ?_⟩
  · rcases Verdict.of_cases d s c with ⟨path, -, -, hnone, -⟩ | ⟨e, -, hx, -⟩ | ⟨path, ds, -, hx, -⟩
    · exact hnone
    · rw [h] at hx
      cases hx
    · rw [h] at hx
      cases hx
  · intro before after f hcs hf
    obtain ⟨-, rfl⟩ := (detect_eq_ok_iff d s f).1 hf
    rw [hcs]
    refine ⟨?_, ?_, ?_⟩
    · simp [Findings.ofCandidates, List.countP_append, hanalysed, Nat.add_assoc]
    · simp [Findings.ofCandidates, List.countP_append, hanalysed]
    · simp [Findings.ofCandidates, hseen]

end Candidate

namespace Settings

/-- What is scanned and excluded under the settings of a file are the canonical forms of its
targets. -/
theorem resolved_of_ofFile (d : Disk) (cwd : String) (provided : List String) (file : String)
    (doc : Document) (s : Settings) (hdoc : readDocument d (Path.join cwd file) = .ok doc)
    (hs : ofFile d cwd provided file = .ok s) :
    let home := (Path.parent? (Path.join cwd file)).getD cwd
    Resolved d (scanTargets cwd provided home doc) (excludeTargets home doc)
      doc.fileExtensions cwd doc.ignoreParseFailures s := by
  intro home
  have hmade : ofDocument d cwd provided home doc = .ok s := by
    unfold ofFile at hs
    dsimp only at hs
    rw [hdoc] at hs
    exact hs
  rw [ofDocument_eq] at hmade
  split at hmade
  · cases hmade
  · exact (ofPaths_eq_ok_iff _ _ _ _ _ _ s).1 hmade

theorem mem_canonicalForms_iff (d : Disk) (paths texts : List String)
    (h : List.Forall₂ d.CanonicalForm paths texts) (text : String) :
    text ∈ texts ↔ ∃ path ∈ paths, d.CanonicalForm path text := by
  induction h with
  | nil => simp
  | @cons path canonical paths texts hform _ ih =>
    have hfirst : text = canonical ↔ d.CanonicalForm path text := by
      constructor
      · intro heq
        rwa [heq]
      · intro hother
        obtain ⟨place, hends, rfl⟩ := hform
        obtain ⟨place', hends', rfl⟩ := hother
        cases hends.located.symm.trans hends'.located
        rfl
    rw [List.mem_cons, List.exists_mem_cons_iff, ih, hfirst]

/-- A candidate is excluded by the text of a place that an excluded path ends at. -/
theorem isExcluded_iff (d : Disk) (s : Settings) (targets : List String) (path : String)
    (h : List.Forall₂ d.CanonicalForm targets s.excludePaths) :
    Candidate.isExcluded s (.ok path) = true ↔
      ∃ e ∈ targets, ∃ place, d.EndsAt e place ∧
        (placeText place).toList <:+: path.toList := by
  rw [Candidate.isExcluded, isExcluded, List.any_eq_true]
  constructor
  · intro hmatch
    obtain ⟨text, htext, hoccurs⟩ := hmatch
    obtain ⟨e, he, place, hends, rfl⟩ := (mem_canonicalForms_iff d _ _ h text).1 htext
    exact ⟨e, he, place, hends, (Text.occursIn_iff _ _).1 hoccurs⟩
  · intro htarget
    obtain ⟨e, he, place, hends, hinfix⟩ := htarget
    refine ⟨placeText place, ?_, (Text.occursIn_iff _ _).2 hinfix⟩
    exact (mem_canonicalForms_iff d _ _ h _).2 ⟨e, he, place, hends, rfl⟩

theorem exists_endsAt_of_mem (d : Disk) (paths texts : List String) (path : String)
    (h : List.Forall₂ d.CanonicalForm paths texts) (hpath : path ∈ paths) :
    ∃ place, d.EndsAt path place := by
  induction h with
  | nil => cases hpath
  | cons hform _ ih =>
    rcases List.mem_cons.1 hpath with rfl | hpath
    · obtain ⟨place, hends, -⟩ := hform
      exact ⟨place, hends⟩
    · exact ih hpath

/-- A settings file excludes the places that its excluded paths end at, links followed. The
candidates of the scan paths keep their own names: each is the text of an entry of the tree.
So a candidate that stands at such a place or below it is left out, and with it whatever
stands at or below an excluded path that is no link. As to all others, a candidate is left out
exactly if the text of such a place occurs in its path. -/
theorem excluded_places_left_out (d : Disk) (cwd : String) (provided : List String)
    (file : String) (doc : Document) (s : Settings) (hnamed : d.tree.root.Named)
    (hdoc : readDocument d (Path.join cwd file) = .ok doc)
    (hs : ofFile d cwd provided file = .ok s) :
    let home := (Path.parent? (Path.join cwd file)).getD cwd
    (∀ e ∈ excludeTargets home doc, ∃ place, d.EndsAt e place ∧
      (∀ named n, d.locate .inspect e = .ok named → d.tree.at? named = some n →
        (∀ target, n ≠ .link target) → named = place) ∧
      ∀ c ∈ candidates d s, ∃ entry, c = .ok (placeText entry) ∧
        d.locate .inspect (placeText entry) = .ok entry ∧
        (place <+: entry → c.LeftOut d s)) ∧
    ∀ path, .ok path ∈ candidates d s →
      (Candidate.isExcluded s (.ok path) = true ↔
        ∃ e ∈ excludeTargets home doc, ∃ place, d.EndsAt e place ∧
          (placeText place).toList <:+: path.toList) := by
  intro home
  have hresolved := resolved_of_ofFile d cwd provided file doc s hdoc hs
  have hexcluded (path : String) :=
    isExcluded_iff d s (excludeTargets home doc) path hresolved.excludePaths
  refine ⟨?_, fun path _ => hexcluded path⟩
  intro e he
  obtain ⟨place, hends⟩ := exists_endsAt_of_mem d _ _ e hresolved.excludePaths he
  refine ⟨place, hends, ?_, ?_⟩
  · intro named n hown hn hlink
    have hself := (d.endsAt_of_inspect e named n hown hn hlink).located
    exact Except.ok.inj (hself.symm.trans hends.located)
  · intro c hc
    obtain ⟨root, hroot, hmem⟩ := List.mem_flatMap.1 hc
    obtain ⟨given, -, hform⟩ := (mem_canonicalForms_iff d _ _ hresolved.scanPaths root).1 hroot
    obtain ⟨entry, rfl, hentry⟩ :=
      Candidate.exists_entry_of_mem_ofRoot d s.fileExtensions given root c hnamed hform hmem
    refine ⟨entry, rfl, hentry, ?_⟩
    intro hbelow
    -- The text of the place is where the path of the candidate starts.
    apply Candidate.leftOut_of_isExcluded
    apply (hexcluded _).2
    exact ⟨e, he, place, hends, (placeText_isPrefix place entry hbelow).isInfix⟩

/-- A settings file that excludes a link. -/
def linkConfig : String :=
  "\x7b\"scanPaths\":[\"src\"],\"excludePaths\":[\"src/b.php\"]\x7d"

/-- The directory `src` holds a class and a link to it, and the link is excluded. -/
def linkedDisk : Disk where
  tree :=
    { entries :=
        [("c.json", .file (linkConfig.toList.map Char.toUInt8)),
          ("src", .directory [("a.php", classFile), ("b.php", .link "a.php")])]
      ordered := by decide }
  directory := []

theorem named_linkedDisk : linkedDisk.tree.root.Named := by
  decide

/-- The settings of the file: the link has given way to the class that it leads to. -/
def linkedSettings : Settings :=
  ⟨["/src"], ["/src/a.php"], [".php"], "/", false⟩

theorem locate_linkedDisk :
    linkedDisk.locate .follow "/" = .ok [] ∧
      linkedDisk.locate .follow "/c.json" = .ok ["c.json"] ∧
      linkedDisk.locate .follow "/src" = .ok ["src"] ∧
      linkedDisk.locate .follow "/src/b.php" = .ok ["src", "a.php"] ∧
      linkedDisk.locate .inspect "/src/b.php" = .ok ["src", "b.php"] ∧
      linkedDisk.locate .inspect "/src/a.php" = .ok ["src", "a.php"] := by
  simp [Disk.locate, FileTree.steps, Path.pieces, Path.isAbsolute, FileTree.linkLimit,
    FileTree.resolve, FileTree.at?, FileTree.root, Node.at?, Node.child?, List.lookup_cons,
    linkedDisk, classFile]

theorem ofFile_linkedDisk :
    readDocument linkedDisk "/c.json" = .ok ⟨["src"], ["src/b.php"], ["php"], false⟩ ∧
      ofFile linkedDisk "/" [] "c.json" = .ok linkedSettings := by
  obtain ⟨hroot, hfile, hscan, hlink, -⟩ := locate_linkedDisk
  have hread : linkedDisk.read "/c.json" = .ok (linkConfig.toList.map Char.toUInt8) := by
    rw [Disk.read, hfile]
    rfl
  have htext : Text.decode? (linkConfig.toList.map Char.toUInt8) = some linkConfig := by
    decide +kernel
  have hdoc : Document.read linkConfig = .ok ⟨["src"], ["src/b.php"], ["php"], false⟩ := by
    decide +kernel
  have hisFile := linkedDisk.isFile_of_read _ _ hread
  refine ⟨?_, ?_⟩
  · simp [readDocument, hisFile, hread, htext, hdoc, bind, Except.bind, Except.mapError]
  · have hbase : linkedDisk.EndsAt "/" [] :=
      ⟨hroot, .directory _, rfl, fun _ h => by cases h⟩
    have hsource : linkedDisk.EndsAt "/src" ["src"] :=
      ⟨hscan, .directory _, rfl, fun _ h => by cases h⟩
    have hclass : linkedDisk.EndsAt "/src/b.php" ["src", "a.php"] :=
      ⟨hlink, classFile, rfl, fun _ h => by cases h⟩
    have hscanned : scanTargets "/" [] "/" ⟨["src"], ["src/b.php"], ["php"], false⟩ =
        ["/src"] := by
      decide +kernel
    have hexcluded : excludeTargets "/" ⟨["src"], ["src/b.php"], ["php"], false⟩ =
        ["/src/b.php"] := by
      decide +kernel
    have hexists : firstMissing? linkedDisk ["/src", "/src/b.php"] = none := by
      apply (firstMissing?_eq_none_iff _ _).2
      simp [(linkedDisk.exists_endsAt_iff _).2 ⟨_, hsource⟩,
        (linkedDisk.exists_endsAt_iff _).2 ⟨_, hclass⟩]
    rw [ofFile_eq_ofDocument linkedDisk "/" [] "c.json" "/" linkConfig _ _ hread htext hdoc
      (by decide +kernel), ofDocument_eq, hscanned, hexcluded, List.singleton_append, hexists]
    apply (ofPaths_eq_ok_iff _ _ _ _ _ _ _).2
    refine ⟨.cons ⟨_, hsource, ?_⟩ .nil, .cons ⟨_, hclass, ?_⟩ .nil, ?_, ⟨_, hbase, ?_⟩, rfl⟩
    all_goals decide +kernel

theorem candidates_linkedDisk :
    candidates linkedDisk linkedSettings = [.ok "/src/a.php", .ok "/src/b.php"] := by
  cbv

/-- The class is left out, although only the link to it is excluded. -/
theorem excluded_places_left_out_target :
    linkedDisk.tree.root.Named ∧
      readDocument linkedDisk "/c.json" = .ok ⟨["src"], ["src/b.php"], ["php"], false⟩ ∧
      ofFile linkedDisk "/" [] "c.json" = .ok linkedSettings ∧
      .ok "/src/a.php" ∈ candidates linkedDisk linkedSettings ∧
      Candidate.LeftOut linkedDisk linkedSettings (.ok "/src/a.php") := by
  obtain ⟨hdoc, hs⟩ := ofFile_linkedDisk
  have hmem : .ok "/src/a.php" ∈ candidates linkedDisk linkedSettings := by
    rw [candidates_linkedDisk]
    exact List.mem_cons_self
  refine ⟨named_linkedDisk, hdoc, hs, hmem, ?_⟩
  obtain ⟨hplaces, -⟩ := excluded_places_left_out linkedDisk "/" [] "c.json" _ _ named_linkedDisk
    hdoc hs
  obtain ⟨place, hends, -, hleft⟩ := hplaces "/src/b.php" (by decide +kernel)
  obtain ⟨entry, hpath, hentry, hout⟩ := hleft _ hmem
  -- The excluded path ends where the candidate stands.
  have hplace : place = ["src", "a.php"] :=
    Except.ok.inj (hends.located.symm.trans locate_linkedDisk.2.2.2.1)
  have hsame : entry = ["src", "a.php"] := by
    rw [← Except.ok.inj hpath] at hentry
    exact Except.ok.inj (hentry.symm.trans locate_linkedDisk.2.2.2.2.2)
  apply hout
  rw [hplace, hsame]

/-- An excluded link is analysed under its own name. -/
theorem excluded_link_analysed :
    linkedDisk.tree.root.Named ∧
      readDocument linkedDisk "/c.json" = .ok ⟨["src"], ["src/b.php"], ["php"], false⟩ ∧
      "/src/b.php" ∈ excludeTargets "/" ⟨["src"], ["src/b.php"], ["php"], false⟩ ∧
      linkedDisk.locate .inspect "/src/b.php" = .ok ["src", "b.php"] ∧
      ofFile linkedDisk "/" [] "c.json" = .ok linkedSettings ∧
      .ok "/src/b.php" ∈ candidates linkedDisk linkedSettings ∧
      Candidate.sightings linkedDisk linkedSettings (.ok "/src/b.php") =
        [⟨.type, "A", ⟨"src/b.php", 1⟩⟩] ∧
      ¬ Candidate.LeftOut linkedDisk linkedSettings (.ok "/src/b.php") := by
  obtain ⟨hdoc, hs⟩ := ofFile_linkedDisk
  have hkept : isExcluded linkedSettings.excludePaths "/src/b.php" = false := by decide +kernel
  refine ⟨named_linkedDisk, hdoc, by decide +kernel, locate_linkedDisk.2.2.2.2.1, hs, ?_, ?_, ?_⟩
  · rw [candidates_linkedDisk]
    simp
  · have hread : linkedDisk.read "/src/b.php" =
        .ok [60, 63, 61, 99, 108, 97, 115, 115, 32, 65, 59] := by
      rw [Disk.read, locate_linkedDisk.2.2.2.1]
      rfl
    rw [Candidate.sightings, hkept, if_neg Bool.false_ne_true, Candidate.tokens, hread]
    cbv
  · intro hleft
    have hexcluded := hleft.excluded
    rw [Candidate.isExcluded, hkept] at hexcluded
    cases hexcluded

end Settings

end Redeclaration
