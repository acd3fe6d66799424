import Mathlib.Data.List.Nodup
import Redeclaration.Proofs.Candidate
import Redeclaration.Proofs.Text.Bytes

/-!
What a walk from a directory yields. Main statement: the walk yields the files
below the directory and the links that lead to no directory, those with one of the
extensions and no others, each of them once and in the order of their names.
-/

namespace Redeclaration

namespace Node

/-- The nodes at which a walk does not go on. -/
def IsLeaf : Node → Prop
  | .file _ | .link _ => True
  | .directory _ => False

theorem mem_leavesIn (entries : List (String × Node)) (names : List String)
    (h : names ∈ leavesIn entries) :
    ∃ e ∈ entries, ∃ leaf ∈ e.2.leaves, names = e.1 :: leaf := by
  induction entries with
  | nil => cases h
  | cons e entries ih =>
    rw [leavesIn, List.mem_append] at h
    rcases h with h | h
    · obtain ⟨leaf, hleaf, rfl⟩ := List.mem_map.1 h
      exact ⟨e, List.mem_cons_self, leaf, hleaf, rfl⟩
    · obtain ⟨e', he', hlater⟩ := ih h
      exact ⟨e', List.mem_cons_of_mem _ he', hlater⟩

/-- No two entries share their name, so that each is found by it. -/
theorem lookup_of_mem (entries : List (String × Node)) (e : String × Node)
    (h : entries.Pairwise fun a b => a.1 < b.1) (he : e ∈ entries) :
    entries.lookup e.1 = some e.2 := by
  induction entries with
  | nil => cases he
  | cons d entries ih =>
    obtain ⟨hfirst, hrest⟩ := List.pairwise_cons.1 h
    rcases List.mem_cons.1 he with rfl | he
    · rw [List.lookup_cons, beq_self_eq_true]
    · have hne : (e.1 == d.1) = false := beq_false_of_ne (hfirst e he).ne'
      rw [List.lookup_cons, hne]
      exact ih hrest he

/-- A walk meets exactly the leaves that its names lead to. -/
theorem mem_leaves_iff (n : Node) (names : List String) (hn : n.Ordered) :
    names ∈ n.leaves ↔ ∃ m, n.at? names = some m ∧ m.IsLeaf := by
  constructor
  · intro h
    induction hn generalizing names with
    | file bytes =>
      cases List.mem_singleton.1 h
      exact ⟨_, rfl, trivial⟩
    | link target =>
      cases List.mem_singleton.1 h
      exact ⟨_, rfl, trivial⟩
    | @directory entries order children ih =>
      obtain ⟨e, he, leaf, hleaf, rfl⟩ := mem_leavesIn entries names h
      obtain ⟨m, hm, hleaf'⟩ := ih e he leaf hleaf
      refine ⟨m, ?_, hleaf'⟩
      rw [at?, child?, lookup_of_mem entries e order he]
      exact hm
  · rintro ⟨m, hm, hleaf⟩
    have hself : [] ∈ m.leaves := by
      cases m with
      | file bytes => exact List.mem_singleton_self _
      | link target => exact List.mem_singleton_self _
      | directory entries => exact hleaf.elim
    simpa using append_mem_leaves n m names [] hm hself

theorem leavesIn_increasing (entries : List (String × Node))
    (order : entries.Pairwise fun a b => a.1 < b.1)
    (children : ∀ e ∈ entries,
      e.2.leaves.Pairwise fun a b => a.map Text.bytes < b.map Text.bytes) :
    (leavesIn entries).Pairwise fun a b => a.map Text.bytes < b.map Text.bytes := by
  induction entries with
  | nil => exact .nil
  | cons e entries ih =>
    obtain ⟨hfirst, hrest⟩ := List.pairwise_cons.1 order
    rw [leavesIn, List.pairwise_append]
    refine ⟨?_, ih hrest fun d hd => children d (List.mem_cons_of_mem _ hd), ?_⟩
    · -- The leaves of one entry start with the same name.
      apply List.pairwise_map.2
      apply (children e List.mem_cons_self).imp
      intro a b hab
      exact List.cons_lt_cons_iff.2 (.inr ⟨rfl, hab⟩)
    · intro a ha b hb
      obtain ⟨leaf, -, rfl⟩ := List.mem_map.1 ha
      obtain ⟨d, hd, other, -, rfl⟩ := mem_leavesIn entries b hb
      exact List.cons_lt_cons_iff.2 (.inl ((Text.bytes_lt_iff _ _).2 (hfirst d hd)))

/-- A walk meets the leaves in the order of their names, where names are compared byte by
byte and the first name that differs counts. -/
theorem leaves_increasing (n : Node) (hn : n.Ordered) :
    n.leaves.Pairwise fun a b => a.map Text.bytes < b.map Text.bytes := by
  induction hn with
  | file bytes => exact List.pairwise_singleton _ _
  | link target => exact List.pairwise_singleton _ _
  | directory order children ih => exact leavesIn_increasing _ order ih

theorem ordered_at? (n m : Node) (names : List String) (hn : n.Ordered)
    (h : n.at? names = some m) : m.Ordered := by
  induction names generalizing n with
  | nil =>
    cases h
    exact hn
  | cons name names ih =>
    obtain ⟨entries, k, rfl, hlookup, hk⟩ := at?_cons_eq_some n m name names h
    obtain ⟨l₁, l₂, rfl, -⟩ := List.lookup_eq_some_iff.1 hlookup
    cases hn with
    | directory order children => exact ih k (children (name, k) (by simp)) hk

end Node

namespace Candidate

/-! The texts of the paths below a root. -/

theorem steps_join (directory name : String) (h : Path.IsName name) :
    ∃ front, (FileTree.steps directory = front ∨ FileTree.steps directory = front ++ [""]) ∧
      FileTree.steps (Path.join directory name) = front ++ [name] := by
  obtain ⟨front, hdir, hjoin⟩ := Path.pieces_join directory name h
  refine ⟨front.map String.ofList, ?_, ?_⟩
  · rcases hdir with hdir | hdir
    · exact .inl (by rw [FileTree.steps, hdir])
    · exact .inr (by simp [FileTree.steps, hdir])
  · simp [FileTree.steps, hjoin]

/-- The names become the last pieces of the path. -/
theorem steps_pathBelow (root : String) (names : List String) (hne : names ≠ [])
    (h : ∀ name ∈ names, Path.IsName name) :
    ∃ front, (FileTree.steps root = front ∨ FileTree.steps root = front ++ [""]) ∧
      FileTree.steps (pathBelow root names) = front ++ names := by
  induction names generalizing root with
  | nil => exact absurd rfl hne
  | cons name names ih =>
    have hname := h name List.mem_cons_self
    obtain ⟨front, hroot, hjoin⟩ := steps_join root name hname
    cases names with
    | nil => exact ⟨front, hroot, hjoin⟩
    | cons next names =>
      obtain ⟨front', hfront, hpath⟩ := ih (Path.join root name) (by simp)
        fun u hu => h u (List.mem_cons_of_mem _ hu)
      refine ⟨front, hroot, ?_⟩
      rw [hjoin] at hfront
      rcases hfront with rfl | hfront
      · simpa [pathBelow] using hpath
      · -- The path so far ends with a name and not with a slash.
        exact absurd (List.append_inj' hfront rfl).2 (by simp [hname.ne_empty])

theorem components_pathBelow (root : String) (names : List String)
    (h : ∀ name ∈ names, Path.IsName name) :
    Path.components (pathBelow root names).toList =
      Path.components root.toList ++ names.map fun name => .name name.toList := by
  induction names generalizing root with
  | nil => simp [pathBelow]
  | cons name names ih =>
    have hrest := ih (Path.join root name) fun u hu => h u (List.mem_cons_of_mem _ hu)
    rw [Path.components_join root name (h name List.mem_cons_self)] at hrest
    simpa [pathBelow] using hrest

/-- Names below a root do not touch what the start of the path decides. -/
theorem pathBelow_facts (root : String) (names : List String) (hroot : root ≠ "")
    (hnul : '\x00' ∉ root.toList) (h : ∀ name ∈ names, Path.IsName name) :
    pathBelow root names ≠ "" ∧ '\x00' ∉ (pathBelow root names).toList ∧
      Path.isAbsolute (pathBelow root names).toList = Path.isAbsolute root.toList := by
  induction names generalizing root with
  | nil => exact ⟨hroot, hnul, rfl⟩
  | cons name names ih =>
    have hname := h name List.mem_cons_self
    obtain ⟨hne, hno, habs⟩ := ih (Path.join root name) (Path.join_ne_empty root name hname)
      (Path.nul_join root name hname hnul) fun u hu => h u (List.mem_cons_of_mem _ hu)
    rw [Path.isAbsolute_join root name hname hroot] at habs
    exact ⟨hne, hno, habs⟩

/-- Names lead from a root, which leads to a place, down to a node, and no links are on the
way. -/
structure LeadsTo (d : Disk) (root : String) (place names : List String) (n : Node) : Prop where
  located : d.locate .follow root = .ok place
  reached : d.tree.at? (place ++ names) = some n
  ne_nil : names ≠ []
  isName : ∀ name ∈ names, Path.IsName name

theorem leadsTo_of_isLeaf (d : Disk) (root : String) (place names : List String) (n : Node)
    (entries : List (String × Node)) (hnamed : d.tree.root.Named)
    (hplace : d.locate .follow root = .ok place)
    (hroot : d.tree.at? place = some (.directory entries))
    (hn : d.tree.at? (place ++ names) = some n) (hleaf : n.IsLeaf) :
    LeadsTo d root place names n where
  located := hplace
  reached := hn
  ne_nil := by
    rintro rfl
    rw [List.append_nil, hroot] at hn
    cases hn
    exact hleaf
  isName := by
    intro name hname
    exact Node.isName_of_at? _ n _ hnamed hn name (List.mem_append_right _ hname)

section LeadsTo

variable {d : Disk} {root : String} {place names : List String} {n : Node}

/-- The path below a root leads to the same node, links at its end apart. -/
theorem LeadsTo.locate (h : LeadsTo d root place names n) (purpose : FileTree.Purpose)
    (hlink : ∀ target, n = .link target → purpose = .inspect) :
    d.locate purpose (pathBelow root names) = .ok (place ++ names) := by
  obtain ⟨hempty, hnul, hresolve⟩ := Disk.locate_eq_ok d .follow root place h.located
  obtain ⟨hempty', hnul', habsolute⟩ := pathBelow_facts root names hempty hnul h.isName
  obtain ⟨front, hfront, hsteps⟩ := steps_pathBelow root names h.ne_nil h.isName
  have hlocate : d.locate purpose (pathBelow root names) =
      d.tree.resolve purpose FileTree.linkLimit
        (if Path.isAbsolute root.toList then [] else d.directory) (front ++ names) := by
    simp [Disk.locate, hempty', hnul', habsolute, hsteps]
  rw [hlocate]
  generalize (if Path.isAbsolute root.toList then [] else d.directory) = start at hresolve ⊢
  -- The root is followed first, with or without a slash at its end.
  obtain ⟨links, hbelow⟩ : ∃ links, d.tree.resolve purpose FileTree.linkLimit start
      (front ++ names) = d.tree.resolve purpose links place names := by
    rcases hfront with hfront | hfront
    · rw [hfront] at hresolve
      exact d.tree.resolve_append purpose _ start front place names h.ne_nil hresolve
    · rw [hfront] at hresolve
      rw [← d.tree.resolve_empty_piece purpose _ start front names h.ne_nil, List.append_cons]
      exact d.tree.resolve_append purpose _ start _ place names h.ne_nil hresolve
  rw [hbelow]
  exact d.tree.resolve_names purpose links place names n h.reached h.isName hlink

/-- The path below a root tells the names that it is made of. -/
theorem LeadsTo.names_eq {names' : List String} {n' : Node} (h : LeadsTo d root place names n)
    (h' : LeadsTo d root place names' n') (hpath : pathBelow root names = pathBelow root names') :
    names = names' := by
  have hfirst := h.locate .inspect fun _ _ => rfl
  have hsecond := h'.locate .inspect fun _ _ => rfl
  rw [hpath, hsecond] at hfirst
  exact (List.append_cancel_left (Except.ok.inj hfirst)).symm

end LeadsTo

/-! What is yielded. -/

/-- A node counts as a file where a path leads to it: it is a file, or a link that does not
lead to a directory. -/
def CountsAsFile (d : Disk) (path : String) : Node → Prop
  | .file _ => True
  | .link _ => d.isDirectory path = false
  | .directory _ => False

/-- What a walk from the directory at a place has to yield: names that lead to something
that counts as a file, through directories and no links, and whose last one ends with an
extension. -/
structure Listed (d : Disk) (extensions : List String) (root : String)
    (place names : List String) : Prop where
  reached : ∃ n, d.tree.at? (place ++ names) = some n ∧ CountsAsFile d (pathBelow root names) n
  extension : ∃ name ∈ names.getLast?, ∃ e ∈ extensions, e.toList <:+ name.toList

theorem isLeaf_of_countsAsFile (d : Disk) (path : String) (n : Node)
    (h : CountsAsFile d path n) : n.IsLeaf := by
  cases n with
  | file bytes => trivial
  | link target => trivial
  | directory entries => exact h

/-- A file below a root is no directory, so that the second look decides about links only. -/
theorem isTaken_pathBelow (d : Disk) (root : String) (place names : List String) (n : Node)
    (h : LeadsTo d root place names n) (hleaf : n.IsLeaf) :
    isTaken d (pathBelow root names) = true ↔ CountsAsFile d (pathBelow root names) n := by
  cases n with
  | directory entries => exact hleaf.elim
  | link target => simp [isTaken, CountsAsFile]
  | file bytes =>
    have hlocate := h.locate .follow (by simp)
    simp [isTaken, Disk.isDirectory, Disk.find?, hlocate, h.reached, CountsAsFile]

theorem hasExtension_pathBelow (extensions : List String) (root : String) (names : List String)
    (hne : names ≠ []) (hnames : ∀ name ∈ names, Path.IsName name) :
    Path.hasExtension extensions (pathBelow root names) = true ↔
      ∃ name ∈ names.getLast?, ∃ e ∈ extensions, e.toList <:+ name.toList := by
  have hname : Path.fileName? (pathBelow root names) = names.getLast?.map String.toList := by
    rw [Path.fileName?, components_pathBelow root names hnames,
      List.getLast?_append_of_ne_nil _ (by simpa using hne), List.getLast?_map]
    cases names.getLast? <;> rfl
  unfold Path.hasExtension
  rw [hname]
  cases names.getLast? with
  | none => simp
  | some name => simp

theorem exists_directory (d : Disk) (root : String) (h : d.isDirectory root = true) :
    ∃ place entries, d.locate .follow root = .ok place ∧
      d.tree.at? place = some (.directory entries) := by
  unfold Disk.isDirectory Disk.find? at h
  cases hlocate : d.locate .follow root with
  | error e => simp [hlocate] at h
  | ok place =>
    cases hat : d.tree.at? place with
    | none => simp [hlocate, hat] at h
    | some n =>
      cases n with
      | directory entries => exact ⟨place, entries, rfl, hat⟩
      | file bytes => simp [hlocate, hat] at h
      | link target => simp [hlocate, hat] at h

/-- The names below a directory that are kept, in the order of the walk. -/
def keptNames (d : Disk) (extensions : List String) (root : String) (n : Node) :
    List (List String) :=
  n.leaves.filter fun names =>
    isTaken d (pathBelow root names) && Path.hasExtension extensions (pathBelow root names)

theorem below_eq (d : Disk) (extensions : List String) (root : String) (n : Node) :
    below d extensions root n = (keptNames d extensions root n).map (pathBelow root) :=
  List.filter_map

theorem mem_keptNames (d : Disk) (extensions : List String) (root : String)
    (place names : List String) (entries : List (String × Node)) (hnamed : d.tree.root.Named)
    (hplace : d.locate .follow root = .ok place)
    (hroot : d.tree.at? place = some (.directory entries)) :
    names ∈ keptNames d extensions root (.directory entries) ↔
      Listed d extensions root place names := by
  have hbelow : (Node.directory entries).at? names = d.tree.at? (place ++ names) := by
    rw [FileTree.at?, Node.at?_append, ← FileTree.at?, hroot, Option.bind_some]
  have hordered := Node.ordered_at? _ _ place d.tree.ordered hroot
  rw [keptNames, List.mem_filter, Node.mem_leaves_iff _ names hordered, hbelow,
    Bool.and_eq_true]
  constructor
  · rintro ⟨⟨n, hn, hleaf⟩, htaken, hext⟩
    have hleads := leadsTo_of_isLeaf d root place names n entries hnamed hplace hroot hn hleaf
    rw [isTaken_pathBelow d root place names n hleads hleaf] at htaken
    rw [hasExtension_pathBelow extensions root names hleads.ne_nil hleads.isName] at hext
    exact ⟨⟨n, hn, htaken⟩, hext⟩
  · rintro ⟨⟨n, hn, hcounts⟩, hext⟩
    have hleaf := isLeaf_of_countsAsFile d _ n hcounts
    have hleads := leadsTo_of_isLeaf d root place names n entries hnamed hplace hroot hn hleaf
    rw [← isTaken_pathBelow d root place names n hleads hleaf] at hcounts
    rw [← hasExtension_pathBelow extensions root names hleads.ne_nil hleads.isName] at hext
    exact ⟨⟨n, hn, hleaf⟩, hcounts, hext⟩

/-- A root that leads to a directory yields paths only, each of them once. They are put
together from the root and the names below it, and stand in the order of these names. Names
are among them exactly if they lead to something that counts as a file, through directories
and no links, and if the last of them ends with an extension. -/
theorem ofRoot_directory (d : Disk) (extensions : List String) (root : String)
    (hnamed : d.tree.root.Named) (hroot : d.isDirectory root = true) :
    ∃ (place : List String) (found : List (List String)), d.locate .follow root = .ok place ∧
      ofRoot d extensions root = found.map (fun names => .ok (pathBelow root names)) ∧
      (ofRoot d extensions root).Nodup ∧
      found.Pairwise (fun a b => a.map Text.bytes < b.map Text.bytes) ∧
      (∀ names ∈ found, Path.components (pathBelow root names).toList =
        Path.components root.toList ++ names.map fun name => .name name.toList) ∧
      ∀ names, names ∈ found ↔ Listed d extensions root place names := by
  obtain ⟨place, entries, hplace, hn⟩ := exists_directory d root hroot
  have hkept (names : List String) :=
    mem_keptNames d extensions root place names entries hnamed hplace hn
  have hleads (names : List String)
      (h : names ∈ keptNames d extensions root (.directory entries)) :
      ∃ n, LeadsTo d root place names n := by
    obtain ⟨⟨n, hat, hcounts⟩, -⟩ := (hkept names).1 h
    exact ⟨n, leadsTo_of_isLeaf d root place names n entries hnamed hplace hn hat
      (isLeaf_of_countsAsFile d _ n hcounts)⟩
  have hincreasing : (keptNames d extensions root (.directory entries)).Pairwise
      fun a b => a.map Text.bytes < b.map Text.bytes :=
    (Node.leaves_increasing _ (Node.ordered_at? _ _ place d.tree.ordered hn)).filter _
  have hpaths : ofRoot d extensions root =
      (keptNames d extensions root (.directory entries)).map
        fun names => .ok (pathBelow root names) := by
    rw [ofRoot_eq_below d extensions root place _ hplace hn, below_eq, List.map_map]
    rfl
  refine ⟨place, _, hplace, hpaths, ?_, hincreasing, ?_, hkept⟩
  · rw [hpaths]
    apply List.Nodup.map_on
    · intro a ha b hb hsame
      obtain ⟨n, hfirst⟩ := hleads a ha
      obtain ⟨m, hsecond⟩ := hleads b hb
      exact hfirst.names_eq hsecond (Except.ok.inj hsame)
    · apply hincreasing.imp
      rintro a b hab rfl
      exact absurd hab (List.lt_irrefl _)
  · intro names hmem
    obtain ⟨n, hnames⟩ := hleads names hmem
    exact components_pathBelow root names hnames.isName

/-- The root is a link to the directory `s`. In it are a link to nowhere, a link back to the
directory, a directory with a file, and a file of another extension. -/
def linkedDisk : Disk where
  tree :=
    { entries := [("r", .link "s"), ("s", .directory
        [("A.php", .link "nowhere"), ("B.php", .link "/s"), ("a", .directory [("x.php", .file [])]),
          ("b.txt", .file [])])]
      ordered := by decide }
  directory := []

theorem named_linkedDisk : linkedDisk.tree.root.Named := by
  decide

theorem ofRoot_directory_links :
    linkedDisk.tree.root.Named ∧ linkedDisk.isDirectory "r" = true ∧
      ∃ found : List (List String),
        ofRoot linkedDisk [".php"] "r" = found.map (fun names => .ok (pathBelow "r" names)) ∧
        (ofRoot linkedDisk [".php"] "r").Nodup ∧
        found.Pairwise (fun a b => a.map Text.bytes < b.map Text.bytes) ∧
        ["a", "x.php"] ∈ found ∧ ["A.php"] ∈ found ∧ ["B.php"] ∉ found ∧ ["b.txt"] ∉ found := by
  obtain ⟨hplace, hroot, hnowhere, hback⟩ : linkedDisk.locate .follow "r" = .ok ["s"] ∧
      linkedDisk.isDirectory "r" = true ∧ linkedDisk.isDirectory "r/A.php" = false ∧
      linkedDisk.isDirectory "r/B.php" = true := by
    simp [Disk.isDirectory, Disk.find?, Disk.locate, FileTree.steps, Path.pieces,
      Path.isAbsolute, FileTree.linkLimit, FileTree.resolve, FileTree.at?, FileTree.root,
      Node.at?, Node.child?, List.lookup_cons, linkedDisk]
  obtain ⟨place, found, hlocate, hpaths, hnodup, hincreasing, -, hlisted⟩ :=
    ofRoot_directory linkedDisk [".php"] "r" named_linkedDisk hroot
  rw [hplace] at hlocate
  cases hlocate
  refine ⟨named_linkedDisk, hroot, found, hpaths, hnodup, hincreasing, ?_, ?_, ?_, ?_⟩
  · rw [hlisted]
    exact ⟨⟨.file [], rfl, trivial⟩, "x.php", rfl, ".php", by decide, by decide⟩
  · rw [hlisted]
    exact ⟨⟨.link "nowhere", rfl, hnowhere⟩, "A.php", rfl, ".php", by decide, by decide⟩
  · rw [hlisted]
    rintro ⟨⟨n, hn, hcounts⟩, -⟩
    cases hn
    have hfile : linkedDisk.isDirectory "r/B.php" = false := hcounts
    rw [hback] at hfile
    cases hfile
  · rw [hlisted]
    rintro ⟨-, name, hname, e, he, hsuffix⟩
    cases hname
    cases List.mem_singleton.1 he
    exact absurd hsuffix (by decide)

end Candidate

end Redeclaration
