import Mathlib
import Redeclaration.Proofs.Candidate
import Redeclaration.Proofs.Detection

/-!
How a run depends on its scan paths. Each path is walked on its own, and a run
counts and gathers whatever all walks meet. Main statements: the order of the
paths does not matter; a path that leads below another one makes its candidates
count again, and lets every name that they declare collide with itself.
-/

namespace Redeclaration

/-- What a run finds in its candidates unless a failure ends it. -/
def Findings.ofCandidates (d : Disk) (s : Settings) (cs : List Candidate) : Findings where
  filesAnalysed := cs.countP (·.isAnalysed d s)
  filesExcluded := cs.countP fun c => !c.isAnalysed d s
  collisions := Redeclaration.collisions (cs.flatMap (·.sightings d s))

/-- No candidate ends a run. -/
def Unbroken (d : Disk) (s : Settings) (cs : List Candidate) : Prop :=
  s.ignoreParseFailures = true ∨ ∀ c ∈ cs, c.failure? d s = none

theorem Candidate.length_eq_countP (d : Disk) (s : Settings) (cs : List Candidate) :
    cs.length = cs.countP (·.isAnalysed d s) + cs.countP fun c => !c.isAnalysed d s := by
  simpa using List.length_eq_countP_add_countP (fun c => c.isAnalysed d s) (l := cs)

theorem Tally.findings_of_covers (d : Disk) (s : Settings) (cs : List Candidate) (tally : Tally)
    (h : Tally.Covers d s cs tally) : tally.findings = Findings.ofCandidates d s cs := by
  have hall := Candidate.countP_isAnalysed d s cs
  have hsplit := Candidate.length_eq_countP d s cs
  have hexcluded : tally.excluded = cs.countP fun c => !c.isAnalysed d s := by
    rw [h.excluded]
    omega
  have hcollisions : collisions tally.sightings = collisions (cs.flatMap (·.sightings d s)) :=
    collisions_perm _ _ h.sightings
  unfold Tally.findings Findings.ofCandidates
  rw [h.analysed, hexcluded, hcollisions]

/-- A run succeeds exactly if no candidate ends it, and then finds what all of
them hold. -/
theorem detect_eq_ok_iff (d : Disk) (s : Settings) (f : Findings) :
    (detect d s).outcome = .ok f ↔
      Unbroken d s (candidates d s) ∧ f = Findings.ofCandidates d s (candidates d s) := by
  have hok : Unbroken d s (candidates d s) →
      (detect d s).outcome = .ok (Findings.ofCandidates d s (candidates d s)) := by
    intro h
    have hcovers := Tally.covers_foldl d s [] (candidates d s) {} ⟨rfl, rfl, .refl _⟩
    rw [List.nil_append] at hcovers
    rw [← Tally.findings_of_covers d s _ _ hcovers]
    exact Run.resume_ok d s {} _ h
  constructor
  · intro hf
    have hunbroken : Unbroken d s (candidates d s) := by
      by_contra hnot
      rw [Unbroken, not_or, Bool.not_eq_true] at hnot
      obtain ⟨hstrict, hfails⟩ := hnot
      push Not at hfails
      -- The first failure would have ended the run.
      obtain ⟨e, before, c, after, hcs, hbefore, hc⟩ :=
        Candidate.exists_first_failure d s _ hfails
      have herror := Run.resume_strict d s {} before c after e hstrict hbefore hc
      rw [← hcs] at herror
      rw [detect, herror] at hf
      cases hf
    rw [hok hunbroken] at hf
    cases hf
    exact ⟨hunbroken, rfl⟩
  · rintro ⟨hunbroken, rfl⟩
    exact hok hunbroken

theorem Findings.ofCandidates_perm (d : Disk) (s : Settings) (cs bs : List Candidate)
    (h : cs.Perm bs) : Findings.ofCandidates d s cs = Findings.ofCandidates d s bs := by
  have hsightings : (cs.flatMap (·.sightings d s)).Perm (bs.flatMap (·.sightings d s)) :=
    h.flatMap_right _
  unfold Findings.ofCandidates
  rw [h.countP_eq, h.countP_eq, collisions_perm _ _ hsightings]

theorem unbroken_perm (d : Disk) (s : Settings) (cs bs : List Candidate) (h : cs.Perm bs) :
    Unbroken d s cs ↔ Unbroken d s bs := by
  unfold Unbroken
  simp only [h.mem_iff]

/-- A run with other scan paths judges its candidates in the same way. -/
theorem detect_scanPaths (d : Disk) (s : Settings) (paths : List String) (f : Findings) :
    (detect d { s with scanPaths := paths }).outcome = .ok f ↔
      Unbroken d s (paths.flatMap (Candidate.ofRoot d s.fileExtensions)) ∧
        f = Findings.ofCandidates d s (paths.flatMap (Candidate.ofRoot d s.fileExtensions)) :=
  detect_eq_ok_iff d { s with scanPaths := paths } f

/-- The order of the scan paths does not matter: with another one, a run succeeds
in the same cases and with the same counts and collisions. -/
theorem detect_perm (d : Disk) (s : Settings) (paths : List String)
    (h : paths.Perm s.scanPaths) (f : Findings) :
    (detect d { s with scanPaths := paths }).outcome = .ok f ↔ (detect d s).outcome = .ok f := by
  have hcs : (paths.flatMap (Candidate.ofRoot d s.fileExtensions)).Perm (candidates d s) :=
    h.flatMap_right _
  rw [detect_scanPaths, detect_eq_ok_iff, unbroken_perm d s _ _ hcs,
    Findings.ofCandidates_perm d s _ _ hcs]

/-- A file with the text `<?=class A;`. -/
def classFile : Node :=
  .file [60, 63, 61, 99, 108, 97, 115, 115, 32, 65, 59]

/-- The same class is declared in a directory and beside it. -/
def twoClasses : Disk where
  tree :=
    { entries := [("s", .directory [("t", classFile)]), ("t", classFile)]
      ordered := by decide }
  directory := []

/-- The settings that scan these paths. -/
def scanning (paths : List String) : Settings :=
  ⟨paths, [], ["t"], "/", false⟩

theorem detect_perm_twoClasses :
    ["/t", "/s"].Perm (scanning ["/s", "/t"]).scanPaths ∧
    (detect twoClasses (scanning ["/t", "/s"])).outcome =
      .ok ⟨2, 0, [⟨.type, "A", [⟨"s/t", 1⟩, ⟨"t", 1⟩]⟩]⟩ := by
  have hperm : ["/t", "/s"].Perm (scanning ["/s", "/t"]).scanPaths := .swap _ _ _
  refine ⟨hperm, (detect_perm twoClasses (scanning ["/s", "/t"]) _ hperm _).2 ?_⟩
  cbv

/-! Scan paths that lead to the same files. -/

namespace Sighting

/-- A sighting that is made twice has its location twice among those of its name. -/
theorem count_location (ss : List Sighting) (x : Sighting) :
    ss.count x ≤ (locationsOf x.group x.name ss).count x.location := by
  calc ss.count x
      = (ss.filter fun y => y.group == x.group && y.name == x.name).count x := by
        rw [List.count_filter (by simp)]
    _ ≤ (locationsOf x.group x.name ss).count x.location := List.count_le_count_map

end Sighting

/-- What is sighted twice collides, with its location listed twice. -/
theorem collides_of_count (ss : List Sighting) (x : Sighting) (h : 2 ≤ ss.count x) :
    ∃ c ∈ collisions ss, c.group = x.group ∧ c.name = x.name ∧
      2 ≤ c.locations.count x.location := by
  have hcount := h.trans (Sighting.count_location ss x)
  obtain ⟨ls, hls⟩ := (exists_mem_collisions_iff ss x.group x.name).2
    (hcount.trans List.count_le_length)
  obtain ⟨-, hperm, -⟩ := (mem_collisions_iff ss _).1 hls
  refine ⟨_, hls, rfl, rfl, ?_⟩
  rw [hperm.count_eq]
  exact hcount

/-- A scan path that is repeated, or leads below another one, adds no file to
those of the other paths, but its files count again. So it makes a difference
exactly if it has files at all, and each name that it declares collides with
itself. -/
theorem detect_redundant (d : Disk) (s : Settings) (before after : List String)
    (inner outer : String) (hpaths : s.scanPaths = before ++ inner :: after)
    (houter : outer ∈ before ++ after)
    (hbeneath : inner = outer ∨ Candidate.Beneath d inner outer) (f : Findings)
    (hf : (detect d s).outcome = .ok f) :
    let again := Candidate.ofRoot d s.fileExtensions inner
    let others := { s with scanPaths := before ++ after }
    ∃ g, (detect d others).outcome = .ok g ∧
      again ⊆ candidates d others ∧
      f.filesAnalysed = again.countP (·.isAnalysed d s) + g.filesAnalysed ∧
      f.filesExcluded = again.countP (fun c => !c.isAnalysed d s) + g.filesExcluded ∧
      (f = g ↔ again = []) ∧
      ∀ c ∈ again, ∀ x ∈ c.sightings d s, ∃ k ∈ f.collisions,
        k.group = x.group ∧ k.name = x.name ∧ 2 ≤ k.locations.count x.location := by
  intro again others
  have hsubset : again ⊆ candidates d others := by
    intro c hc
    refine List.mem_flatMap.2 ⟨outer, houter, ?_⟩
    rcases hbeneath with heq | hbelow
    · rwa [← heq]
    · exact Candidate.ofRoot_subset_of_beneath d s.fileExtensions inner outer hbelow hc
  -- Up to their order, the candidates are those of the path and those of the others.
  have hperm : (candidates d s).Perm (again ++ candidates d others) := by
    unfold candidates
    rw [hpaths, List.flatMap_append, List.flatMap_cons, List.flatMap_append]
    exact List.perm_append_comm_assoc _ _ _
  obtain ⟨hunbroken, hfound⟩ := (detect_eq_ok_iff d s f).1 hf
  rw [unbroken_perm d s _ _ hperm] at hunbroken
  rw [Findings.ofCandidates_perm d s _ _ hperm] at hfound
  have hothers : Unbroken d s (candidates d others) :=
    hunbroken.imp_right fun h c hc => h c (List.mem_append_right _ hc)
  have hanalysed : f.filesAnalysed = again.countP (·.isAnalysed d s) +
      (Findings.ofCandidates d s (candidates d others)).filesAnalysed := by
    rw [hfound]
    exact List.countP_append
  have hexcluded : f.filesExcluded = again.countP (fun c => !c.isAnalysed d s) +
      (Findings.ofCandidates d s (candidates d others)).filesExcluded := by
    rw [hfound]
    exact List.countP_append
  refine ⟨Findings.ofCandidates d s (candidates d others),
    (detect_scanPaths d s _ _).2 ⟨hothers, rfl⟩, hsubset, hanalysed, hexcluded, ?_, ?_⟩
  · constructor
    · intro hsame
      rw [hsame] at hanalysed hexcluded
      -- Each candidate adds to one of the two counts.
      have hlength := Candidate.length_eq_countP d s again
      exact List.eq_nil_of_length_eq_zero (by omega)
    · intro hnone
      rw [hfound, hnone]
      rfl
  · intro c hc x hx
    have hboth : 2 ≤ ((again ++ candidates d others).flatMap (·.sightings d s)).count x := by
      have hseen (cs : List Candidate) (hcs : c ∈ cs) :
          1 ≤ (cs.flatMap (·.sightings d s)).count x :=
        List.count_pos_iff.2 (List.mem_flatMap.2 ⟨c, hcs, hx⟩)
      rw [List.flatMap_append, List.count_append]
      have hfirst := hseen again hc
      have hsecond := hseen (candidates d others) (hsubset hc)
      omega
    rw [hfound]
    exact collides_of_count _ x hboth

theorem beneath_twoClasses : Candidate.Beneath twoClasses "/s/t" "/s" :=
  ⟨["s"], ["t"], by cbv, by cbv, by cbv⟩

theorem detect_overlapping :
    (detect twoClasses (scanning ["/s", "/s/t"])).outcome =
      .ok ⟨2, 0, [⟨.type, "A", [⟨"s/t", 1⟩, ⟨"s/t", 1⟩]⟩]⟩ := by
  cbv

theorem detect_redundant_file :
    Candidate.Beneath twoClasses "/s/t" "/s" ∧
    ∃ f g, (detect twoClasses (scanning ["/s", "/s/t"])).outcome = .ok f ∧
      (detect twoClasses (scanning ["/s"])).outcome = .ok g ∧ f ≠ g := by
  obtain ⟨g, hg, -, -, -, hsame, -⟩ :=
    detect_redundant twoClasses (scanning ["/s", "/s/t"]) ["/s"] [] "/s/t" "/s" rfl (by simp)
      (.inr beneath_twoClasses) _ detect_overlapping
  have hagain : Candidate.ofRoot twoClasses ["t"] "/s/t" = [.ok "/s/t"] := by cbv
  refine ⟨beneath_twoClasses, _, g, detect_overlapping, hg, ?_⟩
  intro heq
  have hnone : Candidate.ofRoot twoClasses ["t"] "/s/t" = [] := hsame.1 heq
  rw [hagain] at hnone
  cases hnone

/-- A name with a single declaration is reported as a collision if a scan path
leads below another one, and not without that path. -/
theorem overlapping_paths_collide :
    Candidate.Beneath twoClasses "/s/t" "/s" ∧
    (detect twoClasses (scanning ["/s", "/s/t"])).outcome =
      .ok ⟨2, 0, [⟨.type, "A", [⟨"s/t", 1⟩, ⟨"s/t", 1⟩]⟩]⟩ ∧
    (detect twoClasses (scanning ["/s"])).outcome = .ok ⟨1, 0, []⟩ := by
  refine ⟨beneath_twoClasses, detect_overlapping, ?_⟩
  cbv

end Redeclaration
