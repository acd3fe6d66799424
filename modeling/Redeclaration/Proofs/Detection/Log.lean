import Mathlib
import Redeclaration.Proofs.Detection.ScanPaths

/-!
The log of a run. A run that comes to its end notes one verdict after the other:
an excluded path, a failure that it skips, or the declarations of a file and then
the file itself with their number. Main statement: the log alone tells both counts
of the result and which names collide, and how often each of them is declared.
-/

namespace Redeclaration

namespace Event

/-- Whether an event stands in the log at this level and with this message. -/
def isNote (level : Level) (message : String) (ev : Event) : Bool :=
  ev.level == level && ev.message == message

/-- Whether an event notes a declaration of this name. -/
def declares (g : Group) (n : String) : Event → Bool
  | declared x => x.group == g && x.name == n
  | _ => false

@[simp] theorem isNote_declared (x : Declaration) :
    (declared x).isNote .trace "declaration" = true := rfl

/-- Only declarations are traced, so anything else ends a row of them. -/
theorem isNote_declaration_iff (ev : Event) :
    ev.isNote .trace "declaration" = true ↔ ∃ x, ev = declared x := by
  cases ev <;> simp [isNote, level, message]

end Event

namespace Verdict

/-- The note on a candidate. -/
def note : Verdict → Event
  | excluded path => .excluded path
  | failed e => .skipped e
  | analysed path ds => .analysed path ds.length

/-- The declarations that are noted before the candidate itself is. -/
def declarations : Verdict → List Declaration
  | analysed _ ds => ds
  | excluded _ | failed _ => []

/-- What a run notes about a candidate, unless it ends there. -/
def events (v : Verdict) : List Event :=
  v.declarations.map .declared ++ [v.note]

end Verdict

namespace Run

@[simp]
theorem log_after (events : List Event) (r : Run) : (r.after events).log = events ++ r.log :=
  rfl

theorem log_resume_cons (d : Disk) (s : Settings) (tally : Tally) (c : Candidate)
    (cs : List Candidate) (h : s.ignoreParseFailures = true ∨ c.failure? d s = none) :
    (resume d s tally (c :: cs)).log =
      (Verdict.of d s c).events ++ (resume d s (tally.note d s c) cs).log := by
  rcases Verdict.of_cases d s c with
    ⟨path, hv, hx, hnone, -⟩ | ⟨e, hv, hx, hsome, -⟩ | ⟨path, ds, hv, hx, hnone, hseen⟩
  · simp [resume, hv, Tally.note, Candidate.isAnalysed, hx, Verdict.events, Verdict.note,
      Verdict.declarations]
  · have htolerant : s.ignoreParseFailures = true := by simpa [hsome] using h
    simp [resume, hv, htolerant, Tally.note, Candidate.isAnalysed, hsome, Verdict.events,
      Verdict.note, Verdict.declarations]
  · simp [resume, hv, Tally.note, Candidate.isAnalysed, hx, hnone, hseen, Verdict.events,
      Verdict.note, Verdict.declarations]

/-- A run that no failure ends notes what becomes of each candidate, in their order. -/
theorem log_resume (d : Disk) (s : Settings) (tally : Tally) (cs : List Candidate)
    (h : Unbroken d s cs) :
    (resume d s tally cs).log = cs.flatMap fun c => (Verdict.of d s c).events := by
  induction cs generalizing tally with
  | nil => rfl
  | cons c cs ih =>
    have hc : s.ignoreParseFailures = true ∨ c.failure? d s = none :=
      h.imp_right fun hnone => hnone c List.mem_cons_self
    have hcs : Unbroken d s cs :=
      h.imp_right fun hnone x hx => hnone x (List.mem_cons_of_mem c hx)
    rw [log_resume_cons d s tally c cs hc, ih _ hcs, List.flatMap_cons]

end Run

/-! What can be counted in a log. -/

namespace Verdict

theorem countP_events (v : Verdict) (p : Event → Bool) (hp : ∀ x, p (.declared x) = false) :
    v.events.countP p = if p v.note then 1 else 0 := by
  have hds : (v.declarations.map Event.declared).countP p = 0 := by
    simp [List.countP_eq_zero, hp]
  rw [events, List.countP_append, hds, List.countP_singleton, Nat.zero_add]

/-- Apart from the declarations, a log has one note on each candidate. -/
theorem countP_flatMap_events (d : Disk) (s : Settings) (cs : List Candidate)
    (p : Event → Bool) (hp : ∀ x, p (.declared x) = false) :
    (cs.flatMap fun c => (Verdict.of d s c).events).countP p =
      cs.countP fun c => p (Verdict.of d s c).note := by
  induction cs with
  | nil => rfl
  | cons c cs ih =>
    rw [List.flatMap_cons, List.countP_append, List.countP_cons, ih, countP_events _ p hp]
    omega

/-- The note on a candidate tells what becomes of it. -/
theorem note_of (d : Disk) (s : Settings) (c : Candidate) :
    (Verdict.of d s c).note.isNote .debug "analysed" = c.isAnalysed d s ∧
      (Verdict.of d s c).note.isNote .debug "excluded" = c.isExcluded s ∧
      ((Verdict.of d s c).note.level == .warn) = (c.failure? d s).isSome := by
  rcases of_cases d s c with
    ⟨path, hv, hx, hf, -⟩ | ⟨e, hv, hx, hf, -⟩ | ⟨path, ds, hv, hx, hf, -⟩
  · simp [hv, hx, hf, note, Candidate.isAnalysed, Event.isNote, Event.level, Event.message]
  · simp [hv, hx, hf, note, Candidate.isAnalysed, Event.isNote, Event.level]
  · simp [hv, hx, hf, note, Candidate.isAnalysed, Event.isNote, Event.level, Event.message]

/-- Every declaration that counts is noted, and no other one. -/
theorem countP_declares (d : Disk) (s : Settings) (c : Candidate) (g : Group) (n : String) :
    (Verdict.of d s c).events.countP (Event.declares g n) =
      (Sighting.locationsOf g n (c.sightings d s)).length := by
  rcases of_cases d s c with
    ⟨path, hv, -, -, hseen⟩ | ⟨e, hv, -, -, hseen⟩ | ⟨path, ds, hv, -, -, hseen⟩
  · rw [hv, hseen]
    rfl
  · rw [hv, hseen]
    rfl
  · rw [hv, hseen, events, List.countP_append, Sighting.locationsOf, List.length_map,
      ← List.countP_eq_length_filter, Sighting.ofFile, List.countP_map, List.countP_map]
    rfl

end Verdict

theorem countP_declares_flatMap (d : Disk) (s : Settings) (cs : List Candidate) (g : Group)
    (n : String) :
    (cs.flatMap fun c => (Verdict.of d s c).events).countP (Event.declares g n) =
      (Sighting.locationsOf g n (cs.flatMap (·.sightings d s))).length := by
  induction cs with
  | nil => rfl
  | cons c cs ih =>
    have happend : Sighting.locationsOf g n ((c :: cs).flatMap (·.sightings d s)) =
        Sighting.locationsOf g n (c.sightings d s) ++
          Sighting.locationsOf g n (cs.flatMap (·.sightings d s)) := by
      simp [Sighting.locationsOf]
    rw [List.flatMap_cons, List.countP_append, ih, happend, List.length_append,
      Verdict.countP_declares]

/-! Rows of declarations. -/

/-- After a row of `pending` declarations, a log goes on such that each row is
followed by the note on its file, which tells the length of the row. -/
def Reconciled : Nat → List Event → Prop
  | pending, [] => pending = 0
  | pending, .declared _ :: log => Reconciled (pending + 1) log
  | pending, .analysed _ n :: log => n = pending ∧ Reconciled 0 log
  | pending, _ :: log => pending = 0 ∧ Reconciled 0 log

namespace Reconciled

theorem append_row (row log : List Event) (pending : Nat)
    (hrow : ∀ ev ∈ row, ev.isNote .trace "declaration" = true) :
    Reconciled pending (row ++ log) ↔ Reconciled (pending + row.length) log := by
  induction row generalizing pending with
  | nil => rfl
  | cons ev row ih =>
    obtain ⟨x, rfl⟩ := (Event.isNote_declaration_iff ev).1 (hrow ev List.mem_cons_self)
    have hlength : pending + (Event.declared x :: row).length = pending + 1 + row.length := by
      rw [List.length_cons]
      omega
    rw [hlength]
    exact ih (pending + 1) fun y hy => hrow y (List.mem_cons_of_mem _ hy)

/-- Whatever is no declaration ends the row before it. -/
theorem of_other (ev : Event) (log : List Event) (pending : Nat)
    (hev : ev.isNote .trace "declaration" = false) (h : Reconciled pending (ev :: log)) :
    Reconciled 0 log := by
  cases ev with
  | declared x => cases hev
  | analysed path n => exact h.2
  | settingsLoaded | excluded | skipped => exact h.2

theorem suffix (pre log : List Event) (pending : Nat) (h : Reconciled pending (pre ++ log)) :
    ∃ later, Reconciled later log := by
  induction pre generalizing pending with
  | nil => exact ⟨pending, h⟩
  | cons ev pre ih =>
    cases hev : ev.isNote .trace "declaration" with
    | false => exact ih 0 (of_other ev _ pending hev h)
    | true =>
      obtain ⟨x, rfl⟩ := (Event.isNote_declaration_iff ev).1 hev
      exact ih (pending + 1) h

theorem events_append (v : Verdict) (log : List Event) (h : Reconciled 0 log) :
    Reconciled 0 (v.events ++ log) := by
  have hrow : ∀ ev ∈ v.declarations.map Event.declared,
      ev.isNote .trace "declaration" = true := by
    simp
  rw [Verdict.events, List.append_assoc, append_row _ _ _ hrow, List.length_map, Nat.zero_add]
  cases v with
  | excluded path => exact ⟨rfl, h⟩
  | failed e => exact ⟨rfl, h⟩
  | analysed path ds => exact ⟨rfl, h⟩

theorem flatMap_events (d : Disk) (s : Settings) (cs : List Candidate) :
    Reconciled 0 (cs.flatMap fun c => (Verdict.of d s c).events) := by
  induction cs with
  | nil => rfl
  | cons c cs ih => exact events_append _ _ ih

/-- A row that is not empty is followed by the note on its file. -/
theorem row_followed (pre row post : List Event) (h : Reconciled 0 (pre ++ row ++ post))
    (hne : row ≠ []) (hrow : ∀ ev ∈ row, ev.isNote .trace "declaration" = true)
    (hend : ∀ ev ∈ post.head?, ev.isNote .trace "declaration" = false) :
    ∃ path n later, post = .analysed path n :: later := by
  rw [List.append_assoc] at h
  obtain ⟨pending, hpending⟩ := suffix pre _ 0 h
  rw [append_row row post pending hrow] at hpending
  have hpos : 0 < row.length := List.length_pos_iff.2 hne
  -- The row is still pending, so neither the end of the log nor another note can follow.
  cases post with
  | nil =>
    have hzero : pending + row.length = 0 := hpending
    omega
  | cons ev later =>
    cases ev with
    | declared x => cases hend _ rfl
    | analysed path n => exact ⟨path, n, later, rfl⟩
    | settingsLoaded | excluded | skipped =>
      have hzero : pending + row.length = 0 := hpending.1
      omega

/-- The note on a file tells the length of the row right before it. -/
theorem analysed_counts (pre post : List Event) (path : String) (n : Nat)
    (h : Reconciled 0 (pre ++ .analysed path n :: post)) :
    n = (pre.rtakeWhile (Event.isNote .trace "declaration")).length := by
  set row := pre.rtakeWhile (Event.isNote .trace "declaration") with hrow
  set before := pre.rdropWhile (Event.isNote .trace "declaration") with hbefore
  have hsplit : pre = before ++ row := List.rdropWhile_append_rtakeWhile.symm
  have hall : ∀ ev ∈ row, ev.isNote .trace "declaration" = true :=
    fun ev hev => List.mem_rtakeWhile_imp hev
  have hfresh : Reconciled 0 (row ++ .analysed path n :: post) := by
    rw [hsplit, List.append_assoc] at h
    rcases List.eq_nil_or_concat before with hnil | ⟨earlier, ev, hconcat⟩
    · rwa [hnil] at h
    · -- The row is as long as it can be, so the event before it is no declaration.
      have hne : before ≠ [] := by simp [hconcat]
      have hlast := List.rdropWhile_last_not (Event.isNote .trace "declaration") pre hne
      have hev : ev.isNote .trace "declaration" = false := by
        simpa [← hbefore, hconcat] using hlast
      rw [hconcat, List.concat_eq_append, List.append_assoc] at h
      obtain ⟨pending, hpending⟩ := suffix earlier _ 0 h
      exact of_other ev _ pending hev hpending
  rw [append_row row _ 0 hall, Nat.zero_add] at hfresh
  exact hfresh.1

end Reconciled

/-- The log of a run that succeeds tells its result: the counts of analysed and of
excluded files, and the names that collide, each with as many locations as the log
has declarations of it. The declarations of a file stand in a row right before the
note on it, which tells their number. -/
theorem detect_log (d : Disk) (s : Settings) (f : Findings)
    (hf : (detect d s).outcome = .ok f) :
    let log := (detect d s).log
    log.countP (Event.isNote .debug "analysed") = f.filesAnalysed ∧
    log.countP (Event.isNote .debug "excluded") + log.countP (fun ev => ev.level == .warn) =
      f.filesExcluded ∧
    (∀ pre row post, log = pre ++ row ++ post → row ≠ [] →
      (∀ ev ∈ row, ev.isNote .trace "declaration" = true) →
      (∀ ev ∈ post.head?, ev.isNote .trace "declaration" = false) →
      ∃ path n later, post = .analysed path n :: later) ∧
    (∀ pre path n post, log = pre ++ .analysed path n :: post →
      n = (pre.rtakeWhile (Event.isNote .trace "declaration")).length) ∧
    (∀ g n, (∃ ls, ⟨g, n, ls⟩ ∈ f.collisions) ↔ 2 ≤ log.countP (Event.declares g n)) ∧
    ∀ c ∈ f.collisions, c.locations.length = log.countP (Event.declares c.group c.name) := by
  intro log
  obtain ⟨hunbroken, rfl⟩ := (detect_eq_ok_iff d s f).1 hf
  have hlog : log = (candidates d s).flatMap fun c => (Verdict.of d s c).events :=
    Run.log_resume d s {} _ hunbroken
  have hrows : Reconciled 0 log := by
    rw [hlog]
    exact Reconciled.flatMap_events d s _
  have hdeclares (g : Group) (n : String) := countP_declares_flatMap d s (candidates d s) g n
  refine ⟨?_, ?_, ?_, ?_, ?_, ?_⟩
  · rw [hlog, Verdict.countP_flatMap_events d s _ _ fun _ => rfl]
    simp only [Verdict.note_of]
    rfl
  · -- A candidate that is not analysed is excluded or fails.
    have hall := Candidate.countP_isAnalysed d s (candidates d s)
    have hsplit := Candidate.length_eq_countP d s (candidates d s)
    rw [hlog, Verdict.countP_flatMap_events d s _ _ fun _ => rfl,
      Verdict.countP_flatMap_events d s _ _ fun _ => rfl]
    simp only [Verdict.note_of, Findings.ofCandidates]
    omega
  · intro pre row post hsplit hne hrow hend
    rw [hsplit] at hrows
    exact Reconciled.row_followed pre row post hrows hne hrow hend
  · intro pre path n post hsplit
    rw [hsplit] at hrows
    exact Reconciled.analysed_counts pre post path n hrows
  · intro g n
    rw [hlog, hdeclares]
    exact exists_mem_collisions_iff _ g n
  · intro c hc
    obtain ⟨-, hperm, -⟩ := (mem_collisions_iff _ c).1 hc
    rw [hlog, hdeclares]
    exact hperm.length_eq

/-- Two paths lead to the same file, one to an excluded file, and one nowhere. -/
def mixedPaths : Settings :=
  ⟨["/t", "/t", "/s", "/u"], ["s"], ["t"], "/", true⟩

theorem detect_log_mixedPaths :
    (detect twoClasses mixedPaths).outcome =
      .ok ⟨2, 2, [⟨.type, "A", [⟨"t", 1⟩, ⟨"t", 1⟩]⟩]⟩ ∧
    (detect twoClasses mixedPaths).log.countP (Event.isNote .debug "analysed") = 2 ∧
    (detect twoClasses mixedPaths).log.countP (Event.isNote .debug "excluded") +
      (detect twoClasses mixedPaths).log.countP (fun ev => ev.level == .warn) = 2 ∧
    (detect twoClasses mixedPaths).log.countP (Event.declares .type "A") = 2 := by
  have h : (detect twoClasses mixedPaths).outcome =
      .ok ⟨2, 2, [⟨.type, "A", [⟨"t", 1⟩, ⟨"t", 1⟩]⟩]⟩ := by cbv
  obtain ⟨hanalysed, hexcluded, -, -, -, hlocations⟩ := detect_log twoClasses mixedPaths _ h
  exact ⟨h, hanalysed, hexcluded, (hlocations _ List.mem_cons_self).symm⟩

end Redeclaration
