import Mathlib
import Redeclaration.Proofs.Detection

/-!
Strict and tolerant runs over the same candidates. Both do and note the same
things up to the first failure; there the strict run ends, and the tolerant one
notes a warning and goes on. Main statement: without warnings the two runs are
one, and otherwise the strict log is the tolerant one up to its first warning.
-/

namespace Redeclaration

/-- Nothing in a log warns. -/
def Quiet (log : List Event) : Prop :=
  ∀ ev ∈ log, ev.level ≠ .warn

theorem quiet_append (a b : List Event) (ha : Quiet a) (hb : Quiet b) : Quiet (a ++ b) := by
  intro ev hev
  rcases List.mem_append.1 hev with h | h
  · exact ha ev h
  · exact hb ev h

/-- What a tolerant run makes of a strict one. -/
inductive Run.Tolerated : Run → Run → Prop
  /-- Nothing fails, and the runs are the same. -/
  | same (f : Findings) (log : List Event) (quiet : Quiet log) :
      Tolerated ⟨.ok f, log⟩ ⟨.ok f, log⟩
  /-- The strict run ends where the tolerant one warns for the first time. -/
  | broken (e : FileError) (f : Findings) (log later : List Event) (quiet : Quiet log) :
      Tolerated ⟨.error e, log⟩ ⟨.ok f, log ++ .skipped e :: later⟩

namespace Run

theorem tolerated_after (strict tolerant : Run) (events : List Event) (hquiet : Quiet events)
    (h : Tolerated strict tolerant) :
    Tolerated (strict.after events) (tolerant.after events) := by
  cases h with
  | same f log quiet => exact .same f (events ++ log) (quiet_append events log hquiet quiet)
  | broken e f log later quiet =>
    have hlog := Tolerated.broken e f (events ++ log) later (quiet_append events log hquiet quiet)
    rwa [List.append_assoc] at hlog

/-- The verdict on a candidate does not ask for the mode of the run. -/
theorem verdict_mode (d : Disk) (s : Settings) (tolerant : Bool) (c : Candidate) :
    Verdict.of d { s with ignoreParseFailures := tolerant } c = Verdict.of d s c := by
  cases c <;> rfl

theorem tolerated_resume (d : Disk) (s : Settings) (tally : Tally) (cs : List Candidate) :
    Tolerated (resume d { s with ignoreParseFailures := false } tally cs)
      (resume d { s with ignoreParseFailures := true } tally cs) := by
  induction cs generalizing tally with
  | nil => exact .same tally.findings [] (by simp [Quiet])
  | cons c cs ih =>
    simp only [resume, verdict_mode]
    cases Verdict.of d s c with
    | excluded path =>
      apply tolerated_after _ _ _ _ (ih _)
      simp [Quiet, Event.level]
    | failed e =>
      -- The rest of the tolerant run does not matter, but for its success.
      have hrest := resume_ok d { s with ignoreParseFailures := true }
        { tally with excluded := tally.excluded + 1 } cs (.inl rfl)
      generalize resume d { s with ignoreParseFailures := true }
        { tally with excluded := tally.excluded + 1 } cs = rest at hrest
      obtain ⟨outcome, log⟩ := rest
      cases hrest
      exact .broken e _ [] log (by simp [Quiet])
    | analysed path ds =>
      apply tolerated_after _ _ _ _ (ih _)
      apply quiet_append
      · intro ev hev
        obtain ⟨x, -, rfl⟩ := List.mem_map.1 hev
        simp [Event.level]
      · simp [Quiet, Event.level]

end Run

/-- A tolerant run never fails. A strict run succeeds exactly if the tolerant one
warns of nothing, and then the two are the same. Otherwise the first warning of
the tolerant run tells the error that ends the strict one, and the strict log is
what comes before it. -/
theorem detect_tolerated (d : Disk) (s : Settings) :
    let strict := detect d { s with ignoreParseFailures := false }
    let tolerant := detect d { s with ignoreParseFailures := true }
    (∃ f, tolerant.outcome = .ok f) ∧
    ((∃ f, strict.outcome = .ok f) ↔ ∀ ev ∈ tolerant.log, ev.level ≠ .warn) ∧
    ((∃ f, strict.outcome = .ok f) →
      strict.outcome = tolerant.outcome ∧ strict.log = tolerant.log) ∧
    (∀ e, strict.outcome = .error e →
      ∃ warning later, tolerant.log = strict.log ++ warning :: later ∧
        (∀ ev ∈ strict.log, ev.level ≠ .warn) ∧ warning.level = .warn ∧
        warning.message = "skipping file: " ++ e.message) := by
  intro strict tolerant
  have h : Run.Tolerated strict tolerant := Run.tolerated_resume d s {} (candidates d s)
  generalize strict = strict at h
  generalize tolerant = tolerant at h
  cases h with
  | same f log quiet =>
    refine ⟨⟨f, rfl⟩, ⟨fun _ => quiet, fun _ => ⟨f, rfl⟩⟩, fun _ => ⟨rfl, rfl⟩, ?_⟩
    intro e he
    cases he
  | broken e f log later quiet =>
    have hwarns : ¬ ∀ ev ∈ log ++ .skipped e :: later, ev.level ≠ .warn := by
      intro hall
      exact hall (.skipped e) (by simp) rfl
    have hfails : ¬ ∃ g, (⟨.error e, log⟩ : Run).outcome = .ok g := by
      rintro ⟨g, hg⟩
      cases hg
    refine ⟨⟨f, rfl⟩, ⟨fun hok => absurd hok hfails, fun hall => absurd hall hwarns⟩,
      fun hok => absurd hok hfails, ?_⟩
    intro e' he'
    cases he'
    exact ⟨.skipped e, later, rfl, quiet, rfl, rfl⟩

theorem detect_tolerated_strayPath :
    (detect singleFile (strayPath false)).outcome = .error (.unlistable "/b" .missing) ∧
    ∃ warning later, (detect singleFile (strayPath true)).log =
      [.analysed "/a" 0] ++ warning :: later ∧ warning.level = .warn ∧
        warning.message = "skipping file: Unable to list /b: IO error for operation on /b: " ++
          "No such file or directory (os error 2)" := by
  have herror : (detect singleFile (strayPath false)).outcome =
      .error (.unlistable "/b" .missing) := by cbv
  have hlog : (detect singleFile (strayPath false)).log = [.analysed "/a" 0] := by cbv
  obtain ⟨warning, later, hbefore, -, hlevel, hmessage⟩ :=
    (detect_tolerated singleFile (strayPath false)).2.2.2 _ herror
  refine ⟨herror, warning, later, ?_, hlevel, hmessage⟩
  rw [← hlog]
  exact hbefore

end Redeclaration
