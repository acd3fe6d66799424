import Mathlib
import Redeclaration.Detection
import Redeclaration.Proofs.Collision

/-!
What a run says about its candidates. Each of them is excluded, fails or is
analysed, whatever the others are. Main statement: a strict run ends with the
first failure, and any other run counts each candidate once and finds the
collisions of everything that the analysed ones declare.
-/

namespace Redeclaration

namespace Candidate

def isExcluded (s : Settings) : Candidate → Bool
  | .error _ => false
  | .ok path => Redeclaration.isExcluded s.excludePaths path

/-- The tokens of a file that can be read and tokenized. -/
def tokens (d : Disk) (path : String) : Except FileError (List Token) :=
  match d.read path with
  | .error why => .error (.unreadable path why)
  | .ok content =>
    match tokenize (Text.decodeLossy content) with
    | .error why => .error (.unparsable path why)
    | .ok ts => .ok ts

/-- Why a candidate fails: it cannot be listed, or it is not excluded and cannot
be read or tokenized. -/
def failure? (d : Disk) (s : Settings) : Candidate → Option FileError
  | .error e => some e
  | .ok path =>
    if Redeclaration.isExcluded s.excludePaths path then none
    else
      match tokens d path with
      | .error e => some e
      | .ok _ => none

def isAnalysed (d : Disk) (s : Settings) (c : Candidate) : Bool :=
  !c.isExcluded s && (c.failure? d s).isNone

/-- What a candidate declares, with the path as a report shows it. An excluded or
failing candidate declares nothing. -/
def sightings (d : Disk) (s : Settings) : Candidate → List Sighting
  | .error _ => []
  | .ok path =>
    if Redeclaration.isExcluded s.excludePaths path then []
    else
      match tokens d path with
      | .error _ => []
      | .ok ts =>
        (declarationsIn ts).map fun x =>
          ⟨x.group, x.name, ⟨Path.shown s.baseDirectory path, x.line⟩⟩

theorem declarationsInFile_eq (d : Disk) (path : String) :
    declarationsInFile d path = (tokens d path).map declarationsIn := by
  unfold declarationsInFile tokens
  cases d.read path with
  | error why => rfl
  | ok content =>
    simp only [Except.mapError, bind, Except.bind]
    cases tokenize (Text.decodeLossy content) with
    | error why => rfl
    | ok ts => rfl

end Candidate

namespace Verdict

/-- What each verdict says about its candidate. -/
theorem of_cases (d : Disk) (s : Settings) (c : Candidate) :
    (∃ path, Verdict.of d s c = .excluded path ∧ c.isExcluded s = true ∧
      c.failure? d s = none ∧ c.sightings d s = []) ∨
    (∃ e, Verdict.of d s c = .failed e ∧ c.isExcluded s = false ∧
      c.failure? d s = some e ∧ c.sightings d s = []) ∨
    (∃ path ds, Verdict.of d s c = .analysed path ds ∧ c.isExcluded s = false ∧
      c.failure? d s = none ∧
      c.sightings d s = Sighting.ofFile (Path.shown s.baseDirectory path) ds) := by
  cases c with
  | error e => exact .inr (.inl ⟨e, rfl, rfl, rfl, rfl⟩)
  | ok path =>
    simp only [Verdict.of, Candidate.isExcluded, Candidate.failure?, Candidate.sightings,
      Candidate.declarationsInFile_eq]
    cases hx : isExcluded s.excludePaths path with
    | true => exact .inl ⟨path, by simp⟩
    | false =>
      cases ht : Candidate.tokens d path with
      | error e => exact .inr (.inl ⟨e, by simp [Except.map]⟩)
      | ok ts => exact .inr (.inr ⟨path, declarationsIn ts, by simp [Except.map, Sighting.ofFile]⟩)

end Verdict

/-- The tally after one more candidate that does not end the run. -/
def Tally.note (d : Disk) (s : Settings) (tally : Tally) (c : Candidate) : Tally :=
  if c.isAnalysed d s then
    { tally with
      analysed := tally.analysed + 1
      sightings := c.sightings d s ++ tally.sightings }
  else { tally with excluded := tally.excluded + 1 }

namespace Run

@[simp]
theorem outcome_after (events : List Event) (r : Run) : (r.after events).outcome = r.outcome :=
  rfl

theorem resume_cons_strict (d : Disk) (s : Settings) (tally : Tally) (c : Candidate)
    (cs : List Candidate) (e : FileError) (hstrict : s.ignoreParseFailures = false)
    (hc : c.failure? d s = some e) :
    (resume d s tally (c :: cs)).outcome = .error e := by
  rcases Verdict.of_cases d s c with
    ⟨path, -, -, hnone, -⟩ | ⟨e', hv, -, hsome, -⟩ | ⟨path, ds, -, -, hnone, -⟩
  · rw [hnone] at hc
    cases hc
  · rw [hsome] at hc
    cases hc
    simp [resume, hv, hstrict]
  · rw [hnone] at hc
    cases hc

theorem resume_cons_goes_on (d : Disk) (s : Settings) (tally : Tally) (c : Candidate)
    (cs : List Candidate) (h : s.ignoreParseFailures = true ∨ c.failure? d s = none) :
    (resume d s tally (c :: cs)).outcome = (resume d s (tally.note d s c) cs).outcome := by
  rcases Verdict.of_cases d s c with
    ⟨path, hv, hx, hnone, -⟩ | ⟨e, hv, hx, hsome, -⟩ | ⟨path, ds, hv, hx, hnone, hseen⟩
  · simp [resume, hv, Tally.note, Candidate.isAnalysed, hx]
  · have htolerant : s.ignoreParseFailures = true := by simpa [hsome] using h
    simp [resume, hv, htolerant, Tally.note, Candidate.isAnalysed, hsome]
  · simp [resume, hv, Tally.note, Candidate.isAnalysed, hx, hnone, hseen]

/-- A strict run ends with the first failure. -/
theorem resume_strict (d : Disk) (s : Settings) (tally : Tally) (before : List Candidate)
    (c : Candidate) (after : List Candidate) (e : FileError)
    (hstrict : s.ignoreParseFailures = false)
    (hbefore : ∀ b ∈ before, b.failure? d s = none) (hc : c.failure? d s = some e) :
    (resume d s tally (before ++ c :: after)).outcome = .error e := by
  induction before generalizing tally with
  | nil => exact resume_cons_strict d s tally c after e hstrict hc
  | cons b before ih =>
    have hb : b.failure? d s = none := hbefore b List.mem_cons_self
    rw [List.cons_append, resume_cons_goes_on d s tally b _ (.inr hb)]
    exact ih (tally.note d s b) fun x hx => hbefore x (List.mem_cons_of_mem b hx)

/-- A run that no failure ends notes all of its candidates. -/
theorem resume_ok (d : Disk) (s : Settings) (tally : Tally) (cs : List Candidate)
    (h : s.ignoreParseFailures = true ∨ ∀ c ∈ cs, c.failure? d s = none) :
    (resume d s tally cs).outcome = .ok (cs.foldl (Tally.note d s) tally).findings := by
  induction cs generalizing tally with
  | nil => rfl
  | cons c cs ih =>
    have hc : s.ignoreParseFailures = true ∨ c.failure? d s = none :=
      h.imp_right fun hnone => hnone c List.mem_cons_self
    have hcs : s.ignoreParseFailures = true ∨ ∀ x ∈ cs, x.failure? d s = none :=
      h.imp_right fun hnone x hx => hnone x (List.mem_cons_of_mem c hx)
    rw [resume_cons_goes_on d s tally c cs hc, ih (tally.note d s c) hcs, List.foldl_cons]

end Run

/-- A tally has counted each of the candidates once and seen what they declare. -/
structure Tally.Covers (d : Disk) (s : Settings) (cs : List Candidate) (tally : Tally) :
    Prop where
  analysed : tally.analysed = cs.countP (·.isAnalysed d s)
  excluded : tally.excluded =
    cs.countP (·.isExcluded s) + cs.countP fun c => (c.failure? d s).isSome
  sightings : tally.sightings.Perm (cs.flatMap (·.sightings d s))

namespace Candidate

/-- A candidate is analysed, excluded or failing, and only one of these. -/
theorem counted_once (d : Disk) (s : Settings) (c : Candidate) :
    (if c.isAnalysed d s = true then 1 else 0) + ((if c.isExcluded s = true then 1 else 0) +
      if (c.failure? d s).isSome = true then 1 else 0) = 1 := by
  unfold isAnalysed
  rcases Verdict.of_cases d s c with
    ⟨path, -, hx, hf, -⟩ | ⟨e, -, hx, hf, -⟩ | ⟨path, ds, -, hx, hf, -⟩
  · simp [hx, hf]
  · simp [hx, hf]
  · simp [hx, hf]

theorem sightings_of_not_isAnalysed (d : Disk) (s : Settings) (c : Candidate)
    (h : c.isAnalysed d s = false) : c.sightings d s = [] := by
  rcases Verdict.of_cases d s c with
    ⟨path, -, -, -, hseen⟩ | ⟨e, -, -, -, hseen⟩ | ⟨path, ds, -, hx, hnone, -⟩
  · exact hseen
  · exact hseen
  · simp [isAnalysed, hx, hnone] at h

theorem countP_isAnalysed (d : Disk) (s : Settings) (cs : List Candidate) :
    cs.countP (·.isAnalysed d s) +
      (cs.countP (·.isExcluded s) + cs.countP fun c => (c.failure? d s).isSome) = cs.length := by
  induction cs with
  | nil => rfl
  | cons c cs ih =>
    have hone := counted_once d s c
    simp only [List.countP_cons, List.length_cons]
    omega

theorem exists_first_failure (d : Disk) (s : Settings) (cs : List Candidate)
    (h : ∃ c ∈ cs, c.failure? d s ≠ none) :
    ∃ e before c after, cs = before ++ c :: after ∧
      (∀ b ∈ before, b.failure? d s = none) ∧ c.failure? d s = some e := by
  obtain ⟨c, hc, hne⟩ := h
  have hsome : (cs.findSome? (·.failure? d s)).isSome = true := by
    rw [List.findSome?_isSome_iff]
    exact ⟨c, hc, Option.isSome_iff_ne_none.2 hne⟩
  obtain ⟨e, he⟩ := Option.isSome_iff_exists.1 hsome
  obtain ⟨before, b, after, hcs, hb, hbefore⟩ := List.findSome?_eq_some_iff.1 he
  exact ⟨e, before, b, after, hcs, hbefore, hb⟩

end Candidate

theorem Tally.covers_note (d : Disk) (s : Settings) (cs : List Candidate) (tally : Tally)
    (c : Candidate) (h : Tally.Covers d s cs tally) :
    Tally.Covers d s (cs ++ [c]) (tally.note d s c) := by
  obtain ⟨hanalysed, hexcluded, hsightings⟩ := h
  have hone := Candidate.counted_once d s c
  -- The newest file stands in front of the tally, but last among the candidates.
  have hswap : (c.sightings d s ++ tally.sightings).Perm
      ((cs ++ [c]).flatMap (·.sightings d s)) := by
    simpa using (hsightings.append_left (c.sightings d s)).trans List.perm_append_comm
  unfold Tally.note
  by_cases hc : c.isAnalysed d s = true
  · rw [if_pos hc] at hone
    rw [if_pos hc]
    refine ⟨by simp [hanalysed, hc], ?_, hswap⟩
    simp only [hexcluded, List.countP_append, List.countP_singleton]
    omega
  · rw [if_neg hc] at hone
    rw [if_neg hc]
    rw [Candidate.sightings_of_not_isAnalysed d s c (by simpa using hc)] at hswap
    refine ⟨by simp [hanalysed, hc], ?_, hswap⟩
    simp only [hexcluded, List.countP_append, List.countP_singleton]
    omega

theorem Tally.covers_foldl (d : Disk) (s : Settings) (seen cs : List Candidate) (tally : Tally)
    (h : Tally.Covers d s seen tally) :
    Tally.Covers d s (seen ++ cs) (cs.foldl (Tally.note d s) tally) := by
  induction cs generalizing seen tally with
  | nil => simpa using h
  | cons c cs ih =>
    have hstep := Tally.covers_note d s seen tally c h
    simpa using ih (seen ++ [c]) (tally.note d s c) hstep

/-- What findings say about the candidates of a run. -/
structure Findings.Accounts (d : Disk) (s : Settings) (cs : List Candidate) (f : Findings) :
    Prop where
  analysed : f.filesAnalysed = cs.countP (·.isAnalysed d s)
  excluded : f.filesExcluded =
    cs.countP (·.isExcluded s) + cs.countP fun c => (c.failure? d s).isSome
  total : f.filesAnalysed + f.filesExcluded = cs.length
  collides : ∀ g n, (∃ ls, ⟨g, n, ls⟩ ∈ f.collisions) ↔
    2 ≤ (Sighting.locationsOf g n (cs.flatMap (·.sightings d s))).length
  locations : ∀ c ∈ f.collisions,
    c.locations.Perm (Sighting.locationsOf c.group c.name (cs.flatMap (·.sightings d s))) ∧
      c.locations.Pairwise Location.Before
  increasing : f.collisions.Pairwise fun a b =>
    nameplate a.group a.name < nameplate b.group b.name

theorem Tally.accounts_findings (d : Disk) (s : Settings) (cs : List Candidate) (tally : Tally)
    (h : Tally.Covers d s cs tally) : tally.findings.Accounts d s cs := by
  have hperm : ∀ g n, (Sighting.locationsOf g n tally.sightings).Perm
      (Sighting.locationsOf g n (cs.flatMap (·.sightings d s))) :=
    fun g n => Sighting.locationsOf_perm g n _ _ h.sightings
  refine ⟨h.analysed, h.excluded, ?_, ?_, ?_, collisions_increasing tally.sightings⟩
  · have hcount := Candidate.countP_isAnalysed d s cs
    rwa [← h.excluded, ← h.analysed] at hcount
  · intro g n
    rw [← (hperm g n).length_eq]
    exact exists_mem_collisions_iff tally.sightings g n
  · intro c hc
    obtain ⟨-, hlocations, hbefore⟩ := (mem_collisions_iff tally.sightings c).1 hc
    exact ⟨hlocations.trans (hperm c.group c.name), hbefore⟩

/-- A strict run fails exactly if a candidate does, with the error of the first
one. Any other run accounts for all candidates. -/
theorem detect_outcome (d : Disk) (s : Settings) :
    let cs := s.scanPaths.flatMap (Candidate.ofRoot d s.fileExtensions)
    (s.ignoreParseFailures = false →
      ((∃ e, (detect d s).outcome = .error e) ↔ ∃ c ∈ cs, c.failure? d s ≠ none)) ∧
    (∀ e, (detect d s).outcome = .error e ↔
      s.ignoreParseFailures = false ∧
        ∃ before c after, cs = before ++ c :: after ∧
          (∀ b ∈ before, b.failure? d s = none) ∧ c.failure? d s = some e) ∧
    (s.ignoreParseFailures = true ∨ (∀ c ∈ cs, c.failure? d s = none) →
      ∃ f, (detect d s).outcome = .ok f ∧ f.Accounts d s cs) := by
  intro cs
  have hrun : detect d s = Run.resume d s {} cs := rfl
  have hok : s.ignoreParseFailures = true ∨ (∀ c ∈ cs, c.failure? d s = none) →
      ∃ f, (detect d s).outcome = .ok f ∧ f.Accounts d s cs := by
    intro h
    have hstart : Tally.Covers d s [] {} := ⟨rfl, rfl, .refl _⟩
    have hcovers := Tally.covers_foldl d s [] cs {} hstart
    refine ⟨_, ?_, Tally.accounts_findings d s cs _ hcovers⟩
    rw [hrun]
    exact Run.resume_ok d s {} cs h
  have hfirst : ∀ e before c after, s.ignoreParseFailures = false →
      cs = before ++ c :: after → (∀ b ∈ before, b.failure? d s = none) →
      c.failure? d s = some e → (detect d s).outcome = .error e := by
    intro e before c after hs hcs hbefore hc
    rw [hrun, hcs]
    exact Run.resume_strict d s {} before c after e hs hbefore hc
  -- A run that is not strict, or without failures, has an outcome of its own.
  have herror : ∀ e, (detect d s).outcome = .error e →
      s.ignoreParseFailures = false ∧ ∃ c ∈ cs, c.failure? d s ≠ none := by
    intro e he
    by_contra hnot
    have hcase : s.ignoreParseFailures = true ∨ ∀ c ∈ cs, c.failure? d s = none := by
      cases hs : s.ignoreParseFailures with
      | true => exact .inl rfl
      | false => simpa [hs] using hnot
    obtain ⟨f, hf, -⟩ := hok hcase
    rw [he] at hf
    cases hf
  refine ⟨?_, ?_, hok⟩
  · intro hs
    constructor
    · rintro ⟨e, he⟩
      exact (herror e he).2
    · intro h
      obtain ⟨e, before, c, after, hcs, hbefore, hc⟩ := Candidate.exists_first_failure d s cs h
      exact ⟨e, hfirst e before c after hs hcs hbefore hc⟩
  · intro e
    constructor
    · intro he
      obtain ⟨hs, h⟩ := herror e he
      obtain ⟨e', before, c, after, hcs, hbefore, hc⟩ := Candidate.exists_first_failure d s cs h
      -- The outcome is that of the first failure, so the two errors are one.
      have he' := hfirst e' before c after hs hcs hbefore hc
      rw [he] at he'
      cases he'
      exact ⟨hs, before, c, after, hcs, hbefore, hc⟩
    · rintro ⟨hs, before, c, after, hcs, hbefore, hc⟩
      exact hfirst e before c after hs hcs hbefore hc

/-- A disk with a single file, which is empty. -/
def singleFile : Disk where
  tree :=
    { entries := [("a", .file [])]
      ordered := .directory (.cons (by simp) .nil) (by simpa using .file _) }
  directory := []

/-- One path to scan leads to the file, the other one leads nowhere. -/
def strayPath (tolerant : Bool) : Settings :=
  ⟨["/a", "/b"], [], ["a"], "/", tolerant⟩

theorem detect_outcome_strayPath :
    (∃ before c after,
      ["/a", "/b"].flatMap (Candidate.ofRoot singleFile ["a"]) = before ++ c :: after ∧
        (∀ b ∈ before, b.failure? singleFile (strayPath false) = none) ∧
        c.failure? singleFile (strayPath false) = some (.unlistable "/b" .missing)) ∧
    Findings.Accounts singleFile (strayPath true)
      (["/a", "/b"].flatMap (Candidate.ofRoot singleFile ["a"])) ⟨1, 1, []⟩ := by
  have hstrict : (detect singleFile (strayPath false)).outcome =
      .error (.unlistable "/b" .missing) := by cbv
  have htolerant : (detect singleFile (strayPath true)).outcome = .ok ⟨1, 1, []⟩ := by cbv
  have hfirst := ((detect_outcome singleFile (strayPath false)).2.1 _).1 hstrict
  obtain ⟨f, hf, haccounts⟩ := (detect_outcome singleFile (strayPath true)).2.2 (.inl rfl)
  rw [htolerant] at hf
  cases hf
  exact ⟨hfirst.2, haccounts⟩

end Redeclaration
