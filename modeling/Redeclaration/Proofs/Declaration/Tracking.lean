import Mathlib.Data.List.Induction
import Redeclaration.Proofs.Declaration.OpenCapture

/-!
The scan follows the outline: after every list of tokens, each part of its state
is what the outline of the list tells. Main statement: the scan finds exactly
the declarations of the outline, in the order of their keywords.
-/

namespace Redeclaration.Outline

/-- The capture opened at an index, with the name that it has so far. -/
structure Captures (ts : List Token) (i : Nat) (c : Capture) : Prop where
  isOpen : Open ts i
  started : ∃ t, ts[i]? = some t ∧
    Capture.start? (withinUse ts i) t = some { c with name := "" }
  name : c.name = nameBetween ts i ts.length

structure Tracks (ts : List Token) (s : Scan) : Prop where
  level : s.level = braces ts
  afterUse : s.afterUse = withinUse ts ts.length
  qualifier : s.qualifier = Outline.qualifier ts ts.length
  depth : s.depth = Outline.depth ts ts.length
  idle : s.capture = none → ∀ i, ¬ Open ts i
  busy : ∀ c, s.capture = some c → ∃ i, Captures ts i c

theorem tracks_nil : Tracks [] {} where
  level := rfl
  afterUse := rfl
  qualifier := rfl
  depth := rfl
  idle := by
    intro _ i h
    have hi := lt_length_of_opensAt [] i h.1
    simp at hi
  busy := by
    intro c hc
    cases hc

theorem afterUse_step (ts : List Token) (s : Scan) (t : Token) (h : Tracks ts s) :
    (s.step t).afterUse = withinUse (ts ++ [t]) (ts ++ [t]).length := by
  rw [List.length_append, List.length_singleton, withinUse_snoc, ← h.afterUse]
  rfl

/-- A token without a new namespace leaves the one in force. -/
theorem tracks_space (ts : List Token) (s : Scan) (t : Token) (h : Tracks ts s)
    (hspaces : spaces (ts ++ [t]) (ts.length + 1) = spaces ts ts.length) :
    s.qualifier = Outline.qualifier (ts ++ [t]) (ts ++ [t]).length ∧
      s.depth = Outline.depth (ts ++ [t]) (ts ++ [t]).length := by
  rw [List.length_append, List.length_singleton, qualifier_of_spaces ts [t] _ _ hspaces,
    depth_of_spaces ts [t] _ _ hspaces]
  exact ⟨h.qualifier, h.depth⟩

theorem spaces_snoc_of_incomplete (ts : List Token) (t : Token)
    (h : passes t = true ∨ opensAt (ts ++ [t]) ts.length = true) :
    spaces (ts ++ [t]) (ts.length + 1) = spaces ts ts.length := by
  by_cases ho : ∃ i, Open ts i
  · obtain ⟨i, hi⟩ := ho
    have hc : completion? (ts ++ [t]) i = none := by
      rw [completion?_snoc_of_open ts t i hi, if_pos (by simpa using h)]
    rw [spaces_snoc_of_open ts t i hi, spaceAt?_of_completion?_none _ i hc]
    simp
  · rw [not_exists] at ho
    exact spaces_snoc_of_not_open ts t ho

theorem opensAt_last (ts : List Token) (t : Token) :
    opensAt (ts ++ [t]) ts.length =
      (Capture.start? (withinUse ts ts.length) t).isSome := by
  rw [opensAt_eq_start _ _ t (by simp), withinUse_append ts [t] _ le_rfl]

theorem open_snoc (ts : List Token) (t : Token) (i : Nat) (h : Open (ts ++ [t]) i)
    (hstart : Capture.start? (withinUse ts ts.length) t = none) :
    Open ts i ∧ passes t = true := by
  have hlt := lt_length_of_opensAt _ i h.1
  rw [List.length_append, List.length_singleton] at hlt
  by_cases hi : i < ts.length
  · exact (open_snoc_iff ts t i hi).1 h
  · have hopens := h.1
    rw [show i = ts.length by omega, opensAt_last, hstart] at hopens
    cases hopens

/-- The step of a scan that opens a capture. -/
theorem tracks_step_opening (ts : List Token) (s : Scan) (t : Token) (c : Capture)
    (h : Tracks ts s) (hc : Capture.start? s.afterUse t = some c) :
    Tracks (ts ++ [t]) (s.step t) := by
  have hc' : Capture.start? (withinUse ts ts.length) t = some c := by rwa [← h.afterUse]
  obtain ⟨k, hk, huse, -, hname, -⟩ := start?_eq_some _ t c hc
  -- A capture that is open already is given up without a namespace.
  have hopens : opensAt (ts ++ [t]) ts.length = true := by rw [opensAt_last, hc']; rfl
  have hspace := tracks_space ts s t h (spaces_snoc_of_incomplete ts t (.inr hopens))
  have hafter := afterUse_step ts s t h
  have hstep : s.step t = { s with capture := some c, afterUse := false } := by
    simp [Scan.step, Scan.follow, hc, hk, Kind.isIgnorable, Kind.isTrivia, Token.isKeyword, huse]
  rw [hstep] at hafter ⊢
  refine ⟨?_, hafter, hspace.1, hspace.2, ?_, ?_⟩
  · simp [braces_snoc, opensBrace, hk, h.level]
  · intro hnone
    cases hnone
  · intro c' hsome
    cases hsome
    refine ⟨ts.length, ⟨hopens, stop?_last ts t⟩, ⟨t, by simp, ?_⟩, ?_⟩
    · rw [withinUse_append ts [t] _ le_rfl, hc', ← hname]
    · rw [List.length_append, List.length_singleton, nameBetween_last, hname]

/-- The step of a scan over trivia or over a part of a name. -/
theorem tracks_step_passing (ts : List Token) (s : Scan) (t : Token) (h : Tracks ts s)
    (ht : passes t = true) : Tracks (ts ++ [t]) (s.step t) := by
  have hspace := tracks_space ts s t h (spaces_snoc_of_incomplete ts t (.inl ht))
  have hafter := afterUse_step ts s t h
  have hfacts : Capture.start? s.afterUse t = none ∧ Scan.endsCapture t = false ∧
      opensBrace t = false ∧ (t.kind == .closeBrace) = false := by
    cases hk : t.kind <;>
      simp_all [passes, Token.isTrivia, Kind.isTrivia, Kind.isNameFragment, Capture.start?,
        Scan.endsCapture, opensBrace]
  obtain ⟨hstart, hends, hopen, hclose⟩ := hfacts
  have hstep : s.step t =
      { s with
        capture := s.capture.map fun c =>
          { c with name := c.name ++ if t.kind.isNameFragment then t.text else "" }
        afterUse := if t.kind.isIgnorable then s.afterUse else t.isKeyword .useKw } := by
    unfold Scan.step Scan.follow
    rw [hstart, hends]
    cases t.kind.isNameFragment <;> simp
  rw [hstep] at hafter ⊢
  refine ⟨?_, hafter, hspace.1, hspace.2, ?_, ?_⟩
  · simp [braces_snoc, hopen, hclose, h.level]
  · intro hnone i hi
    rw [h.afterUse] at hstart
    exact h.idle (Option.map_eq_none_iff.1 hnone) i (open_snoc ts t i hi hstart).1
  · intro c' hsome
    obtain ⟨c, hc, rfl⟩ := Option.map_eq_some_iff.1 hsome
    obtain ⟨i, hopens, ⟨u, hu, hstarted⟩, hname⟩ := h.busy c hc
    have hi := lt_length_of_opensAt ts i hopens.1
    refine ⟨i, (open_snoc_iff ts t i hi).2 ⟨hopens, ht⟩, ⟨u, ?_, ?_⟩, ?_⟩
    · rw [List.getElem?_append_left hi, hu]
    · rw [withinUse_append ts [t] i hi.le, hstarted]
    · rw [List.length_append, List.length_singleton, nameBetween_snoc ts t i hi, hname]

/-- The step of a scan over a keyword that an import suppresses. -/
theorem tracks_step_suppressed (ts : List Token) (s : Scan) (t : Token) (k : Keyword)
    (h : Tracks ts s) (hk : t.kind = .keyword k) (huse : k ≠ .useKw)
    (huses : s.afterUse = true) (hstart : Capture.start? s.afterUse t = none) :
    Tracks (ts ++ [t]) (s.step t) := by
  -- Nothing is open right after an import, so the keyword has nothing to end.
  have hidle : ∀ i, ¬ Open ts i := by
    intro i hi
    have hno := not_withinUse_of_open ts i hi
    rw [← h.afterUse, huses] at hno
    cases hno
  have hcapture : s.capture = none := by
    cases hc : s.capture with
    | none => rfl
    | some c =>
      obtain ⟨i, hi⟩ := h.busy c hc
      exact absurd hi.isOpen (hidle i)
  have hspace := tracks_space ts s t h (spaces_snoc_of_not_open ts t hidle)
  have hafter := afterUse_step ts s t h
  have hstep : s.step t = { s with afterUse := false } := by
    simp [Scan.step, Scan.follow, hstart, Scan.endsCapture, hk, huse, Kind.isNameFragment,
      Kind.isIgnorable, Kind.isTrivia, Token.isKeyword]
  rw [hstep] at hafter ⊢
  refine ⟨?_, hafter, hspace.1, hspace.2, ?_, ?_⟩
  · simp [braces_snoc, opensBrace, hk, h.level]
  · intro _ i hi
    rw [h.afterUse] at hstart
    exact hidle i (open_snoc ts t i hi hstart).1
  · intro c hsome
    rw [hcapture] at hsome
    cases hsome

/-- Outside of imports, a token ends captures exactly if it opens none and does
not stand inside of one. -/
theorem endsCapture_eq (t : Token) :
    Scan.endsCapture t = !(passes t || (Capture.start? false t).isSome) := by
  cases hk : t.kind with
  | keyword k =>
    cases k <;> simp [Scan.endsCapture, Capture.start?, passes, Token.isTrivia, hk,
      Kind.isTrivia, Kind.isNameFragment, Group.ofKeyword?]
  | _ =>
    simp [Scan.endsCapture, Capture.start?, passes, Token.isTrivia, hk, Kind.isTrivia,
      Kind.isNameFragment]

/-- An import only takes openings away. -/
theorem start?_eq_none_of_false (b : Bool) (t : Token) (h : Capture.start? false t = none) :
    Capture.start? b t = none := by
  cases b with
  | false => exact h
  | true =>
    unfold Capture.start? at h ⊢
    cases hk : t.kind with
    | keyword k => cases k <;> simp_all [Group.ofKeyword?]
    | _ => rfl

theorem endsCapture_facts (b : Bool) (t : Token) (h : Scan.endsCapture t = true) :
    Capture.start? b t = none ∧ passes t = false := by
  rw [endsCapture_eq, Bool.not_eq_true', Bool.or_eq_false_iff] at h
  have hnone : Capture.start? false t = none := by simpa using h.2
  exact ⟨start?_eq_none_of_false b t hnone, h.1⟩

theorem completion?_of_endsCapture (ts : List Token) (t : Token) (i : Nat) (h : Open ts i)
    (ht : Scan.endsCapture t = true) : completion? (ts ++ [t]) i = some ts.length := by
  obtain ⟨hstart, hpass⟩ := endsCapture_facts (withinUse ts ts.length) t ht
  rw [completion?_snoc_of_open ts t i h, opensAt_last, hstart, hpass]
  rfl

/-- The namespaces after a token that ends the open capture. -/
theorem spaces_of_endsCapture (ts : List Token) (t : Token) (i : Nat) (c : Capture)
    (h : Captures ts i c) (ht : Scan.endsCapture t = true) :
    spaces (ts ++ [t]) (ts.length + 1) =
      spaces ts ts.length ++ if c.subject = .space then [(i, ts.length)] else [] := by
  obtain ⟨u, hu, hstarted⟩ := h.started
  have hi := lt_length_of_opensAt ts i h.isOpen.1
  obtain ⟨k, hk, -, -, -, hsubject⟩ := start?_eq_some _ u _ hstarted
  rw [spaces_snoc_of_open ts t i h.isOpen]
  unfold spaceAt?
  rw [completion?_of_endsCapture ts t i h.isOpen ht, List.getElem?_append_left hi, hu]
  rcases hsubject with ⟨rfl, hs⟩ | ⟨g, hg, hs⟩
  · simp only at hs
    simp [Token.isKeyword, hk, hs]
  · have hne : k ≠ .namespaceKw := by
      rintro rfl
      cases hg
    simp only at hs
    simp [Token.isKeyword, hk, hs, hne]

theorem spaces_of_idle (ts : List Token) (s : Scan) (t : Token) (h : Tracks ts s)
    (hc : s.capture = none ∨ ∃ c g, s.capture = some c ∧ c.subject = .declaration g)
    (ht : Scan.endsCapture t = true) :
    spaces (ts ++ [t]) (ts.length + 1) = spaces ts ts.length := by
  rcases hc with hc | ⟨c, g, hc, hg⟩
  · exact spaces_snoc_of_not_open ts t (h.idle hc)
  · obtain ⟨i, hi⟩ := h.busy c hc
    rw [spaces_of_endsCapture ts t i c hi ht, hg]
    simp

/-- The end of a capture puts its namespace into force, if it is one. -/
theorem finish_tracks (ts : List Token) (s : Scan) (t : Token) (h : Tracks ts s)
    (ht : Scan.endsCapture t = true) :
    (s.finish t).qualifier = Outline.qualifier (ts ++ [t]) (ts ++ [t]).length ∧
      (s.finish t).depth = Outline.depth (ts ++ [t]) (ts ++ [t]).length := by
  cases hc : s.capture with
  | none =>
    have hspace := tracks_space ts s t h (spaces_of_idle ts s t h (.inl hc) ht)
    simpa only [Scan.finish, hc] using hspace
  | some c =>
    obtain ⟨subject, line, name⟩ := c
    cases subject with
    | declaration g =>
      have hspace := tracks_space ts s t h (spaces_of_idle ts s t h (.inr ⟨_, g, hc, rfl⟩) ht)
      simpa only [Scan.finish, hc] using hspace
    | space =>
      -- The namespace itself is the last completed one from now on.
      obtain ⟨i, hi⟩ := h.busy _ hc
      have hname : name = nameBetween ts i ts.length := hi.name
      have hlast := spaces_of_endsCapture ts t i _ hi ht
      rw [if_pos rfl] at hlast
      unfold Outline.qualifier Outline.depth
      rw [List.length_append, List.length_singleton, hlast, List.getLast?_append]
      simp [Scan.finish, hc, Scan.qualifierOf, Scan.depthOf, hname,
        nameBetween_append ts [t] i ts.length le_rfl]

theorem levelAfter_eq (s : Scan) (t : Token) :
    s.levelAfter t =
      s.level + (if opensBrace t then 1 else 0) - (if t.kind == .closeBrace then 1 else 0) := by
  unfold Scan.levelAfter opensBrace
  cases hk : t.kind <;> simp

/-- The step of a scan that ends a capture, or would end one. -/
theorem tracks_step_ending (ts : List Token) (s : Scan) (t : Token) (h : Tracks ts s)
    (ht : Scan.endsCapture t = true) : Tracks (ts ++ [t]) (s.step t) := by
  obtain ⟨hstart, hpass⟩ := endsCapture_facts s.afterUse t ht
  have hfragment : t.kind.isNameFragment = false := by
    simp only [passes, Bool.or_eq_false_iff] at hpass
    exact hpass.2
  have hstep : s.step t =
      { s.finish t with
        level := s.levelAfter t
        afterUse := if t.kind.isIgnorable then s.afterUse else t.isKeyword .useKw } := by
    simp [Scan.step, Scan.follow, hstart, hfragment, ht]
  have hcapture : (s.finish t).capture = none := by
    unfold Scan.finish
    split <;> rfl
  have hspace := finish_tracks ts s t h ht
  have hafter := afterUse_step ts s t h
  rw [hstep] at hafter ⊢
  refine ⟨?_, hafter, hspace.1, hspace.2, ?_, ?_⟩
  · rw [braces_snoc, ← h.level]
    exact levelAfter_eq s t
  · intro _ i hi
    rw [h.afterUse] at hstart
    have hp := (open_snoc ts t i hi hstart).2
    rw [hpass] at hp
    cases hp
  · intro c hsome
    simp only [hcapture] at hsome
    cases hsome

theorem tracks_step (ts : List Token) (s : Scan) (t : Token) (h : Tracks ts s) :
    Tracks (ts ++ [t]) (s.step t) := by
  cases hstart : Capture.start? s.afterUse t with
  | some c => exact tracks_step_opening ts s t c h hstart
  | none =>
    by_cases hpass : passes t = true
    · exact tracks_step_passing ts s t h hpass
    by_cases hends : Scan.endsCapture t = true
    · exact tracks_step_ending ts s t h hends
    -- What is left is a keyword that starts nothing, which an import must suppress.
    cases hk : t.kind with
    | keyword k =>
      have huse : k ≠ .useKw := by
        rintro rfl
        simp [Scan.endsCapture, hk] at hends
      have hafter : s.afterUse = true := by
        cases k <;> cases ha : s.afterUse <;>
          simp_all [Capture.start?, Group.ofKeyword?]
      exact tracks_step_suppressed ts s t k h hk huse hafter hstart
    | _ =>
      simp_all [passes, Token.isTrivia, Scan.endsCapture, Kind.isTrivia, Kind.isNameFragment]

/-- The state after any list of tokens is the one that its outline tells. -/
theorem tracks_run (ts : List Token) : Tracks ts (ts.foldl Scan.step {}) := by
  induction ts using List.reverseRecOn with
  | nil => exact tracks_nil
  | append_singleton ts t ih =>
    rw [List.foldl_append]
    exact tracks_step ts _ t ih

/-- What a token completes is the declaration of the open capture. -/
theorem completed?_eq_declarationAt? (ts : List Token) (s : Scan) (t : Token) (i : Nat)
    (c : Capture) (h : Tracks ts s) (hc : s.capture = some c) (hi : Captures ts i c) :
    s.completed? t = declarationAt? (ts ++ [t]) i := by
  have hlt := lt_length_of_opensAt ts i hi.isOpen.1
  obtain ⟨u, hu, hstarted⟩ := hi.started
  obtain ⟨k, hk, -, hline, -, hsubject⟩ := start?_eq_some _ u _ hstarted
  have hspaces := spaces_of_open ts [t] i hi.isOpen
  have hends : Scan.endsCapture t = !(passes t || opensAt (ts ++ [t]) ts.length) := by
    -- No import reaches past the opening of the capture.
    rw [opensAt_last, not_withinUse_of_open ts i hi.isOpen]
    exact endsCapture_eq t
  -- The namespace of the opening is still the one in force, and so is its depth.
  unfold declarationAt? Scan.completed?
  rw [List.getElem?_append_left hlt, hu, completion?_snoc_of_open ts t i hi.isOpen,
    depth_of_spaces ts [t] _ _ hspaces, qualifier_of_spaces ts [t] _ _ hspaces, hc,
    ← h.depth, ← h.qualifier]
  obtain ⟨subject, line, name⟩ := c
  simp only at hline hsubject
  have hname : name = nameBetween (ts ++ [t]) i ts.length := by
    rw [nameBetween_append ts [t] i _ le_rfl]
    exact hi.name
  cases hstop : passes t || opensAt (ts ++ [t]) ts.length with
  | true =>
    rw [hstop] at hends
    rcases hsubject with ⟨-, rfl⟩ | ⟨g, -, rfl⟩ <;> simp [hends]
  | false =>
    rw [hstop] at hends
    have hlevel : s.levelAt t = level (ts ++ [t]) ts.length := by
      rw [level_last, ← h.level]
      unfold Scan.levelAt
      split <;> simp
    rcases hsubject with ⟨rfl, rfl⟩ | ⟨g, hg, rfl⟩
    · simp [group?, hk, Group.ofKeyword?]
    · simp [group?, hk, hg, hends, hlevel, ← hname, hline]

theorem declarations_snoc (ts : List Token) (s : Scan) (t : Token) (h : Tracks ts s) :
    declarations (ts ++ [t]) = declarations ts ++ (s.completed? t).toList := by
  cases hc : s.capture with
  | none =>
    rw [declarations_snoc_of_not_open ts t (h.idle hc)]
    simp [Scan.completed?, hc]
  | some c =>
    obtain ⟨i, hi⟩ := h.busy c hc
    rw [declarations_snoc_of_open ts t i hi.isOpen, completed?_eq_declarationAt? ts s t i c h hc hi]

theorem scan_append (s : Scan) (ts us : List Token) :
    s.declarations (ts ++ us) = s.declarations ts ++ (ts.foldl Scan.step s).declarations us := by
  induction ts generalizing s with
  | nil => rfl
  | cons t ts ih =>
    simp only [List.cons_append, Scan.declarations, ih, List.append_assoc, List.foldl_cons]

/-- The scan finds exactly the declarations of the outline, in the order of
their keywords, for every list of tokens. -/
theorem declarationsIn_eq_outline (ts : List Token) : declarationsIn ts = declarations ts := by
  induction ts using List.reverseRecOn with
  | nil => rfl
  | append_singleton ts t ih =>
    have hscan : declarationsIn (ts ++ [t]) =
        declarationsIn ts ++ ((ts.foldl Scan.step {}).completed? t).toList := by
      unfold declarationsIn
      rw [scan_append]
      simp [Scan.declarations]
    rw [hscan, ih, declarations_snoc ts _ t (tracks_run ts)]

end Redeclaration.Outline
