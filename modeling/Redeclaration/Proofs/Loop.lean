import Mathlib.Logic.Relation
import Mathlib.Order.WellFounded

/-!
Loops over a text that call one another. One turn is what the innermost loop does until it
goes on, calls another loop or is left. Main statement: if no turn that goes on or calls
stays where it is, and none goes back, then every iteration of every loop advances or is the
last one, with all that it calls, and every loop comes to its end.
-/

namespace Redeclaration

/-- The later place in a text lies strictly behind the earlier one. Places are given by what
is left of the text. -/
def Ahead (earlier later : List Char) : Prop :=
  later <:+ earlier ∧ later.length < earlier.length

theorem Ahead.trans_suffix {cs ds es : List Char} (h : Ahead cs ds) (hes : es <:+ ds) :
    Ahead cs es :=
  ⟨hes.trans h.1, hes.length_le.trans_lt h.2⟩

theorem Ahead.of_suffix {cs ds es : List Char} (hds : ds <:+ cs) (h : Ahead ds es) :
    Ahead cs es :=
  ⟨h.1.trans hds, h.2.trans_le hds.length_le⟩

theorem Ahead.pos {cs : List Char} {n : Nat} (h : Ahead cs (cs.drop n)) : 0 < n := by
  have hlt := h.2
  rw [List.length_drop] at hlt
  omega

theorem ahead_drop (c : Char) (cs : List Char) (n : Nat) (hn : 0 < n) :
    Ahead (c :: cs) ((c :: cs).drop n) := by
  refine ⟨List.drop_suffix n _, ?_⟩
  rw [List.length_drop, List.length_cons]
  omega

/-- What one turn of the innermost loop leads to. -/
inductive Turn (σ ρ : Type) where
  /-- The loop goes on. -/
  | again (state : σ)
  /-- The loop calls another one, which becomes the innermost. -/
  | enter (state : σ)
  /-- The loop is left, and the one that has called it goes on. -/
  | leave (state : σ)
  /-- All loops are left. -/
  | finish (result : ρ)

/-- How a loop comes to its end: by itself, or together with all others. -/
inductive Ending (σ ρ : Type) where
  | left (state : σ)
  | finished (result : ρ)

variable {σ ρ : Type}

section

variable (turn : σ → Turn σ ρ)

/-- From a state on, the innermost loop comes to its end after a number of turns. The turns
of the loops that it calls count. -/
inductive Runs : σ → Nat → Ending σ ρ → Prop
  | leave {s t : σ} (h : turn s = .leave t) : Runs s 1 (.left t)
  | finish {s : σ} {r : ρ} (h : turn s = .finish r) : Runs s 1 (.finished r)
  | again {s t : σ} {n : Nat} {e : Ending σ ρ} (h : turn s = .again t) (rest : Runs t n e) :
      Runs s (n + 1) e
  | call {s t u : σ} {m n : Nat} {e : Ending σ ρ} (h : turn s = .enter t)
      (inner : Runs t m (.left u)) (rest : Runs u n e) : Runs s (m + n + 1) e
  | abort {s t : σ} {n : Nat} {r : ρ} (h : turn s = .enter t)
      (inner : Runs t n (.finished r)) : Runs s (n + 1) (.finished r)

/-- One iteration of a loop, with all that it calls, up to the next iteration. -/
inductive Iterates : σ → σ → Prop
  | again {s t : σ} (h : turn s = .again t) : Iterates s t
  | call {s t u : σ} {n : Nat} (h : turn s = .enter t) (inner : Runs turn t n (.left u)) :
      Iterates s u

/-- An iteration after which its loop does not go on. -/
inductive IsLast : σ → Prop
  | leave {s t : σ} (h : turn s = .leave t) : IsLast s
  | finish {s : σ} {r : ρ} (h : turn s = .finish r) : IsLast s
  | abort {s t : σ} {n : Nat} {r : ρ} (h : turn s = .enter t)
      (inner : Runs turn t n (.finished r)) : IsLast s

/-- The loop that is in the state `s` calls, now or in a later iteration, a loop that starts
in the state `t`. -/
def Calls (s t : σ) : Prop :=
  ∃ u, Relation.ReflTransGen (Iterates turn) s u ∧ turn u = .enter t

/-- Loops over a text that come to their ends from whatever state. -/
structure Terminates (rest : σ → List Char) : Prop where
  /-- An iteration leads to the next one, or it is the last. -/
  iteration : ∀ s, (∃ t, Iterates turn s t) ∨ IsLast turn s
  /-- The next iteration starts further on. -/
  advances : ∀ s t, Iterates turn s t → Ahead (rest s) (rest t)
  /-- So does every loop that is called. -/
  calls : ∀ s t, Calls turn s t → Ahead (rest s) (rest t)
  wellFounded : WellFounded fun t s => Calls turn s t
  ends : ∀ s, ∃ n e, Runs turn s n e

end

/-! What one turn has to do. -/

section

variable (rest : σ → List Char) (depth : σ → Nat)

/-- A turn that goes on or calls advances, and no turn goes back. The depth counts the loops
that are entered and not left. -/
def Turn.Progresses (s : σ) : Turn σ ρ → Prop
  | .again t => Ahead (rest s) (rest t) ∧ depth t = depth s
  | .enter t => Ahead (rest s) (rest t) ∧ depth t = depth s + 1
  | .leave t => rest t <:+ rest s ∧ depth t + 1 = depth s
  | .finish _ => True

/-- A bound for the turns that are left: a loop that is entered has used up some text, and
is left once. -/
def turnsLeft (s : σ) : Nat :=
  2 * (rest s).length + depth s

def Ending.turnsLeft : Ending σ ρ → Nat
  | .left t => Redeclaration.turnsLeft rest depth t + 1
  | .finished _ => 0

variable {rest depth} {turn : σ → Turn σ ρ} (h : ∀ s, (turn s).Progresses rest depth s)

include h

theorem progresses_again {s t : σ} (ht : turn s = .again t) :
    Ahead (rest s) (rest t) ∧ depth t = depth s := by
  have hs := h s
  rwa [ht] at hs

theorem progresses_enter {s t : σ} (ht : turn s = .enter t) :
    Ahead (rest s) (rest t) ∧ depth t = depth s + 1 := by
  have hs := h s
  rwa [ht] at hs

theorem progresses_leave {s t : σ} (ht : turn s = .leave t) :
    rest t <:+ rest s ∧ depth t + 1 = depth s := by
  have hs := h s
  rwa [ht] at hs

/-! What a run does. -/

theorem Runs.turnsLeft_le {s : σ} {n : Nat} {e : Ending σ ρ} (hr : Runs turn s n e) :
    n + e.turnsLeft rest depth ≤ turnsLeft rest depth s + 1 := by
  induction hr with
  | leave ht =>
    obtain ⟨hrest, hdepth⟩ := progresses_leave h ht
    have hle := hrest.length_le
    simp only [Ending.turnsLeft, turnsLeft]
    omega
  | finish => simp [Ending.turnsLeft]
  | again ht _ ih =>
    obtain ⟨⟨-, hlt⟩, hdepth⟩ := progresses_again h ht
    simp only [turnsLeft] at ih ⊢
    omega
  | call ht _ _ ihinner ihrest =>
    -- The character that the call uses up pays for the call and for the way back.
    obtain ⟨⟨-, hlt⟩, hdepth⟩ := progresses_enter h ht
    simp only [Ending.turnsLeft, turnsLeft] at ihinner ihrest ⊢
    omega
  | abort ht _ ih =>
    obtain ⟨⟨-, hlt⟩, hdepth⟩ := progresses_enter h ht
    simp only [Ending.turnsLeft, turnsLeft] at ih ⊢
    omega

/-- A loop that is left has not gone back, and leaves the one that has called it. -/
theorem Runs.left {s t : σ} {n : Nat} (hr : Runs turn s n (.left t)) :
    rest t <:+ rest s ∧ depth t + 1 = depth s := by
  generalize he : Ending.left t = e at hr
  induction hr generalizing t with
  | leave ht =>
    cases he
    exact progresses_leave h ht
  | finish => cases he
  | again ht _ ih =>
    obtain ⟨hahead, hdepth⟩ := progresses_again h ht
    obtain ⟨hrest, hleft⟩ := ih he
    exact ⟨hrest.trans hahead.1, by omega⟩
  | call ht _ _ ihinner ihrest =>
    obtain ⟨hahead, hdepth⟩ := progresses_enter h ht
    obtain ⟨hinner, hreturn⟩ := ihinner rfl
    obtain ⟨hrest, hleft⟩ := ihrest he
    exact ⟨hrest.trans (hinner.trans hahead.1), by omega⟩
  | abort => cases he

/-- Every loop comes to its end: the turns that are left bound those that it takes, so the
induction is on their number. -/
theorem exists_runs (s : σ) : ∃ n e, Runs turn s n e := by
  generalize hn : turnsLeft rest depth s = k
  induction k using Nat.strong_induction_on generalizing s with
  | _ k ih =>
    subst hn
    cases ht : turn s with
    | again t =>
      obtain ⟨⟨-, hlt⟩, hdepth⟩ := progresses_again h ht
      obtain ⟨n, e, hr⟩ := ih _ (by simp only [turnsLeft]; omega) t rfl
      exact ⟨_, e, .again ht hr⟩
    | enter t =>
      obtain ⟨⟨-, hlt⟩, hdepth⟩ := progresses_enter h ht
      obtain ⟨n, e, hinner⟩ := ih _ (by simp only [turnsLeft]; omega) t rfl
      cases e with
      | left u =>
        -- The caller goes on where the inner loop is left, which is still further on.
        obtain ⟨hrest, hleft⟩ := hinner.left h
        have hle := hrest.length_le
        obtain ⟨m, e, hr⟩ := ih _ (by simp only [turnsLeft]; omega) u rfl
        exact ⟨_, e, .call ht hinner hr⟩
      | finished r => exact ⟨_, _, .abort ht hinner⟩
    | leave t => exact ⟨1, _, .leave ht⟩
    | finish r => exact ⟨1, _, .finish ht⟩

theorem Iterates.ahead {s t : σ} (hi : Iterates turn s t) : Ahead (rest s) (rest t) := by
  cases hi with
  | again ht => exact (progresses_again h ht).1
  | call ht inner => exact (progresses_enter h ht).1.trans_suffix (inner.left h).1

theorem Calls.ahead {s t : σ} (hc : Calls turn s t) : Ahead (rest s) (rest t) := by
  obtain ⟨u, hiterates, ht⟩ := hc
  have hcall : Ahead (rest u) (rest t) := (progresses_enter h ht).1
  clear ht
  induction hiterates with
  | refl => exact hcall
  -- The iterations before the call only lead towards it.
  | tail _ hi ih => exact ih (.of_suffix (hi.ahead h).1 hcall)

theorem iterates_or_isLast (s : σ) : (∃ t, Iterates turn s t) ∨ IsLast turn s := by
  cases ht : turn s with
  | again t => exact .inl ⟨t, .again ht⟩
  | enter t =>
    obtain ⟨n, e, hinner⟩ := exists_runs h t
    cases e with
    | left u => exact .inl ⟨u, .call ht hinner⟩
    | finished r => exact .inr (.abort ht hinner)
  | leave t => exact .inr (.leave ht)
  | finish r => exact .inr (.finish ht)

theorem terminates_of_progresses : Terminates turn rest where
  iteration := iterates_or_isLast h
  advances _ _ hi := hi.ahead h
  calls _ _ hc := hc.ahead h
  wellFounded :=
    Subrelation.wf (fun hc => (hc.ahead h).2) (measure fun s => (rest s).length).wf
  ends := exists_runs h

end

/-! What a run keeps. -/

/-- What a turn leads to has a property, be it a state or the result. -/
def Turn.All (P : σ → Prop) (Q : ρ → Prop) : Turn σ ρ → Prop
  | .again t | .enter t | .leave t => P t
  | .finish r => Q r

def Ending.All (P : σ → Prop) (Q : ρ → Prop) : Ending σ ρ → Prop
  | .left t => P t
  | .finished r => Q r

/-- What every turn keeps is kept by the run. -/
theorem Runs.all {turn : σ → Turn σ ρ} {P : σ → Prop} {Q : ρ → Prop}
    (hturn : ∀ s, P s → (turn s).All P Q) {s : σ} {n : Nat} {e : Ending σ ρ}
    (hr : Runs turn s n e) (hs : P s) : e.All P Q := by
  have hstep (s : σ) (u : Turn σ ρ) (h : turn s = u) (hs : P s) : u.All P Q := by
    rw [← h]
    exact hturn s hs
  induction hr with
  | leave ht => exact hstep _ _ ht hs
  | finish ht => exact hstep _ _ ht hs
  | again ht _ ih => exact ih (hstep _ _ ht hs)
  | call ht _ _ ihinner ihrest => exact ihrest (ihinner (hstep _ _ ht hs))
  | abort ht _ ih => exact ih (hstep _ _ ht hs)

/-! What a run answers. -/

def Turn.value (answer : σ → ρ) : Turn σ ρ → ρ
  | .again t | .enter t | .leave t => answer t
  | .finish r => r

def Ending.value (answer : σ → ρ) : Ending σ ρ → ρ
  | .left t => answer t
  | .finished r => r

theorem Turn.all_iff_value (answer : σ → ρ) (r : ρ) (u : Turn σ ρ) :
    u.All (answer · = r) (· = r) ↔ u.value answer = r := by
  cases u <;> rfl

theorem Ending.all_iff_value (answer : σ → ρ) (r : ρ) (e : Ending σ ρ) :
    e.All (answer · = r) (· = r) ↔ e.value answer = r := by
  cases e <;> rfl

/-- What no turn changes is what the run answers. -/
theorem Runs.value_eq {turn : σ → Turn σ ρ} {answer : σ → ρ}
    (hanswer : ∀ s, (turn s).value answer = answer s) {s : σ} {n : Nat} {e : Ending σ ρ}
    (hr : Runs turn s n e) : e.value answer = answer s := by
  apply (Ending.all_iff_value answer _ e).1
  refine hr.all (fun t ht => ?_) rfl
  exact (Turn.all_iff_value answer _ _).2 ((hanswer t).trans ht)

/-- The outermost loop is left only with all others, and its answer is known. -/
theorem runs_of_outermost {turn : σ → Turn σ ρ} {answer : σ → ρ} {rest : σ → List Char}
    {depth : σ → Nat} (h : ∀ s, (turn s).Progresses rest depth s)
    (hanswer : ∀ s, (turn s).value answer = answer s) (s : σ) (hs : depth s = 0) :
    ∃ n ≤ 2 * (rest s).length + 1, Runs turn s n (.finished (answer s)) := by
  obtain ⟨n, e, hr⟩ := exists_runs h s
  have hle := hr.turnsLeft_le h
  have hvalue := hr.value_eq hanswer
  cases e with
  | left t =>
    -- No loop is left to go on.
    have hleft := (hr.left h).2
    omega
  | finished r =>
    cases hvalue
    simp only [turnsLeft] at hle
    exact ⟨n, by omega, hr⟩

end Redeclaration
