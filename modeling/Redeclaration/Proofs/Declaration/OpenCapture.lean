import Redeclaration.Proofs.Declaration.Outline

/-!
The capture that is open at the end of a token list. There is at most one, and
it stands after every completed one, so that one more token adds at most one
namespace or one declaration, at the end.
-/

namespace Redeclaration.Outline

/-- The capture opened at an index still waits for its stop. -/
def Open (ts : List Token) (i : Nat) : Prop :=
  opensAt ts i = true ∧ stop? ts i = none

theorem start?_eq_some (b : Bool) (t : Token) (c : Capture) (h : Capture.start? b t = some c) :
    ∃ k, t.kind = .keyword k ∧ k ≠ .useKw ∧ c.line = t.line ∧ c.name = "" ∧
      (k = .namespaceKw ∧ c.subject = .space ∨
        ∃ g, Group.ofKeyword? k = some g ∧ c.subject = .declaration g) := by
  unfold Capture.start? at h
  cases hk : t.kind with
  | keyword k =>
    rw [hk] at h
    cases k <;> cases b <;> simp [Group.ofKeyword?] at h <;> subst h <;>
      simp [Group.ofKeyword?]
  | _ => rw [hk] at h; cases h

theorem exists_start_of_opensAt (ts : List Token) (i : Nat) (h : opensAt ts i = true) :
    ∃ t c, ts[i]? = some t ∧ Capture.start? (withinUse ts i) t = some c := by
  have hi := lt_length_of_opensAt ts i h
  have ht : ts[i]? = some ts[i] := List.getElem?_eq_getElem hi
  rw [opensAt_eq_start ts i _ ht] at h
  obtain ⟨c, hc⟩ := Option.isSome_iff_exists.1 h
  exact ⟨_, c, ht, hc⟩

theorem mem_drop_of_lt (ts : List Token) (i k : Nat) (t : Token) (hik : i < k)
    (ht : ts[k]? = some t) : t ∈ ts.drop (i + 1) := by
  apply List.mem_of_getElem? (i := k - (i + 1))
  rw [List.getElem?_drop, ← ht]
  congr 1
  omega

/-- Nothing is opened after an open capture. -/
theorem not_opensAt_of_open (ts : List Token) (i k : Nat) (h : Open ts i) (hik : i < k) :
    opensAt ts k = false := by
  by_contra hk
  rw [Bool.not_eq_false] at hk
  obtain ⟨t, c, ht, hc⟩ := exists_start_of_opensAt ts k hk
  have hp := passes_of_stop?_none ts i h.2 t (mem_drop_of_lt ts i k t hik ht)
  obtain ⟨w, hw, -⟩ := start?_eq_some _ t c hc
  simp [passes, Token.isTrivia, hw, Kind.isTrivia, Kind.isNameFragment] at hp

/-- An open capture hides every import before it: a keyword that an import
suppresses never stands inside of a capture. -/
theorem not_withinUse_of_open (ts : List Token) (i : Nat) (h : Open ts i) :
    withinUse ts ts.length = false := by
  obtain ⟨t, c, ht, hc⟩ := exists_start_of_opensAt ts i h.1
  obtain ⟨k, hk, huse, -⟩ := start?_eq_some _ t c hc
  obtain ⟨hi, hget⟩ := List.getElem?_eq_some_iff.1 ht
  have hsplit : ts = ts.take i ++ t :: ts.drop (i + 1) := by
    rw [← hget, List.getElem_cons_drop, List.take_append_drop]
  have hfirst : t.kind.isIgnorable = false := by
    rw [hk]
    rfl
  unfold withinUse
  rw [List.take_length, hsplit, List.reverse_append, List.reverse_cons, List.append_assoc,
    List.find?_append, List.find?_append, List.find?_singleton, hfirst]
  -- The last token that is not ignorable is a part of a name or the opening itself.
  cases hf : (ts.drop (i + 1)).reverse.find? fun t => !t.kind.isIgnorable with
  | none => simp [Token.isKeyword, hk, huse]
  | some u =>
    have hp := passes_of_stop?_none ts i h.2 u (List.mem_reverse.1 (List.mem_of_find?_eq_some hf))
    have hu : u.isKeyword .useKw = false := by
      by_contra huse'
      rw [Bool.not_eq_false, Token.isKeyword, beq_iff_eq] at huse'
      simp [passes, Token.isTrivia, huse', Kind.isTrivia, Kind.isNameFragment] at hp
    simpa using hu

theorem open_snoc_iff (ts : List Token) (t : Token) (i : Nat) (hi : i < ts.length) :
    Open (ts ++ [t]) i ↔ Open ts i ∧ passes t = true := by
  unfold Open
  rw [opensAt_append ts [t] i hi]
  cases hs : stop? ts i with
  | none => simp [stop?_snoc_of_none ts t i hi hs]
  | some j => simp [stop?_append_of_some ts [t] i j hs]

theorem stop?_last (ts : List Token) (t : Token) : stop? (ts ++ [t]) ts.length = none := by
  unfold stop?
  rw [List.drop_of_length_le (by simp)]
  rfl

theorem completion?_of_stop?_none (ts : List Token) (i : Nat) (h : stop? ts i = none) :
    completion? ts i = none := by
  unfold completion?
  rw [h]
  split <;> rfl

theorem completion?_append (ts us : List Token) (i : Nat) (hi : i < ts.length)
    (h : ¬ Open ts i) : completion? (ts ++ us) i = completion? ts i := by
  unfold completion?
  rw [opensAt_append ts us i hi]
  cases hs : stop? ts i with
  | none =>
    have ho : opensAt ts i = false := by
      by_contra ho
      exact h ⟨by simpa using ho, hs⟩
    simp [ho]
  | some j =>
    have hj := (stop?_bounds ts i j hs).2
    rw [stop?_append_of_some ts us i j hs]
    simp only [Option.filter_some, opensAt_append ts us j hj]

theorem completion?_snoc_of_open (ts : List Token) (t : Token) (i : Nat) (h : Open ts i) :
    completion? (ts ++ [t]) i =
      if passes t || opensAt (ts ++ [t]) ts.length then none else some ts.length := by
  have hi := lt_length_of_opensAt ts i h.1
  unfold completion?
  rw [opensAt_append ts [t] i hi, h.1, stop?_snoc_of_none ts t i hi h.2]
  cases passes t <;> cases ho : opensAt (ts ++ [t]) ts.length <;> simp [ho]

theorem stop?_of_completion? (ts : List Token) (i j : Nat) (h : completion? ts i = some j) :
    stop? ts i = some j := by
  unfold completion? at h
  split at h
  · exact (Option.filter_eq_some_iff.1 h).1
  · cases h

theorem filterMap_range_of_none {β : Type} (f : Nat → Option β) (i n : Nat) (hin : i ≤ n)
    (hf : ∀ k, i ≤ k → k < n → f k = none) :
    (List.range n).filterMap f = (List.range i).filterMap f := by
  induction n, hin using Nat.le_induction with
  | base => rfl
  | succ n hin ih =>
    have hn : f n = none := hf n hin (Nat.lt_succ_self n)
    rw [List.range_succ, List.filterMap_append, ih fun k hk hkn => hf k hk (by omega)]
    simp [hn]

theorem filterMap_range_congr {β : Type} (f g : Nat → Option β) (n : Nat)
    (h : ∀ k < n, g k = f k) : (List.range n).filterMap g = (List.range n).filterMap f :=
  List.filterMap_congr fun k hk => h k (List.mem_range.1 hk)

/-- Two readings that differ at one index, after which both find nothing. -/
theorem filterMap_range_snoc {β : Type} (f g : Nat → Option β) (i n : Nat) (hin : i < n)
    (hlt : ∀ k < i, g k = f k) (hf : ∀ k, i ≤ k → k < n → f k = none)
    (hg : ∀ k, i < k → k ≤ n → g k = none) :
    (List.range (n + 1)).filterMap g = (List.range n).filterMap f ++ (g i).toList := by
  rw [filterMap_range_of_none g (i + 1) (n + 1) (by omega) fun k hk hkn => hg k hk (by omega),
    filterMap_range_of_none f i n hin.le hf, List.range_succ, List.filterMap_append,
    filterMap_range_congr f g i hlt]
  cases hgi : g i <;> simp [hgi]

theorem spaceAt?_append (ts us : List Token) (k : Nat) (hk : k < ts.length)
    (h : ¬ Open ts k) : spaceAt? (ts ++ us) k = spaceAt? ts k := by
  unfold spaceAt?
  rw [List.getElem?_append_left hk, completion?_append ts us k hk h]

theorem spaceAt?_of_completion?_none (ts : List Token) (k : Nat) (h : completion? ts k = none) :
    spaceAt? ts k = none := by
  unfold spaceAt?
  rw [h]
  split <;> rfl

theorem completion?_of_open_le (ts : List Token) (i k : Nat) (h : Open ts i) (hik : i ≤ k) :
    completion? ts k = none := by
  rcases Nat.eq_or_lt_of_le hik with rfl | hlt
  · exact completion?_of_stop?_none ts i h.2
  · unfold completion?
    rw [not_opensAt_of_open ts i k h hlt]
    rfl

theorem completion?_snoc_of_open_lt (ts : List Token) (t : Token) (i k : Nat) (h : Open ts i)
    (hik : i < k) (hk : k ≤ ts.length) : completion? (ts ++ [t]) k = none := by
  rcases Nat.eq_or_lt_of_le hk with rfl | hlt
  · exact completion?_of_stop?_none _ _ (stop?_last ts t)
  · unfold completion?
    rw [opensAt_append ts [t] k hlt, not_opensAt_of_open ts i k h hik]
    rfl

/-- Only one capture is open at a time. -/
theorem not_open_of_ne (ts : List Token) (i k : Nat) (h : Open ts i) (hne : k ≠ i) :
    ¬ Open ts k := by
  intro hk
  rcases Nat.lt_or_gt_of_ne hne with hlt | hlt
  · have hno := not_opensAt_of_open ts k i hk hlt
    rw [h.1] at hno
    cases hno
  · have hno := not_opensAt_of_open ts i k h hlt
    rw [hk.1] at hno
    cases hno

theorem spaces_snoc_of_not_open (ts : List Token) (t : Token) (h : ∀ i, ¬ Open ts i) :
    spaces (ts ++ [t]) (ts.length + 1) = spaces ts ts.length := by
  have hlast : spaceAt? (ts ++ [t]) ts.length = none :=
    spaceAt?_of_completion?_none _ _ (completion?_of_stop?_none _ _ (stop?_last ts t))
  unfold spaces
  rw [filterMap_range_of_none _ ts.length (ts.length + 1) (by omega)]
  · exact filterMap_range_congr _ _ _ fun k hk => spaceAt?_append ts [t] k hk (h k)
  · intro k hk hkn
    rwa [show k = ts.length by omega]

theorem spaces_snoc_of_open (ts : List Token) (t : Token) (i : Nat) (h : Open ts i) :
    spaces (ts ++ [t]) (ts.length + 1) =
      spaces ts ts.length ++ (spaceAt? (ts ++ [t]) i).toList := by
  apply filterMap_range_snoc _ _ i ts.length (lt_length_of_opensAt ts i h.1)
  · intro k hk
    have hi := lt_length_of_opensAt ts i h.1
    exact spaceAt?_append ts [t] k (by omega) (not_open_of_ne ts i k h (by omega))
  · intro k hik _
    exact spaceAt?_of_completion?_none ts k (completion?_of_open_le ts i k h hik)
  · intro k hik hk
    exact spaceAt?_of_completion?_none _ k (completion?_snoc_of_open_lt ts t i k h hik hk)

/-- The namespace at the opening of an open capture is the one at the end. -/
theorem spaces_of_open (ts us : List Token) (i : Nat) (h : Open ts i) :
    spaces (ts ++ us) i = spaces ts ts.length := by
  have hi := lt_length_of_opensAt ts i h.1
  unfold spaces
  rw [filterMap_range_of_none _ i ts.length hi.le fun k hik _ =>
    spaceAt?_of_completion?_none ts k (completion?_of_open_le ts i k h hik)]
  exact filterMap_range_congr _ _ _ fun k hk =>
    spaceAt?_append ts us k (by omega) (not_open_of_ne ts i k h (by omega))

theorem lt_length_of_mem_spaces (ts : List Token) (i k j : Nat) (h : (k, j) ∈ spaces ts i) :
    j < ts.length := by
  obtain ⟨m, -, hm⟩ := List.mem_filterMap.1 h
  unfold spaceAt? at hm
  split at hm
  · obtain ⟨j', hj, he⟩ := Option.map_eq_some_iff.1 hm
    cases he
    exact (stop?_bounds ts _ _ (stop?_of_completion? ts _ _ hj)).2
  · cases hm

theorem qualifier_of_spaces (ts us : List Token) (i i' : Nat)
    (h : spaces (ts ++ us) i' = spaces ts i) : qualifier (ts ++ us) i' = qualifier ts i := by
  unfold qualifier
  rw [h]
  cases hl : (spaces ts i).getLast? with
  | none => rfl
  | some kj =>
    have hj := lt_length_of_mem_spaces ts i kj.1 kj.2 (List.mem_of_getLast? hl)
    simp only [nameBetween_append ts us kj.1 kj.2 hj.le]

theorem depth_of_spaces (ts us : List Token) (i i' : Nat)
    (h : spaces (ts ++ us) i' = spaces ts i) : depth (ts ++ us) i' = depth ts i := by
  unfold depth
  rw [h]
  cases hl : (spaces ts i).getLast? with
  | none => rfl
  | some kj =>
    have hj := lt_length_of_mem_spaces ts i kj.1 kj.2 (List.mem_of_getLast? hl)
    simp only [List.getElem?_append_left hj]

theorem level_append (ts us : List Token) (j : Nat) (hj : j < ts.length) :
    level (ts ++ us) j = level ts j := by
  unfold level
  rw [List.take_append_of_le_length hj.le, List.getElem?_append_left hj]

theorem level_last (ts : List Token) (t : Token) :
    level (ts ++ [t]) ts.length =
      braces ts + if t.kind.opensInterpolation then 1 else 0 := by
  unfold level
  rw [List.take_left, List.getElem?_concat_length]
  rfl

theorem declarationAt?_of_completion?_none (ts : List Token) (k : Nat)
    (h : completion? ts k = none) : declarationAt? ts k = none := by
  unfold declarationAt?
  rw [h]
  cases ts[k]? <;> rfl

theorem declarationAt?_append (ts us : List Token) (k : Nat) (hk : k < ts.length)
    (h : ∀ i ≤ k, ¬ Open ts i) : declarationAt? (ts ++ us) k = declarationAt? ts k := by
  have hspaces : spaces (ts ++ us) k = spaces ts k :=
    filterMap_range_congr _ _ _ fun i hi => spaceAt?_append ts us i (by omega) (h i hi.le)
  unfold declarationAt?
  rw [List.getElem?_append_left hk, List.getElem?_eq_getElem hk,
    completion?_append ts us k hk (h k le_rfl), qualifier_of_spaces ts us k k hspaces,
    depth_of_spaces ts us k k hspaces]
  cases hc : completion? ts k with
  | none => rfl
  | some j =>
    have hj := (stop?_bounds ts k j (stop?_of_completion? ts k j hc)).2
    simp only [nameBetween_append ts us k j hj.le, level_append ts us j hj]

theorem declarations_snoc_of_not_open (ts : List Token) (t : Token) (h : ∀ i, ¬ Open ts i) :
    declarations (ts ++ [t]) = declarations ts := by
  have hlast : declarationAt? (ts ++ [t]) ts.length = none :=
    declarationAt?_of_completion?_none _ _ (completion?_of_stop?_none _ _ (stop?_last ts t))
  unfold declarations
  rw [List.length_append, List.length_singleton,
    filterMap_range_of_none _ ts.length (ts.length + 1) (by omega)]
  · exact filterMap_range_congr _ _ _ fun k hk =>
      declarationAt?_append ts [t] k hk fun i _ => h i
  · intro k hk hkn
    rwa [show k = ts.length by omega]

theorem declarations_snoc_of_open (ts : List Token) (t : Token) (i : Nat) (h : Open ts i) :
    declarations (ts ++ [t]) = declarations ts ++ (declarationAt? (ts ++ [t]) i).toList := by
  have hi := lt_length_of_opensAt ts i h.1
  unfold declarations
  rw [List.length_append, List.length_singleton]
  apply filterMap_range_snoc _ _ i ts.length hi
  · intro k hk
    exact declarationAt?_append ts [t] k (by omega) fun m hm =>
      not_open_of_ne ts i m h (by omega)
  · intro k hik _
    exact declarationAt?_of_completion?_none ts k (completion?_of_open_le ts i k h hik)
  · intro k hik hk
    exact declarationAt?_of_completion?_none _ k (completion?_snoc_of_open_lt ts t i k h hik hk)

end Redeclaration.Outline
