import Redeclaration.Proofs.Path.Below

/-!
Paths in another alphabet. Each character may be written by several others, if slashes and points
stay what they are. Main statement: what is left of a path below its base is then written in the
same way.
-/

namespace Redeclaration.Path

/-- A way to write each character by others. Slashes and points stay as they are, and stand for
nothing else. -/
structure Coding (code : Char → List Char) : Prop where
  slash : code '/' = ['/']
  point : code '.' = ['.']
  other : ∀ c, c ≠ '/' → c ≠ '.' → code c ≠ [] ∧ '/' ∉ code c ∧ '.' ∉ code c

/-- A component whose name is written in this way. -/
def Component.coded (code : Char → List Char) : Component → Component
  | name text => name (text.flatMap code)
  | c => c

/-- A text without slashes goes on in the first piece of what follows it. -/
theorem pieces_append_of_notMem (cs ds : List Char) (hcs : '/' ∉ cs) :
    pieces (cs ++ ds) = ((pieces ds).head?.map (cs ++ ·)).toList ++ (pieces ds).tail := by
  induction cs with
  | nil => cases hds : pieces ds <;> simp [hds]
  | cons c cs ih =>
    obtain ⟨hc, hcs⟩ := not_or.1 (mt List.mem_cons.2 hcs)
    rw [List.cons_append, pieces, if_neg (by simpa using Ne.symm hc), ih hcs]
    cases hds : pieces ds with
    | nil => exact absurd hds (pieces_ne_nil ds)
    | cons p ps => rfl

namespace Coding

variable {code : Char → List Char} (h : Coding code)

include h

theorem reverse : Coding (List.reverse ∘ code) where
  slash := by simp [h.slash]
  point := by simp [h.point]
  other c hslash hpoint := by simpa using h.other c hslash hpoint

theorem ne_nil (c : Char) : code c ≠ [] := by
  by_cases hslash : c = '/'
  · rw [hslash, h.slash]
    exact List.cons_ne_nil _ _
  · by_cases hpoint : c = '.'
    · rw [hpoint, h.point]
      exact List.cons_ne_nil _ _
    · exact (h.other c hslash hpoint).1

theorem slash_notMem (c : Char) (hc : c ≠ '/') : '/' ∉ code c := by
  by_cases hpoint : c = '.'
  · rw [hpoint, h.point]
    decide
  · exact (h.other c hc hpoint).2.1

theorem point_notMem (c : Char) (hc : c ≠ '.') : '.' ∉ code c := by
  by_cases hslash : c = '/'
  · rw [hslash, h.slash]
    decide
  · exact (h.other c hslash hc).2.2

/-! What a written text starts with. -/

theorem eq_nil (cs : List Char) (hcs : cs.flatMap code = []) : cs = [] := by
  cases cs with
  | nil => rfl
  | cons c cs =>
    rw [List.flatMap_cons, List.append_eq_nil_iff] at hcs
    exact absurd hcs.1 (h.ne_nil c)

/-- A character that stands for itself only stands at the start of what starts with it. -/
theorem eq_cons (d : Char) (cs ws : List Char) (hd : code d = [d])
    (hother : ∀ c, c ≠ d → d ∉ code c) (hcs : cs.flatMap code = d :: ws) :
    ∃ ds, cs = d :: ds ∧ ds.flatMap code = ws := by
  cases cs with
  | nil => cases hcs
  | cons c cs =>
    rw [List.flatMap_cons] at hcs
    by_cases hc : c = d
    · subst hc
      rw [hd] at hcs
      exact ⟨cs, rfl, (List.cons.inj hcs).2⟩
    · obtain ⟨e, es, he⟩ := List.exists_cons_of_ne_nil (h.ne_nil c)
      rw [he, List.cons_append] at hcs
      have hmem : d ∈ code c := by
        rw [he, (List.cons.inj hcs).1]
        exact List.mem_cons_self
      exact absurd hmem (hother c hc)

theorem eq_cons_slash (cs ws : List Char) (hcs : cs.flatMap code = '/' :: ws) :
    ∃ ds, cs = '/' :: ds ∧ ds.flatMap code = ws :=
  h.eq_cons '/' cs ws h.slash h.slash_notMem hcs

theorem eq_cons_point (cs ws : List Char) (hcs : cs.flatMap code = '.' :: ws) :
    ∃ ds, cs = '.' :: ds ∧ ds.flatMap code = ws :=
  h.eq_cons '.' cs ws h.point h.point_notMem hcs

theorem flatMap_slash (cs : List Char) : ('/' :: cs).flatMap code = '/' :: cs.flatMap code := by
  rw [List.flatMap_cons, h.slash, List.singleton_append]

theorem flatMap_point (cs : List Char) : ('.' :: cs).flatMap code = '.' :: cs.flatMap code := by
  rw [List.flatMap_cons, h.point, List.singleton_append]

/-! Components. -/

theorem pieces_eq (cs : List Char) :
    pieces (cs.flatMap code) = (pieces cs).map (List.flatMap code) := by
  induction cs with
  | nil => rfl
  | cons c cs ih =>
    by_cases hc : c = '/'
    · rw [hc, h.flatMap_slash, pieces, if_pos (by decide), pieces, if_pos (by decide), ih]
      rfl
    · -- What the character is written by stays in the first piece, as the character does.
      have hplain : '/' ∉ [c] := by simpa using Ne.symm hc
      have hone := pieces_append_of_notMem [c] cs hplain
      rw [List.singleton_append] at hone
      rw [List.flatMap_cons, pieces_append_of_notMem _ _ (h.slash_notMem c hc), ih, hone]
      cases hps : pieces cs with
      | nil => exact absurd hps (pieces_ne_nil cs)
      | cons p ps => simp

theorem component?_eq (piece : List Char) :
    component? (piece.flatMap code) = (component? piece).map (Component.coded code) := by
  have hpassed : (piece.flatMap code == [] || piece.flatMap code == ['.']) =
      (piece == [] || piece == ['.']) := by
    rw [Bool.eq_iff_iff]
    simp only [Bool.or_eq_true, beq_iff_eq]
    constructor
    · rintro (hnil | hpoint)
      · exact .inl (h.eq_nil piece hnil)
      · obtain ⟨ds, rfl, hds⟩ := h.eq_cons_point piece [] hpoint
        exact .inr (by rw [h.eq_nil ds hds])
    · rintro (rfl | rfl)
      · exact .inl rfl
      · exact .inr (h.flatMap_point [])
  have hparent : (piece.flatMap code == ['.', '.']) = (piece == ['.', '.']) := by
    rw [Bool.eq_iff_iff, beq_iff_eq, beq_iff_eq]
    constructor
    · intro hpoints
      obtain ⟨ds, rfl, hds⟩ := h.eq_cons_point piece ['.'] hpoints
      obtain ⟨es, rfl, hes⟩ := h.eq_cons_point ds [] hds
      rw [h.eq_nil es hes]
    · rintro rfl
      rw [h.flatMap_point, h.flatMap_point]
      rfl
  unfold component?
  rw [hpassed, hparent]
  split
  · rfl
  · split <;> rfl

theorem parts_eq (cs : List Char) :
    parts (cs.flatMap code) = (parts cs).map (Component.coded code) := by
  unfold parts
  rw [h.pieces_eq, List.filterMap_map, List.map_filterMap]
  congr 1
  funext piece
  exact h.component?_eq piece

theorem isAbsolute_eq (cs : List Char) : isAbsolute (cs.flatMap code) = isAbsolute cs := by
  rw [Bool.eq_iff_iff]
  constructor
  · intro hcs
    obtain ⟨ws, hws⟩ := exists_body _ hcs
    obtain ⟨ds, rfl, -⟩ := h.eq_cons_slash cs ws hws
    rfl
  · intro hcs
    obtain ⟨ds, rfl⟩ := exists_body cs hcs
    rw [h.flatMap_slash]
    rfl

theorem components_eq (cs : List Char) (hcs : isAbsolute cs = true) :
    components (cs.flatMap code) = (components cs).map (Component.coded code) := by
  rw [components_of_isAbsolute cs hcs,
    components_of_isAbsolute _ ((h.isAbsolute_eq cs).trans hcs), h.parts_eq]
  rfl

/-! What is left of a path. -/

theorem trimStart_eq (cs : List Char) :
    trimStart (cs.flatMap code) = (trimStart cs).flatMap code := by
  fun_induction trimStart cs with
  | case1 cs ih => rw [h.flatMap_slash, trimStart, ih]
  | case2 => rw [h.flatMap_point]; rfl
  | case3 cs ih => rw [h.flatMap_point, h.flatMap_slash, trimStart, ih]
  | case4 cs hslash hpoint hpoints =>
    -- What is kept starts with nothing that is dropped, and neither does what it is written by.
    apply trimStart.eq_4
    · intro ws hws
      obtain ⟨ds, hds, -⟩ := h.eq_cons_slash cs ws hws
      exact hslash ds hds
    · intro hws
      obtain ⟨ds, hds, hnil⟩ := h.eq_cons_point cs [] hws
      exact hpoint (by rw [hds, h.eq_nil ds hnil])
    · intro ws hws
      obtain ⟨ds, hds, hrest⟩ := h.eq_cons_point cs _ hws
      obtain ⟨es, hes, -⟩ := h.eq_cons_slash ds ws hrest
      exact hpoints es (by rw [hds, hes])

theorem trimEnd_eq (cs : List Char) : trimEnd (cs.flatMap code) = (trimEnd cs).flatMap code := by
  unfold trimEnd
  rw [List.reverse_flatMap, h.reverse.trimStart_eq, List.reverse_flatMap]
  congr 1
  funext c
  exact List.reverse_reverse _

theorem dropPiece_eq (cs : List Char) :
    dropPiece (cs.flatMap code) = (dropPiece cs).flatMap code := by
  unfold dropPiece
  rw [h.trimStart_eq]
  induction trimStart cs with
  | nil => rfl
  | cons c cs ih =>
    by_cases hc : c = '/'
    · rw [hc, h.flatMap_slash]
      exact (h.flatMap_slash cs).symm
    · have hcode : ∀ d ∈ code c, (d != '/') = true := by
        intro d hd
        rw [bne_iff_ne]
        rintro rfl
        exact h.slash_notMem c hc hd
      rw [List.flatMap_cons, List.dropWhile_append_of_pos hcode, ih,
        List.dropWhile_cons_of_pos (by simpa using hc)]

theorem repeat_dropPiece_eq (n : Nat) (cs : List Char) :
    Nat.repeat dropPiece n (cs.flatMap code) = (Nat.repeat dropPiece n cs).flatMap code := by
  induction n with
  | zero => rfl
  | succ n ih =>
    rw [repeat_dropPiece_succ, repeat_dropPiece_succ, ih, h.dropPiece_eq]

/-- What is left of a path below its base is written like the path. -/
theorem below?_eq (hinjective : Function.Injective (Component.coded code)) (base cs : List Char)
    (hbase : isAbsolute base = true) (hcs : isAbsolute cs = true) :
    below? (base.flatMap code) (cs.flatMap code) = (below? base cs).map (List.flatMap code) := by
  have hbase' := (h.isAbsolute_eq base).trans hbase
  have hprefix : (components (base.flatMap code)).isPrefixOf (components (cs.flatMap code)) =
      (components base).isPrefixOf (components cs) := by
    rw [Bool.eq_iff_iff, List.isPrefixOf_iff_prefix, List.isPrefixOf_iff_prefix,
      h.components_eq base hbase, h.components_eq cs hcs,
      List.prefix_map_iff_of_injective hinjective]
  obtain ⟨body, rfl⟩ := exists_body cs hcs
  rw [h.flatMap_slash] at hprefix ⊢
  rw [below?_of_isAbsolute _ _ hbase', below?_of_isAbsolute _ _ hbase, hprefix, h.parts_eq,
    List.length_map, h.repeat_dropPiece_eq, h.trimStart_eq, h.trimEnd_eq]
  split <;> rfl

end Coding

end Redeclaration.Path
