import Mathlib.Data.List.Basic
import Mathlib.Data.List.Infix
import Mathlib.Data.List.TakeWhile
import Redeclaration.Proofs.Path

/-!
What is left of a path below its base. Slashes and points may be dropped from both ends of a
text without a change of its components, and a piece that is dropped takes one component with
it. Main statement: what is left of a path, taken from its base, has the components of the path
itself.
-/

namespace Redeclaration.Path

/-- The components of the pieces of a text, which is all of them but the anchor. -/
def parts (cs : List Char) : List Component :=
  (pieces cs).filterMap component?

theorem parts_append_slash (cs ds : List Char) :
    parts (cs ++ '/' :: ds) = parts cs ++ parts ds := by
  unfold parts
  rw [pieces_append_slash, List.filterMap_append]

theorem parts_slash (cs : List Char) : parts ('/' :: cs) = parts cs :=
  parts_append_slash [] cs

theorem parts_snoc_slash (cs : List Char) : parts (cs ++ ['/']) = parts cs := by
  rw [parts_append_slash]
  exact List.append_nil _

theorem exists_body (cs : List Char) (h : isAbsolute cs = true) : ∃ body, cs = '/' :: body := by
  cases cs with
  | nil => cases h
  | cons c body =>
    refine ⟨body, ?_⟩
    rw [Option.some.inj (beq_iff_eq.1 h)]

theorem components_of_isAbsolute (cs : List Char) (h : isAbsolute cs = true) :
    components cs = .root :: parts cs := by
  unfold components anchor?
  rw [if_pos h]
  rfl

/-- A text up to its first slash, and from there on. -/
theorem parts_cut (cs : List Char) :
    parts cs =
      (component? (cs.takeWhile (· != '/'))).toList ++ parts (cs.dropWhile (· != '/')) := by
  have hfirst : '/' ∉ cs.takeWhile (· != '/') := by
    intro hmem
    simpa using List.mem_takeWhile_imp hmem
  have hpiece : parts (cs.takeWhile (· != '/')) =
      (component? (cs.takeWhile (· != '/'))).toList := by
    unfold parts
    rw [pieces_of_notMem _ hfirst]
    cases hc : component? (cs.takeWhile (· != '/')) <;> simp [hc]
  have hsplit := (List.takeWhile_append_dropWhile (p := (· != '/')) (l := cs)).symm
  rw [← hpiece]
  cases hrest : cs.dropWhile (· != '/') with
  | nil =>
    rw [hrest, List.append_nil] at hsplit
    rw [← hsplit]
    exact (List.append_nil _).symm
  | cons d rest =>
    have hd : d = '/' := by
      have hhead := List.head?_dropWhile_not (· != '/') cs
      rw [hrest] at hhead
      simpa using hhead
    rw [hd] at hrest ⊢
    calc
      parts cs = parts (cs.takeWhile (· != '/') ++ '/' :: rest) := by rw [← hrest, ← hsplit]
      _ = parts (cs.takeWhile (· != '/')) ++ parts rest := parts_append_slash _ _
      _ = _ := by rw [parts_slash]

/-! Slashes and points at the start. -/

theorem parts_trimStart (cs : List Char) : parts (trimStart cs) = parts cs := by
  fun_induction trimStart cs with
  | case1 cs ih => rw [ih, parts_slash]
  | case2 => rfl
  | case3 cs ih =>
    rw [ih]
    exact (parts_append_slash ['.'] cs).symm
  | case4 => rfl

theorem isAbsolute_trimStart (cs : List Char) : isAbsolute (trimStart cs) = false := by
  fun_induction trimStart cs with
  | case1 cs ih => exact ih
  | case2 => rfl
  | case3 cs ih => exact ih
  | case4 cs hslash =>
    cases cs with
    | nil => rfl
    | cons c cs =>
      apply beq_false_of_ne
      intro hc
      exact hslash cs (by rw [Option.some.inj hc])

theorem trimStart_isSuffix (cs : List Char) : trimStart cs <:+ cs := by
  fun_induction trimStart cs with
  | case1 cs ih => exact ih.trans (List.suffix_cons _ _)
  | case2 => exact List.nil_suffix
  | case3 cs ih => exact ih.trans ((List.suffix_cons _ _).trans (List.suffix_cons _ _))
  | case4 => exact List.suffix_refl _

/-- What is left starts with a piece that is not passed over. -/
theorem component?_trimStart (cs : List Char) :
    trimStart cs = [] ∨ ∃ c, component? ((trimStart cs).takeWhile (· != '/')) = some c := by
  fun_induction trimStart cs with
  | case1 cs ih => exact ih
  | case2 => exact .inl rfl
  | case3 cs ih => exact ih
  | case4 cs hslash hpoint hpoints =>
    cases cs with
    | nil => exact .inl rfl
    | cons c cs =>
      have hc : (c != '/') = true := by
        rw [bne_iff_ne]
        intro hc
        exact hslash cs (by rw [hc])
      right
      rw [List.takeWhile_cons_of_pos (p := (· != '/')) hc]
      unfold component?
      have hkept : ¬ (c :: cs.takeWhile (· != '/') == [] ||
          c :: cs.takeWhile (· != '/') == ['.']) = true := by
        intro hpassed
        simp only [Bool.or_eq_true, beq_iff_eq, reduceCtorEq, List.cons.injEq, false_or] at hpassed
        obtain ⟨rfl, hnone⟩ := hpassed
        -- The point would be followed by a slash or by nothing, and both were dropped.
        cases cs with
        | nil => exact hpoint rfl
        | cons d ds =>
          by_cases hd : d = '/'
          · exact hpoints ds (by rw [hd])
          · rw [List.takeWhile_cons_of_pos (by simpa using hd)] at hnone
            cases hnone
      rw [if_neg hkept]
      split
      · exact ⟨_, rfl⟩
      · exact ⟨_, rfl⟩

/-! Slashes and points at the end. -/

theorem parts_trimEnd (cs : List Char) : parts (trimEnd cs) = parts cs := by
  have hreverse (rs : List Char) : parts (trimStart rs).reverse = parts rs.reverse := by
    fun_induction trimStart rs with
    | case1 rs ih => rw [ih, List.reverse_cons, parts_snoc_slash]
    | case2 => rfl
    | case3 rs ih =>
      rw [ih, List.reverse_cons, List.reverse_cons, List.append_assoc]
      exact ((parts_append_slash rs.reverse ['.']).trans (List.append_nil _)).symm
    | case4 => rfl
  unfold trimEnd
  rw [hreverse, List.reverse_reverse]

theorem trimEnd_isPrefix (cs : List Char) : trimEnd cs <+: cs := by
  unfold trimEnd
  rw [← List.reverse_suffix, List.reverse_reverse]
  exact trimStart_isSuffix cs.reverse

theorem isAbsolute_trimEnd (cs : List Char) (h : isAbsolute cs = false) :
    isAbsolute (trimEnd cs) = false := by
  obtain ⟨rest, hrest⟩ := trimEnd_isPrefix cs
  cases hfront : trimEnd cs with
  | nil => rfl
  | cons c front =>
    rw [← hrest, hfront] at h
    exact h

/-! Pieces that are dropped. -/

theorem parts_dropPiece (cs : List Char) : parts (dropPiece cs) = (parts cs).tail := by
  unfold dropPiece
  rw [← parts_trimStart cs]
  rcases component?_trimStart cs with hnil | ⟨c, hc⟩
  · rw [hnil]
    rfl
  · rw [parts_cut (trimStart cs), hc]
    rfl

theorem repeat_dropPiece_succ (n : Nat) (cs : List Char) :
    Nat.repeat dropPiece (n + 1) cs = dropPiece (Nat.repeat dropPiece n cs) :=
  rfl

theorem parts_repeat_dropPiece (n : Nat) (cs : List Char) :
    parts (Nat.repeat dropPiece n cs) = (parts cs).drop n := by
  induction n with
  | zero => rfl
  | succ n ih =>
    rw [repeat_dropPiece_succ, parts_dropPiece, ih, List.tail_drop]

theorem repeat_dropPiece_isSuffix (n : Nat) (cs : List Char) :
    Nat.repeat dropPiece n cs <:+ cs := by
  induction n with
  | zero => exact List.suffix_refl _
  | succ n ih =>
    have hpiece (ds : List Char) : dropPiece ds <:+ ds :=
      (List.dropWhile_suffix _).trans (trimStart_isSuffix ds)
    exact (hpiece _).trans ih

/-- What is left below an absolute base: as many pieces are dropped as the base has. -/
theorem below?_of_isAbsolute (base body : List Char) (hbase : isAbsolute base = true) :
    below? base ('/' :: body) =
      if (components base).isPrefixOf (components ('/' :: body)) then
        some (trimEnd (trimStart (Nat.repeat dropPiece (parts base).length body)))
      else none := by
  have hanchor : (anchor? ('/' :: body)).toList.length = 1 := rfl
  have hlength : (components base).length = (parts base).length + 1 := by
    rw [components_of_isAbsolute base hbase, List.length_cons]
  have hdrop : dropComponents ((parts base).length + 1) ('/' :: body) =
      Nat.repeat dropPiece (parts base).length body := by
    rw [dropComponents, hanchor]
    simp
  unfold below?
  dsimp only
  rw [hlength, hdrop]
  rfl

/-- What is left of a path below a base: a relative path with the components that the base
does not have, and with no characters but those of the path. -/
theorem below?_eq_some (base cs rest : List Char) (hbase : isAbsolute base = true)
    (hcs : isAbsolute cs = true) (h : below? base cs = some rest) :
    components cs = components base ++ parts rest ∧ isAbsolute rest = false ∧
      ∀ c ∈ rest, c ∈ cs := by
  obtain ⟨body, rfl⟩ := exists_body cs hcs
  rw [below?_of_isAbsolute base body hbase] at h
  split at h
  · rename_i hprefix
    have hrest := (Option.some.inj h).symm
    refine ⟨?_, ?_, ?_⟩
    · -- The components of the base are the first of the path, and as many are dropped.
      rw [components_of_isAbsolute _ hbase, components_of_isAbsolute _ hcs] at hprefix ⊢
      obtain ⟨more, hmore⟩ := List.isPrefixOf_iff_prefix.1 hprefix
      rw [List.cons_append, List.cons_inj_right, parts_slash] at hmore
      rw [hrest, parts_trimEnd, parts_trimStart, parts_repeat_dropPiece, ← hmore, parts_slash,
        ← hmore, List.drop_left, List.cons_append]
    · rw [hrest]
      exact isAbsolute_trimEnd _ (isAbsolute_trimStart _)
    · intro c hc
      rw [hrest] at hc
      apply List.mem_cons_of_mem
      apply (repeat_dropPiece_isSuffix (parts base).length body).subset
      apply (trimStart_isSuffix _).subset
      exact (trimEnd_isPrefix _).subset hc
  · cases h

/-! Paths taken from a directory. -/

theorem isAbsolute_join_of_isAbsolute (directory path : String)
    (h : isAbsolute directory.toList = true) : isAbsolute (join directory path).toList = true := by
  by_cases hpath : isAbsolute path.toList = true
  · rw [join, if_pos hpath]
    exact hpath
  · obtain ⟨body, hbody⟩ := exists_body _ h
    rcases join_cases directory path (Bool.eq_false_iff.2 hpath) with
      ⟨rfl, -⟩ | ⟨front, hfront, hjoin⟩ | ⟨-, hjoin⟩
    · cases hbody
    · rw [hjoin, List.append_cons, ← hfront, hbody]
      rfl
    · rw [hjoin, hbody]
      rfl

/-- The components of a relative path follow those of the directory. -/
theorem components_join_relative (directory path : String)
    (hdir : isAbsolute directory.toList = true) (hpath : isAbsolute path.toList = false) :
    components (join directory path).toList =
      components directory.toList ++ parts path.toList := by
  have habsolute := isAbsolute_join_of_isAbsolute directory path hdir
  rw [components_of_isAbsolute _ habsolute, components_of_isAbsolute _ hdir, List.cons_append,
    List.cons_inj_right]
  rcases join_cases directory path hpath with ⟨rfl, -⟩ | ⟨front, hfront, hjoin⟩ | ⟨-, hjoin⟩
  · cases hdir
  · rw [hjoin, hfront, parts_append_slash, parts_snoc_slash]
  · rw [hjoin, parts_append_slash]

/-- What is left of a path leads from the base to the path itself. -/
theorem components_join_below (base path : String) (hbase : isAbsolute base.toList = true)
    (hpath : isAbsolute path.toList = true) :
    components (join base (String.ofList ((below? base.toList path.toList).getD
      path.toList))).toList = components path.toList := by
  cases hbelow : below? base.toList path.toList with
  | none =>
    -- Nothing was taken away, and an absolute path is left alone by the base.
    rw [Option.getD_none, String.ofList_toList, join, if_pos hpath]
  | some rest =>
    obtain ⟨hparts, hrelative, -⟩ := below?_eq_some _ _ rest hbase hpath hbelow
    have htext := String.toList_ofList (l := rest)
    rw [Option.getD_some, components_join_relative base _ hbase (htext.symm ▸ hrelative), htext,
      hparts]

end Redeclaration.Path
