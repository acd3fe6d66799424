import Mathlib.Data.List.Basic
import Redeclaration.Path

/-!
Paths that are put together from names. A name that is taken from a directory
becomes the last piece, the last component and the file name of the path.
-/

namespace Redeclaration.Path

/-- What the entry of a directory can be called. -/
structure IsName (name : String) : Prop where
  ne_empty : name ≠ ""
  ne_point : name ≠ "."
  ne_parent : name ≠ ".."
  no_slash : '/' ∉ name.toList
  no_nul : '\x00' ∉ name.toList

instance (name : String) : Decidable (IsName name) :=
  decidable_of_iff (name ≠ "" ∧ name ≠ "." ∧ name ≠ ".." ∧ '/' ∉ name.toList ∧
      '\x00' ∉ name.toList)
    ⟨fun ⟨ne_empty, ne_point, ne_parent, no_slash, no_nul⟩ =>
        ⟨ne_empty, ne_point, ne_parent, no_slash, no_nul⟩,
      fun h => ⟨h.ne_empty, h.ne_point, h.ne_parent, h.no_slash, h.no_nul⟩⟩

theorem pieces_ne_nil (cs : List Char) : pieces cs ≠ [] := by
  cases cs with
  | nil => simp [pieces]
  | cons c cs =>
    unfold pieces
    split
    · simp
    · split <;> simp

/-- A slash separates the pieces before it from the pieces after it. -/
theorem pieces_append_slash (cs ds : List Char) :
    pieces (cs ++ '/' :: ds) = pieces cs ++ pieces ds := by
  induction cs with
  | nil => simp [pieces]
  | cons c cs ih =>
    rw [List.cons_append, pieces, pieces, ih]
    split
    · rfl
    · cases hcs : pieces cs with
      | nil => exact absurd hcs (pieces_ne_nil cs)
      | cons p ps => rfl

theorem pieces_of_notMem (cs : List Char) (h : '/' ∉ cs) : pieces cs = [cs] := by
  induction cs with
  | nil => rfl
  | cons c cs ih =>
    obtain ⟨hc, hcs⟩ := not_or.1 (mt List.mem_cons.2 h)
    rw [pieces, if_neg (by simpa using Ne.symm hc), ih hcs]

theorem isAbsolute_of_isName (name : String) (h : IsName name) :
    isAbsolute name.toList = false := by
  by_contra habs
  rw [Bool.not_eq_false, isAbsolute, beq_iff_eq] at habs
  exact h.no_slash (List.mem_of_mem_head? (by simp [habs]))

/-- The text of a relative path taken from a directory: a slash is put in, unless the
directory is empty or ends with one. -/
theorem join_cases (directory path : String) (h : isAbsolute path.toList = false) :
    (directory = "" ∧ join directory path = path) ∨
      (∃ front, directory.toList = front ++ ['/'] ∧
        (join directory path).toList = front ++ '/' :: path.toList) ∨
      (directory ≠ "" ∧ (join directory path).toList = directory.toList ++ '/' :: path.toList) := by
  unfold join
  rw [h, if_neg Bool.false_ne_true]
  by_cases hempty : directory = ""
  · exact .inl ⟨hempty, by simp [hempty]⟩
  by_cases hslash : directory.toList.getLast? = some '/'
  · obtain ⟨front, hfront⟩ := List.getLast?_eq_some_iff.1 hslash
    refine .inr (.inl ⟨front, hfront, ?_⟩)
    simp [hfront]
  · refine .inr (.inr ⟨hempty, ?_⟩)
    simp [hslash, hempty]

/-- A name becomes the last piece. An empty piece behind a slash at the end of the directory
makes way for it. -/
theorem pieces_join (directory name : String) (h : IsName name) :
    ∃ front, (pieces directory.toList = front ∨ pieces directory.toList = front ++ [[]]) ∧
      pieces (join directory name).toList = front ++ [name.toList] := by
  have hname := pieces_of_notMem _ h.no_slash
  have hrelative := isAbsolute_of_isName name h
  rcases join_cases directory name hrelative with ⟨rfl, hjoin⟩ | ⟨front, hdir, hjoin⟩ | ⟨-, hjoin⟩
  · exact ⟨[], .inr rfl, by rw [hjoin, hname]; rfl⟩
  · refine ⟨pieces front, .inr ?_, ?_⟩
    · rw [hdir, pieces_append_slash]
      rfl
    · rw [hjoin, pieces_append_slash, hname]
  · exact ⟨_, .inl rfl, by rw [hjoin, pieces_append_slash, hname]⟩

theorem isAbsolute_join (directory name : String) (h : IsName name) (hdir : directory ≠ "") :
    isAbsolute (join directory name).toList = isAbsolute directory.toList := by
  have hrelative := isAbsolute_of_isName name h
  unfold isAbsolute
  rcases join_cases directory name hrelative with ⟨hempty, -⟩ | ⟨front, hfront, hjoin⟩ | ⟨-, hjoin⟩
  · exact absurd hempty hdir
  · rw [hjoin, hfront]
    cases front <;> rfl
  · rw [hjoin]
    cases hcs : directory.toList with
    | nil => exact absurd (String.toList_eq_nil_iff.1 hcs) hdir
    | cons c cs => rfl

theorem nul_join (directory name : String) (h : IsName name)
    (hdir : '\x00' ∉ directory.toList) : '\x00' ∉ (join directory name).toList := by
  have hrelative := isAbsolute_of_isName name h
  rcases join_cases directory name hrelative with ⟨-, hjoin⟩ | ⟨front, hfront, hjoin⟩ | ⟨-, hjoin⟩
  · rw [hjoin]
    exact h.no_nul
  · rw [hfront] at hdir
    simp_all [h.no_nul]
  · simp [hjoin, hdir, h.no_nul]

theorem join_ne_empty (directory name : String) (h : IsName name) : join directory name ≠ "" := by
  intro hempty
  obtain ⟨front, -, hpieces⟩ := pieces_join directory name h
  rw [hempty] at hpieces
  have hname : name.toList = [] := by
    cases front with
    | nil => exact (List.singleton_inj.1 hpieces).symm
    | cons p ps => simp [pieces] at hpieces
  exact h.ne_empty (String.toList_eq_nil_iff.1 hname)

theorem toList_ne (name : String) (text : List Char) (h : name ≠ String.ofList text) :
    name.toList ≠ text := by
  rintro rfl
  exact h String.ofList_toList.symm

theorem component?_of_isName (name : String) (h : IsName name) :
    component? name.toList = some (.name name.toList) := by
  have hempty := toList_ne name [] h.ne_empty
  have hpoint := toList_ne name ['.'] h.ne_point
  have hparent := toList_ne name ['.', '.'] h.ne_parent
  simp [component?, hempty, hpoint, hparent]

theorem head?_pieces_join (directory name : String) (h : IsName name) (hdir : directory ≠ "") :
    (pieces (join directory name).toList).head? = (pieces directory.toList).head? := by
  have hrelative := isAbsolute_of_isName name h
  rcases join_cases directory name hrelative with ⟨hempty, -⟩ | ⟨front, hfront, hjoin⟩ | ⟨-, hjoin⟩
  · exact absurd hempty hdir
  · rw [hjoin, hfront, pieces_append_slash, pieces_append_slash,
      List.head?_append_of_ne_nil _ (pieces_ne_nil front),
      List.head?_append_of_ne_nil _ (pieces_ne_nil front)]
  · rw [hjoin, pieces_append_slash, List.head?_append_of_ne_nil _ (pieces_ne_nil _)]

theorem anchor?_join (directory name : String) (h : IsName name) :
    anchor? (join directory name).toList = anchor? directory.toList := by
  by_cases hempty : directory = ""
  · subst hempty
    have hname : join "" name = name := by simp [join, isAbsolute_of_isName name h]
    have hpoint := toList_ne name ['.'] h.ne_point
    rw [hname, anchor?, isAbsolute_of_isName name h, pieces_of_notMem _ h.no_slash]
    simp [hpoint, anchor?, isAbsolute, pieces]
  · unfold anchor?
    rw [isAbsolute_join directory name h hempty, head?_pieces_join directory name h hempty]

/-- A name becomes the last component, whatever slashes and points the directory has. -/
theorem components_join (directory name : String) (h : IsName name) :
    components (join directory name).toList =
      components directory.toList ++ [.name name.toList] := by
  obtain ⟨front, hdir, hjoin⟩ := pieces_join directory name h
  have hfront : (pieces directory.toList).filterMap component? = front.filterMap component? := by
    rcases hdir with hdir | hdir
    · rw [hdir]
    · simp [hdir, component?]
  unfold components
  rw [anchor?_join directory name h, hjoin, List.filterMap_append, hfront, List.append_assoc]
  simp [component?_of_isName name h]

end Redeclaration.Path
