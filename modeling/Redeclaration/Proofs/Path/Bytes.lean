import Redeclaration.Proofs.Path.Coding
import Redeclaration.Proofs.Text.Utf8

/-!
Reported paths. A path is made of any bytes, and what is reported of it is shown as a text. Main
statement: the path that is shown, taken from the base, has the components of the path itself if
the reported bytes are a text, and only then.
-/

namespace Redeclaration.Path

open Text

/-! Bytes and the characters that stand for them. -/

theorem toUInt8_ofUInt8 (b : UInt8) : (Char.ofUInt8 b).toUInt8 = b :=
  UInt8.toUInt8_toUInt32 b

theorem toList_ofBytes (path : List UInt8) :
    (ofBytes path).toList = path.map Char.ofUInt8 :=
  String.toList_ofList

theorem map_toUInt8_ofBytes (path : List UInt8) :
    (ofBytes path).toList.map Char.toUInt8 = path := by
  rw [toList_ofBytes, List.map_map]
  exact (List.map_congr_left fun b _ => toUInt8_ofUInt8 b).trans (List.map_id path)

theorem ofBytes_injective (p q : List UInt8) (h : (ofBytes p).toList = (ofBytes q).toList) :
    p = q := by
  rw [← map_toUInt8_ofBytes p, h, map_toUInt8_ofBytes]

/-- The bytes of a character in UTF-8, as the characters that stand for them. -/
def byteCode (c : Char) : List Char :=
  (String.utf8EncodeChar c).map Char.ofUInt8

theorem toList_ofBytes_bytes (s : String) :
    (ofBytes (bytes s)).toList = s.toList.flatMap byteCode := by
  rw [toList_ofBytes, bytes_eq, List.map_flatMap]
  rfl

theorem notMem_byteCode (c d : Char) (hd : d.toNat < 128) (hc : c ≠ d) : d ∉ byteCode c := by
  intro hmem
  obtain ⟨b, hb, rfl⟩ := List.mem_map.1 hmem
  have hsame : c.toNat = b.toNat := toNat_of_mem_utf8EncodeChar c b hb hd
  exact hc (Char.toNat_inj.1 hsame)

theorem coding_byteCode : Coding byteCode where
  slash := by decide
  point := by decide
  other c hslash hpoint :=
    ⟨by simp [byteCode, String.utf8EncodeChar_ne_nil], notMem_byteCode c '/' (by decide) hslash,
      notMem_byteCode c '.' (by decide) hpoint⟩

theorem flatMap_byteCode_injective : Function.Injective (List.flatMap byteCode) := by
  intro as bs h
  rw [← String.toList_ofList (l := as), ← String.toList_ofList (l := bs),
    ← toList_ofBytes_bytes, ← toList_ofBytes_bytes] at h
  exact String.ofList_injective (bytes_injective _ _ (ofBytes_injective _ _ h))

theorem coded_injective : Function.Injective (Component.coded byteCode) := by
  intro a b h
  cases a <;> cases b <;> first | rfl | cases h | skip
  exact congrArg Component.name (flatMap_byteCode_injective (Component.name.inj h))

/-! What is reported of a path. -/

section

variable (base path : List UInt8) (hbase : isAbsolute (ofBytes base).toList = true)
  (hpath : isAbsolute (ofBytes path).toList = true)

include hbase hpath

/-- The characters of what is reported are those of what is left of the path. -/
theorem toList_ofBytes_reported : (ofBytes (reported base path)).toList =
    (below? (ofBytes base).toList (ofBytes path).toList).getD (ofBytes path).toList := by
  unfold reported
  cases hbelow : below? (ofBytes base).toList (ofBytes path).toList with
  | none => rfl
  | some rest =>
    obtain ⟨-, -, hkept⟩ := below?_eq_some _ _ rest hbase hpath hbelow
    rw [toList_ofBytes, List.map_map, Option.getD_some]
    refine (List.map_congr_left ?_).trans (List.map_id rest)
    intro c hc
    -- Each character that is left stands for a byte of the path.
    obtain ⟨b, -, rfl⟩ := List.mem_map.1 (toList_ofBytes path ▸ hkept c hc)
    exact congrArg Char.ofUInt8 (toUInt8_ofUInt8 b)

theorem reported_subset : ∀ b ∈ reported base path, b ∈ path := by
  intro b hb
  have hmem : Char.ofUInt8 b ∈ (ofBytes path).toList := by
    have hchar : Char.ofUInt8 b ∈ (ofBytes (reported base path)).toList := by
      rw [toList_ofBytes]
      exact List.mem_map_of_mem hb
    rw [toList_ofBytes_reported base path hbase hpath] at hchar
    cases hbelow : below? (ofBytes base).toList (ofBytes path).toList with
    | none => rwa [hbelow, Option.getD_none] at hchar
    | some rest =>
      rw [hbelow, Option.getD_some] at hchar
      exact (below?_eq_some _ _ rest hbase hpath hbelow).2.2 _ hchar
  have hbyte := List.mem_map_of_mem (f := Char.toUInt8) hmem
  rwa [map_toUInt8_ofBytes, toUInt8_ofUInt8] at hbyte

/-- A report that is a text is shown as it is, if no backslash gives way to a slash. -/
theorem shownBytes_of_text (hback : 0x5C ∉ path) (text : String)
    (htext : bytes text = reported base path) : shownBytes base path = text := by
  have hnone : '\\' ∉ text.toList := by
    intro hmem
    apply hback
    apply reported_subset base path hbase hpath
    rw [← htext, bytes_eq]
    exact List.mem_flatMap.2 ⟨'\\', hmem, by decide⟩
  have hkept : text.toList.map (fun c => if c == '\\' then '/' else c) = text.toList := by
    refine (List.map_congr_left ?_).trans (List.map_id text.toList)
    intro c hc
    have hne : ¬ (c == '\\') = true := by
      intro heq
      rw [beq_iff_eq.1 heq] at hc
      exact hnone hc
    rw [if_neg hne, id]
  rw [shownBytes, ← htext, decodeLossy_bytes, hkept, String.ofList_toList]

/-- What is reported leads from the base to the path. -/
theorem components_join_reported :
    components (join (ofBytes base) (ofBytes (reported base path))).toList =
      components (ofBytes path).toList := by
  have htext := congrArg String.ofList (toList_ofBytes_reported base path hbase hpath)
  rw [String.ofList_toList] at htext
  rw [htext]
  exact components_join_below _ _ hbase hpath

end

/-! What can be read off the path that is shown. -/

theorem intercalate_pieces (cs : List Char) : ['/'].intercalate (pieces cs) = cs := by
  induction cs with
  | nil => rfl
  | cons c cs ih =>
    rw [pieces]
    cases hps : pieces cs with
    | nil => exact absurd hps (pieces_ne_nil cs)
    | cons p ps =>
      rw [hps] at ih
      split
      · rename_i hc
        rw [List.intercalate_cons_cons, ih, beq_iff_eq.1 hc]
        rfl
      · cases ps with
        | nil => rw [← ih]; rfl
        | cons q ps =>
          rw [List.intercalate_cons_cons] at ih ⊢
          rw [← ih]
          rfl

theorem flatMap_intercalate (pieces : List (List Char)) :
    (['/'].intercalate pieces).flatMap byteCode =
      ['/'].intercalate (pieces.map (List.flatMap byteCode)) := by
  induction pieces with
  | nil => rfl
  | cons p ps ih =>
    cases ps with
    | nil => simp
    | cons q ps =>
      rw [List.map_cons] at ih
      rw [List.map_cons, List.map_cons, List.intercalate_cons_cons, List.intercalate_cons_cons,
        ← ih, List.flatMap_append, List.flatMap_append, List.flatMap_singleton,
        coding_byteCode.slash]

/-- Bytes are a text if all names between their slashes are. -/
theorem exists_text_of_names (r : List UInt8)
    (h : ∀ name, .name name ∈ parts (ofBytes r).toList →
      ∃ cs : List Char, name = cs.flatMap byteCode) : ∃ text, bytes text = r := by
  have hpiece : ∀ piece ∈ pieces (ofBytes r).toList, ∃ cs : List Char,
      piece = cs.flatMap byteCode := by
    intro piece hmem
    have hname (hc : component? piece = some (.name piece)) :
        ∃ cs : List Char, piece = cs.flatMap byteCode :=
      h piece (List.mem_filterMap.2 ⟨piece, hmem, hc⟩)
    -- A piece that is no name is empty or consists of points.
    unfold component? at hname
    split at hname
    · rename_i hpassed
      rw [Bool.or_eq_true, beq_iff_eq, beq_iff_eq] at hpassed
      rcases hpassed with rfl | rfl
      · exact ⟨[], rfl⟩
      · exact ⟨['.'], by decide⟩
    · split at hname
      · rename_i hparent
        exact ⟨['.', '.'], by rw [beq_iff_eq.1 hparent]; decide⟩
      · exact hname rfl
  choose! text htext using hpiece
  have hpieces : pieces (ofBytes r).toList =
      ((pieces (ofBytes r).toList).map text).map (List.flatMap byteCode) := by
    rw [List.map_map]
    conv_lhs => rw [← List.map_id (pieces (ofBytes r).toList)]
    exact List.map_congr_left fun piece hmem => htext piece hmem
  refine ⟨String.ofList (['/'].intercalate ((pieces (ofBytes r).toList).map text)), ?_⟩
  apply ofBytes_injective
  rw [toList_ofBytes_bytes, String.toList_ofList, flatMap_intercalate, ← hpieces,
    intercalate_pieces]

theorem parts_subset_components (cs : List Char) : ∀ c ∈ parts cs, c ∈ components cs :=
  fun _ hc => List.mem_append_right _ hc

theorem name_mem_components (cs name : List Char) (h : .name name ∈ components cs) :
    .name name ∈ parts cs := by
  refine (List.mem_append.1 h).resolve_left ?_
  unfold anchor?
  split
  · simp
  · split <;> simp

/-- The names of a text are texts. -/
theorem exists_of_name_mem_bytes (text : String) (name : List Char)
    (h : .name name ∈ components (ofBytes (bytes text)).toList) :
    ∃ cs : List Char, name = cs.flatMap byteCode := by
  have hparts := name_mem_components _ name h
  rw [toList_ofBytes_bytes, coding_byteCode.parts_eq] at hparts
  obtain ⟨c, -, hc⟩ := List.mem_map.1 hparts
  cases c with
  | name cs => exact ⟨cs, (Component.name.inj hc).symm⟩
  | root | current | parent => cases hc

/-- A path below its base is found to be so. -/
theorem below?_ne_none (base cs : List Char) (hbase : isAbsolute base = true)
    (hcs : isAbsolute cs = true) (h : components base <+: components cs) :
    below? base cs ≠ none := by
  obtain ⟨body, rfl⟩ := exists_body cs hcs
  rw [below?_of_isAbsolute base body hbase, if_pos (List.isPrefixOf_iff_prefix.2 h)]
  exact Option.some_ne_none _

section

variable (base path : List UInt8) (hbase : isAbsolute (ofBytes base).toList = true)
  (hpath : isAbsolute (ofBytes path).toList = true)

include hbase hpath

/-- If a text leads from the base to the path, its names are those that are reported. -/
theorem mem_components_of_join (text : String)
    (h : components (join (ofBytes base) (ofBytes (bytes text))).toList =
      components (ofBytes path).toList) :
    ∀ c ∈ parts (ofBytes (reported base path)).toList,
      c ∈ components (ofBytes (bytes text)).toList := by
  intro c hc
  rw [toList_ofBytes_reported base path hbase hpath] at hc
  by_cases habsolute : isAbsolute (ofBytes (bytes text)).toList = true
  · -- The text takes the place of the base, so its components are those of the path.
    rw [join, if_pos habsolute] at h
    rw [h]
    cases hbelow : below? (ofBytes base).toList (ofBytes path).toList with
    | none =>
      rw [hbelow] at hc
      exact parts_subset_components _ c hc
    | some rest =>
      rw [hbelow] at hc
      rw [(below?_eq_some _ _ rest hbase hpath hbelow).1]
      exact List.mem_append_right _ hc
  · -- The text goes on from the base, so the path is below the base.
    rw [components_join_relative _ _ hbase (Bool.eq_false_iff.2 habsolute)] at h
    cases hbelow : below? (ofBytes base).toList (ofBytes path).toList with
    | none => exact absurd hbelow (below?_ne_none _ _ hbase hpath (h ▸ List.prefix_append _ _))
    | some rest =>
      rw [hbelow] at hc
      rw [(below?_eq_some _ _ rest hbase hpath hbelow).1, List.append_cancel_left_eq] at h
      exact parts_subset_components _ c (h ▸ hc)

/-- The path that is shown leads from the base to the path itself if what is reported is a text,
and only then. -/
theorem components_join_shownBytes_iff (hback : 0x5C ∉ path) :
    components (join (ofBytes base) (ofBytes (bytes (shownBytes base path)))).toList =
        components (ofBytes path).toList ↔
      ∃ text, bytes text = reported base path := by
  constructor
  · intro h
    -- What is shown is a text whatever is reported, and so are its names.
    apply exists_text_of_names
    intro name hname
    exact exists_of_name_mem_bytes _ name
      (mem_components_of_join base path hbase hpath _ h _ hname)
  · rintro ⟨text, htext⟩
    rw [shownBytes_of_text base path hbase hpath hback text htext, htext]
    exact components_join_reported base path hbase hpath

end

/-! Paths of texts. -/

section

variable (base path : String) (hbase : isAbsolute base.toList = true)
  (hpath : isAbsolute path.toList = true)

theorem isAbsolute_ofBytes_bytes (h : isAbsolute path.toList = true) :
    isAbsolute (ofBytes (bytes path)).toList = true := by
  rw [toList_ofBytes_bytes, coding_byteCode.isAbsolute_eq]
  exact h

theorem backslash_notMem_bytes (h : '\\' ∉ path.toList) : 0x5C ∉ bytes path := by
  intro hmem
  rw [bytes_eq] at hmem
  obtain ⟨c, hc, hb⟩ := List.mem_flatMap.1 hmem
  have hsame := toNat_of_mem_utf8EncodeChar c 0x5C hb (by decide)
  have hback : c = '\\' := Char.toNat_inj.1 hsame
  exact h (hback ▸ hc)

include hbase hpath

/-- What is reported of a text is what is left of it. -/
theorem reported_bytes : reported (bytes base) (bytes path) =
    bytes (String.ofList ((below? base.toList path.toList).getD path.toList)) := by
  apply ofBytes_injective
  -- The characters of the path are written by those that stand for their bytes.
  rw [toList_ofBytes_reported _ _ (isAbsolute_ofBytes_bytes base hbase)
    (isAbsolute_ofBytes_bytes path hpath), toList_ofBytes_bytes, toList_ofBytes_bytes,
    toList_ofBytes_bytes, String.toList_ofList,
    coding_byteCode.below?_eq coded_injective _ _ hbase hpath]
  cases below? base.toList path.toList <;> rfl

/-- The path that is shown leads from the base to the path itself. -/
theorem components_join_shown (hback : '\\' ∉ path.toList) :
    components (join base (shown base path)).toList = components path.toList := by
  rw [shown, shownBytes_of_text _ _ (isAbsolute_ofBytes_bytes base hbase)
    (isAbsolute_ofBytes_bytes path hpath) (backslash_notMem_bytes path hback) _
    (reported_bytes base path hbase hpath).symm]
  exact components_join_below base path hbase hpath

end

end Redeclaration.Path
