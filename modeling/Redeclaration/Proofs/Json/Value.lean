import Redeclaration.Json.Value
import Redeclaration.Proofs.Json.Text

/-!
How much of a value its text tells. Each character between quotes is written in one of the ways
that it may be spelled, numbers end where their digits end, and brackets, commas and line breaks
tell where items begin and end. Main statements: two values with the same text are the same, even
if more text follows them, and what is written of a value is a text of the grammar that stands
for the data of this value.
-/

namespace Redeclaration.Json

theorem hexDigit_mem (n : Nat) (h : n < 16) : (hexDigit n, n) ∈ hexDigits := by
  have hall : ∀ n < 16, (hexDigit n, n) ∈ hexDigits := by decide
  exact hall n h

/-- A character is written in one of the ways that it may be spelled. -/
theorem spells_escaped (c : Char) : Spells c (escaped c) := by
  unfold escaped
  split
  iterate 7 exact .letter (by decide)
  rename_i hquote hbackslash _ _ _ _ _
  by_cases hcontrol : c.toNat < 32
  · rw [if_pos hcontrol]
    have hnumber : ((0 * 16 + 0) * 16 + c.toNat / 16) * 16 + c.toNat % 16 = c.toNat := by omega
    have hdigits := FourDigits.mk (a := '0') (b := '0') (k := 0) (l := 0) (by decide) (by decide)
      (hexDigit_mem (c.toNat / 16) (by omega)) (hexDigit_mem (c.toNat % 16) (by omega))
    rw [hnumber] at hdigits
    exact .unit hdigits
  · rw [if_neg hcontrol]
    exact .plain (by omega) hquote hbackslash

theorem spelling_escaped (cs : List Char) : Spelling cs (cs.flatMap escaped) := by
  induction cs with
  | nil => exact .nil
  | cons c cs ih => exact .cons (spells_escaped c) ih

theorem toList_quoted (s : String) :
    (quoted s).toList = '"' :: (s.toList.flatMap escaped ++ ['"']) := by
  simp [quoted]

/-- What is written in quotes can be told from what follows. -/
theorem quoted_cancel (s t : String) (r r' : List Char)
    (h : (quoted s).toList ++ r = (quoted t).toList ++ r') : s = t ∧ r = r' := by
  have hread (u : String) (rest : List Char) :
      content [] 0 (u.toList.flatMap escaped ++ '"' :: rest) =
        .ok (u, (u.toList.flatMap escaped).length + 1) := by
    rw [content_spelling _ _ _ _ _ (spelling_escaped u.toList)]
    simp
  simp only [toList_quoted, List.cons_append, List.append_assoc, List.nil_append,
    List.cons.injEq, true_and] at h
  -- One reader decodes both texts, which are the same, and stops at the same quote.
  have hsame := hread s r
  rw [h, hread t r'] at hsame
  cases hsame
  exact ⟨rfl, (List.cons.inj (List.append_cancel_left h)).2⟩

/-- No digit stands at the start. -/
def Stops (cs : List Char) : Prop := ∀ c ∈ cs.head?, c.isDigit = false

theorem toList_number (n : Nat) : (toString n).toList = Nat.toDigits 10 n := by
  rw [Nat.toString_eq_ofList_toDigits, String.toList_ofList]

theorem takeWhile_digits (n : Nat) (r : List Char) (hr : Stops r) :
    (Nat.toDigits 10 n ++ r).takeWhile Char.isDigit = Nat.toDigits 10 n := by
  have hnone : r.takeWhile Char.isDigit = [] := by
    cases r with
    | nil => rfl
    | cons c r => exact List.takeWhile_cons_of_neg (by simp [hr c rfl])
  rw [List.takeWhile_append_of_pos
    fun c hc => Nat.isDigit_of_mem_toDigits (by decide) (by decide) hc, hnone, List.append_nil]

theorem number_cancel (m n : Nat) (r r' : List Char) (hr : Stops r) (hr' : Stops r')
    (h : (toString m).toList ++ r = (toString n).toList ++ r') : m = n ∧ r = r' := by
  rw [toList_number, toList_number] at h
  have hdigits : Nat.toDigits 10 m = Nat.toDigits 10 n := by
    rw [← takeWhile_digits m r hr, h, takeWhile_digits n r' hr']
  constructor
  · rw [← Nat.ofDigitChars_ten_toDigits (n := m), hdigits, Nat.ofDigitChars_ten_toDigits]
  · rw [hdigits] at h
    exact List.append_cancel_left h

/-! Blocks. -/

/-- The text of `a` tells it from anything else, and tells where it ends. -/
def Cancels {α : Type} (write : α → String) (a : α) : Prop :=
  ∀ b r r', Stops r → Stops r' → (write a).toList ++ r = (write b).toList ++ r' → a = b ∧ r = r'

section

variable {α : Type} (write : α → String) (level : Nat)

/-- The lines of further items, with the comma that ends the line before each of them. -/
def furtherLines (as : List α) : List Char :=
  as.flatMap fun a => ',' :: '\n' :: ((indentation (level + 1)).toList ++ (write a).toList)

theorem toList_block_nil (opening closing : String) :
    (block opening closing level []).toList = opening.toList ++ closing.toList := by
  simp [block]

theorem toList_block_cons (opening closing : String) (a : α) (as : List α) :
    (block opening closing level ((a :: as).map write)).toList =
      opening.toList ++ '\n' :: ((indentation (level + 1)).toList ++ ((write a).toList ++
        (furtherLines write level as ++
          '\n' :: ((indentation level).toList ++ closing.toList)))) := by
  have hlines : (",\n".intercalate
      (((a :: as).map write).map fun l => indentation (level + 1) ++ l)).toList =
        (indentation (level + 1)).toList ++ ((write a).toList ++ furtherLines write level as) := by
    rw [String.toList_intercalate, List.map_map, List.map_map]
    induction as generalizing a with
    | nil => simp [furtherLines]
    | cons b as ih =>
      rw [List.map_cons, List.map_cons, List.intercalate_cons_cons, ← List.map_cons, ih b]
      simp [furtherLines]
  rw [block, if_neg (by simp)]
  simp only [String.toList_append, hlines, List.append_assoc]
  rfl

theorem stops_furtherLines (as : List α) (r : List Char) :
    Stops (furtherLines write level as ++ '\n' :: r) := by
  intro c hc
  cases as with
  | nil =>
    cases hc
    decide
  | cons a as =>
    cases hc
    decide

/-- Further items are told by their lines, up to the line of the closing bracket. -/
theorem furtherLines_cancel (as bs : List α) (r r' : List Char)
    (has : ∀ a ∈ as, Cancels write a)
    (h : furtherLines write level as ++ '\n' :: r = furtherLines write level bs ++ '\n' :: r') :
    as = bs ∧ r = r' := by
  induction as generalizing bs with
  | nil =>
    cases bs with
    | nil => exact ⟨rfl, (List.cons.inj h).2⟩
    | cons b bs =>
      -- One side is at the closing bracket, the other has a comma before a further item.
      have hfirst : '\n' = ',' := (List.cons.inj h).1
      cases hfirst
  | cons a as ih =>
    cases bs with
    | nil =>
      have hfirst : ',' = '\n' := (List.cons.inj h).1
      cases hfirst
    | cons b bs =>
      unfold furtherLines at h
      simp only [List.flatMap_cons, List.cons_append, List.append_assoc, List.cons.injEq,
        List.append_cancel_left_eq, true_and] at h
      obtain ⟨rfl, hmore⟩ := has a List.mem_cons_self b _ _
        (stops_furtherLines write level as r) (stops_furtherLines write level bs r') h
      obtain ⟨rfl, hrest⟩ := ih bs (fun x hx => has x (List.mem_cons_of_mem a hx)) hmore
      exact ⟨rfl, hrest⟩

/-- A block tells its items and where it ends. -/
theorem block_cancel (opening closing : String) (bracket : Char) (as bs : List α)
    (r r' : List Char) (hclosing : closing.toList = [bracket]) (hbracket : bracket ≠ '\n')
    (has : ∀ a ∈ as, Cancels write a)
    (h : (block opening closing level (as.map write)).toList ++ r =
      (block opening closing level (bs.map write)).toList ++ r') : as = bs ∧ r = r' := by
  cases as with
  | nil =>
    cases bs with
    | nil => exact ⟨rfl, List.append_cancel_left h⟩
    | cons b bs =>
      rw [List.map_nil, toList_block_nil, toList_block_cons, hclosing, List.append_assoc,
        List.append_assoc] at h
      exact absurd (List.cons.inj (List.append_cancel_left h)).1 hbracket
  | cons a as =>
    cases bs with
    | nil =>
      rw [List.map_nil, toList_block_nil, toList_block_cons, hclosing, List.append_assoc,
        List.append_assoc] at h
      exact absurd (List.cons.inj (List.append_cancel_left h)).1.symm hbracket
    | cons b bs =>
      simp only [toList_block_cons, List.append_assoc, List.cons_append,
        List.append_cancel_left_eq, List.cons.injEq, true_and] at h
      obtain ⟨rfl, hmore⟩ := has a List.mem_cons_self b _ _
        (stops_furtherLines write level as _) (stops_furtherLines write level bs _) h
      obtain ⟨rfl, hrest⟩ := furtherLines_cancel write level as bs _ _
        (fun x hx => has x (List.mem_cons_of_mem a hx)) hmore
      exact ⟨rfl, List.append_cancel_left (List.append_cancel_left hrest)⟩

end

/-! Values. -/

theorem writeItems_eq_map (level : Nat) (items : List Value) :
    writeItems level items = items.map (Value.write level) := by
  induction items with
  | nil => rfl
  | cons v items ih => rw [writeItems, ih, List.map_cons]

def writeMember (level : Nat) (m : String × Value) : String :=
  quoted m.1 ++ ": " ++ m.2.write level

theorem writeMembers_eq_map (level : Nat) (members : List (String × Value)) :
    writeMembers level members = members.map (writeMember level) := by
  induction members with
  | nil => rfl
  | cons m members ih => rw [writeMembers, ih, List.map_cons]; rfl

/-- What holds of a list or an object once it holds of all values in it, holds of every value. -/
theorem Value.inner_induction {P : Value → Prop} (text : ∀ s, P (.text s))
    (number : ∀ n, P (.number n)) (list : ∀ items, (∀ v ∈ items, P v) → P (.list items))
    (object : ∀ members, (∀ m ∈ members, P m.2) → P (.object members)) (v : Value) : P v := by
  exact @Value.rec P (fun items => ∀ v ∈ items, P v) (fun members => ∀ m ∈ members, P m.2)
    (fun m => P m.2) text number list object (fun _ h => absurd h List.not_mem_nil)
    (fun _ _ hv hitems => List.forall_mem_cons.2 ⟨hv, hitems⟩)
    (fun _ h => absurd h List.not_mem_nil)
    (fun _ _ hm hmembers => List.forall_mem_cons.2 ⟨hm, hmembers⟩) (fun _ _ hv => hv) v

inductive Value.Kind where
  | text
  | number
  | list
  | object

def Value.kind : Value → Kind
  | text _ => .text
  | number _ => .number
  | list _ => .list
  | object _ => .object

/-- The kind of the value that starts with a character. -/
def Value.Kind.ofFirst (c : Char) : Kind :=
  if c = '"' then .text else if c = '[' then .list else if c = '\x7b' then .object else .number

theorem Value.Kind.ofFirst_digit (c : Char) (h : c.isDigit = true) : ofFirst c = .number := by
  have hother (d : Char) (hd : d.isDigit = false) : c ≠ d := by
    intro hsame
    rw [hsame, hd] at h
    cases h
  rw [ofFirst, if_neg (hother _ (by decide)), if_neg (hother _ (by decide)),
    if_neg (hother _ (by decide))]

theorem toList_block (opening closing : String) (level : Nat) (lines : List String) :
    ∃ rest, (block opening closing level lines).toList = opening.toList ++ rest := by
  cases lines with
  | nil => exact ⟨_, toList_block_nil level opening closing⟩
  | cons line lines =>
    have hcons := toList_block_cons id level opening closing line lines
    rw [List.map_id] at hcons
    exact ⟨_, hcons⟩

theorem exists_first (v : Value) (level : Nat) :
    ∃ c cs, (v.write level).toList = c :: cs ∧ Value.Kind.ofFirst c = v.kind := by
  cases v with
  | text s => exact ⟨_, _, toList_quoted s, rfl⟩
  | number n =>
    obtain ⟨c, cs, hcs⟩ := List.exists_cons_of_ne_nil (Nat.toDigits_ne_nil (n := n) (b := 10))
    refine ⟨c, cs, (toList_number n).trans hcs, Value.Kind.ofFirst_digit c ?_⟩
    exact Nat.isDigit_of_mem_toDigits (by decide) (by decide) (hcs ▸ List.mem_cons_self)
  | list items =>
    obtain ⟨rest, hrest⟩ := toList_block "[" "]" level (writeItems (level + 1) items)
    exact ⟨'[', rest, hrest, rfl⟩
  | object members =>
    obtain ⟨rest, hrest⟩ := toList_block "\x7b" "\x7d" level (writeMembers (level + 1) members)
    exact ⟨'\x7b', rest, hrest, rfl⟩

/-- Values that start alike are of the same kind. -/
theorem kind_cancel (v w : Value) (level : Nat) (r r' : List Char)
    (h : (v.write level).toList ++ r = (w.write level).toList ++ r') : v.kind = w.kind := by
  obtain ⟨c, cs, hcs, hc⟩ := exists_first v level
  obtain ⟨d, ds, hds, hd⟩ := exists_first w level
  rw [hcs, hds] at h
  rw [← hc, ← hd, (List.cons.inj h).1]

theorem member_cancels (level : Nat) (m : String × Value)
    (h : Cancels (Value.write level) m.2) : Cancels (writeMember level) m := by
  intro n r r' hr hr' hsame
  unfold writeMember at hsame
  simp only [String.toList_append, List.append_assoc] at hsame
  obtain ⟨hkey, hvalue⟩ := quoted_cancel m.1 n.1 _ _ hsame
  obtain ⟨hv, hrest⟩ := h n.2 r r' hr hr' (List.append_cancel_left hvalue)
  exact ⟨Prod.ext hkey hv, hrest⟩

/-- The text of a value tells the value, and where its text ends. -/
theorem write_cancels (v : Value) (level : Nat) : Cancels (Value.write level) v := by
  -- The first character fixes the kind, so that only values of one kind are to be compared.
  induction v using Value.inner_induction generalizing level with
  | text s =>
    intro w r r' _ _ h
    have hkind := kind_cancel _ _ _ _ _ h
    cases w with
    | text t =>
      obtain ⟨rfl, hrest⟩ := quoted_cancel s t r r' h
      exact ⟨rfl, hrest⟩
    | number | list | object => cases hkind
  | number n =>
    intro w r r' hr hr' h
    have hkind := kind_cancel _ _ _ _ _ h
    cases w with
    | number m =>
      obtain ⟨rfl, hrest⟩ := number_cancel n m r r' hr hr' h
      exact ⟨rfl, hrest⟩
    | text | list | object => cases hkind
  | list items ih =>
    intro w r r' _ _ h
    have hkind := kind_cancel _ _ _ _ _ h
    cases w with
    | list others =>
      rw [Value.write, Value.write, writeItems_eq_map, writeItems_eq_map] at h
      obtain ⟨rfl, hrest⟩ := block_cancel (Value.write (level + 1)) level "[" "]" ']' items others
        r r' rfl (by decide) (fun v hv => ih v hv (level + 1)) h
      exact ⟨rfl, hrest⟩
    | text | number | object => cases hkind
  | object members ih =>
    intro w r r' _ _ h
    have hkind := kind_cancel _ _ _ _ _ h
    cases w with
    | object others =>
      rw [Value.write, Value.write, writeMembers_eq_map, writeMembers_eq_map] at h
      obtain ⟨rfl, hrest⟩ := block_cancel (writeMember (level + 1)) level "\x7b" "\x7d" '\x7d'
        members others r r' rfl (by decide)
        (fun m hm => member_cancels (level + 1) m (ih m hm (level + 1))) h
      exact ⟨rfl, hrest⟩
    | text | number | list => cases hkind

/-! The text that is written is a JSON text. -/

mutual

/-- What a value stands for in a JSON text. -/
def Value.data : Value → Data
  | .text value => .text value
  | .number value => .number (toString value)
  | .list items => .list (dataItems items)
  | .object members => .object (dataMembers members)

def dataItems : List Value → List Data
  | [] => []
  | v :: vs => v.data :: dataItems vs

def dataMembers : List (String × Value) → List (String × Data)
  | [] => []
  | (key, v) :: rest => (key, v.data) :: dataMembers rest

end

theorem dataItems_eq_map (items : List Value) : dataItems items = items.map Value.data := by
  induction items with
  | nil => rfl
  | cons v items ih => rw [dataItems, ih, List.map_cons]

theorem dataMembers_eq_map (members : List (String × Value)) :
    dataMembers members = members.map fun m => (m.1, m.2.data) := by
  induction members with
  | nil => rfl
  | cons m members ih => rw [dataMembers, ih, List.map_cons]

theorem isBlanks_line (level : Nat) : IsBlanks ('\n' :: (indentation level).toList) := by
  intro c hc
  rw [indentation, String.toList_ofList, List.mem_cons, List.mem_replicate] at hc
  rcases hc with rfl | ⟨-, rfl⟩ <;> decide

/-- Only zero itself starts with the digit zero. -/
theorem eq_zero_of_head?_toDigits (n : Nat) (h : (Nat.toDigits 10 n).head? = some '0') :
    n = 0 := by
  induction n using Nat.strongRecOn with
  | _ n ih =>
    rcases Nat.lt_or_ge n 10 with hlt | hge
    · have hdigit : ∀ n < 10, Nat.digitChar n = '0' → n = 0 := by decide
      rw [Nat.toDigits_of_lt_base hlt, List.head?_cons] at h
      exact hdigit n hlt (Option.some.inj h)
    · -- The first digit of a longer number is that of its tenth.
      rw [Nat.toDigits_of_base_le (by decide) hge, List.head?_append_of_ne_nil _
        Nat.toDigits_ne_nil] at h
      have htenth := ih (n / 10) (by omega) h
      omega

theorem numeral_number (n : Nat) : Numeral (toString n).toList := by
  rw [toList_number]
  have hdigits : IsDigits (Nat.toDigits 10 n) :=
    ⟨Nat.toDigits_ne_nil, fun c hc => Nat.isDigit_of_mem_toDigits (by decide) (by decide) hc⟩
  have hzero (h : (Nat.toDigits 10 n).head? = some '0') : Nat.toDigits 10 n = ['0'] := by
    rw [eq_zero_of_head?_toDigits n h]
    rfl
  have h := Numeral.mk (.inl rfl) hdigits hzero .none .none
  rwa [List.nil_append, List.append_nil, List.append_nil] at h

section

variable {α : Type} (write : α → String) (level : Nat)

/-- The lines of a block are its items with commas between them. -/
theorem separated_lines (a : α) (as : List α) :
    Separated ((a :: as).map fun b => (write b).toList)
      ('\n' :: (indentation (level + 1)).toList ++ ((write a).toList ++
        (furtherLines write level as ++ '\n' :: (indentation level).toList))) := by
  induction as generalizing a with
  | nil => exact .last (isBlanks_line (level + 1)) (isBlanks_line level)
  | cons b as ih =>
    have h := Separated.more (w := (write a).toList) (b := []) (isBlanks_line (level + 1)) nofun
      (ih b)
    simpa [furtherLines] using h

/-- A block is two brackets with its items between them. -/
theorem separated_block (opening closing : String) (as : List α) :
    ∃ body, (block opening closing level (as.map write)).toList =
        opening.toList ++ (body ++ closing.toList) ∧
      Separated (as.map fun a => (write a).toList) body := by
  cases as with
  | nil => exact ⟨[], toList_block_nil level opening closing, .none nofun⟩
  | cons a as =>
    refine ⟨_, ?_, separated_lines write level a as⟩
    rw [toList_block_cons]
    simp

end

/-- What is written for a value is a JSON text that stands for it. -/
theorem written_write (v : Value) (level : Nat) : Written v.data (v.write level).toList := by
  induction v using Value.inner_induction generalizing level with
  | text s =>
    rw [Value.write, toList_quoted]
    exact .text (spelling_escaped s.toList)
  | number n => exact .number (numeral_number n)
  | list items ih =>
    obtain ⟨body, hbody, hitems⟩ := separated_block (Value.write (level + 1)) level "[" "]" items
    rw [Value.write, Value.data, writeItems_eq_map, dataItems_eq_map, hbody]
    refine .list ?_ hitems
    rw [List.forall₂_map_left_iff, List.forall₂_map_right_iff, List.forall₂_same]
    exact fun v hv => ih v hv (level + 1)
  | object members ih =>
    obtain ⟨body, hbody, hmembers⟩ :=
      separated_block (writeMember (level + 1)) level "\x7b" "\x7d" members
    rw [Value.write, Value.data, writeMembers_eq_map, dataMembers_eq_map, hbody]
    refine .object ?_ hmembers
    rw [List.forall₂_map_left_iff, List.forall₂_map_right_iff, List.forall₂_same]
    intro m hm
    have h := Member.mk (a := []) (b := [' ']) (spelling_escaped m.1.toList) nofun (by decide)
      (ih m hm (level + 1))
    simpa [writeMember, toList_quoted] using h

end Redeclaration.Json
