import Mathlib.Data.List.Nodup
import Mathlib.Data.Set.List
import Redeclaration.Proofs.Json.Text
import Redeclaration.Settings.Document

/-!
What a settings file is read as. The symbols of a JSON object are read member by member, and
the first member that does not fit ends the reading. Main statement: a text is read exactly if
it has no key twice and nothing but known keys with values of their types, and the document
then holds these values, and the default of each key that the text does not have.
-/

namespace Redeclaration

open Json

namespace Document

/-- A reader of symbols succeeds with the results that have a property, and stops before the
rest. -/
structure Reads {α : Type} (result : Except Refusal (α × Nat)) (ts rest : List Symbol)
    (P : α → Prop) : Prop where
  sound : ∀ a n, result = .ok (a, n) → P a ∧ ts.drop n = rest
  complete : ∀ a, P a → ∃ n, result = .ok (a, n)

namespace Reads

variable {α β : Type} {ts rest : List Symbol} {P : α → Prop}

theorem of_error (result : Except Refusal (α × Nat)) (why : Refusal) (h : result = .error why)
    (hP : ∀ a, ¬ P a) : Reads result ts rest P := by
  refine ⟨?_, fun a ha => absurd ha (hP a)⟩
  intro a n hok
  rw [h] at hok
  cases hok

theorem of_ok (result : Except Refusal (α × Nat)) (a : α) (n : Nat) (h : result = .ok (a, n))
    (hrest : ts.drop n = rest) (hP : ∀ b, P b ↔ b = a) : Reads result ts rest P := by
  constructor
  · intro b m hok
    rw [h] at hok
    cases hok
    exact ⟨(hP a).2 rfl, hrest⟩
  · intro b hb
    rw [(hP b).1 hb]
    exact ⟨n, h⟩

/-- Symbols may be read in front, and the result be changed. -/
theorem map {result : Except Refusal (α × Nat)} (h : Reads result ts rest P) (f : α → β)
    (front : List Symbol) (Q : β → Prop) (hQ : ∀ b, Q b ↔ ∃ a, P a ∧ f a = b) :
    Reads (result.map fun r => (f r.1, r.2 + front.length)) (front ++ ts) rest Q := by
  constructor
  · intro b m hok
    cases hresult : result with
    | error why =>
      rw [hresult] at hok
      cases hok
    | ok r =>
      obtain ⟨hPr, hdrop⟩ := h.sound r.1 r.2 hresult
      rw [hresult] at hok
      cases hok
      refine ⟨(hQ _).2 ⟨r.1, hPr, rfl⟩, ?_⟩
      rw [Nat.add_comm, ← List.drop_drop, List.drop_left, hdrop]
  · intro b hb
    obtain ⟨a, ha, rfl⟩ := (hQ b).1 hb
    obtain ⟨n, hn⟩ := h.complete a ha
    rw [hn]
    exact ⟨_, rfl⟩

end Reads

/-! Lists of strings. -/

theorem readStrings_string (position : Position) (hposition : position ≠ .after) (text : String)
    (ts : List Symbol) :
    readStrings position (.string text :: ts) =
      (readStrings .after ts).map fun r => (text :: r.1, r.2 + [Symbol.string text].length) := by
  cases position with
  | after => exact absurd rfl hposition
  | first | next =>
    rw [readStrings]
    · cases readStrings .after ts <;> rfl
    · exact hposition

theorem readStrings_refused (position : Position) (hposition : position ≠ .after) (t : Symbol)
    (ts : List Symbol) (hstring : ∀ text, t ≠ .string text) (hclose : t ≠ .closeList) :
    ∃ why, readStrings position (t :: ts) = .error why := by
  refine ⟨t.refusal, ?_⟩
  cases position with
  | after => exact absurd rfl hposition
  | first | next =>
    cases t with
    | string text => exact absurd rfl (hstring text)
    | closeList => exact absurd rfl hclose
    | _ => rfl

/-- An item that is no string is refused. -/
theorem readStrings_item (position : Position) (hposition : position ≠ .after) (v : Data)
    (w rest : List Char) (h : Written v w) (hv : ∀ text, v ≠ .text text) :
    ∃ why, readStrings position (symbols (w ++ rest)) = .error why := by
  obtain ⟨t, ts, hsymbols, hstarts⟩ := exists_symbols v w rest h
  rw [hsymbols]
  apply readStrings_refused position hposition
  · intro text ht
    cases v <;> simp_all [Data.Starts]
  · intro ht
    cases v <;> simp_all [Data.Starts]

/-- The first item of a list is read if it is a string, and then the others are. -/
theorem reads_strings_cons (position : Position) (hposition : position ≠ .after) (v : Data)
    (items : List Data) (a w back : List Char) (rest : List Symbol) (ha : IsBlanks a)
    (hv : Written v w) (hback : Reads (readStrings .after (symbols back)) (symbols back) rest
      fun strings => items = strings.map .text) :
    Reads (readStrings position (symbols (a ++ (w ++ back)))) (symbols (a ++ (w ++ back))) rest
      fun strings => v :: items = strings.map .text := by
  rw [symbols_blanks a _ ha]
  by_cases htext : ∃ text, v = .text text
  · obtain ⟨text, rfl⟩ := htext
    rw [symbols_text text w back hv, readStrings_string position hposition]
    apply hback.map (text :: ·) [.string text]
    intro strings
    cases strings with
    | nil => simp
    | cons other strings => simp [eq_comm, and_comm]
  · -- Nothing behind an item of another kind is looked at.
    obtain ⟨why, hwhy⟩ := readStrings_item position hposition v w back hv
      fun text heq => htext ⟨text, heq⟩
    apply Reads.of_error _ why hwhy
    intro strings heq
    cases strings with
    | nil => cases heq
    | cons text strings => exact htext ⟨text, (List.cons.inj heq).1⟩

theorem reads_strings_end (b rest : List Char) (hb : IsBlanks b) (position : Position)
    (hposition : position ≠ .next) :
    Reads (readStrings position (symbols (b ++ ']' :: rest))) (symbols (b ++ ']' :: rest))
      (symbols rest) fun strings => [] = strings.map Data.text := by
  rw [symbols_blanks b _ hb, symbols_punctuation ']' .closeList _ (by decide)]
  have hend : readStrings position (.closeList :: symbols rest) = .ok ([], 1) := by
    cases position with
    | next => exact absurd rfl hposition
    | first | after => rfl
  apply Reads.of_ok _ [] 1 hend rfl
  intro strings
  simp [eq_comm]

/-- The strings of a list are read up to its end, if all of its items are strings. -/
theorem reads_strings (position : Position) (items : List Data) (texts : List (List Char))
    (body rest : List Char) (hitems : List.Forall₂ Written items texts)
    (hbody : Separated texts body) (hposition : position ≠ .after)
    (hfirst : texts = [] → position = .first) :
    Reads (readStrings position (symbols (body ++ ']' :: rest))) (symbols (body ++ ']' :: rest))
      (symbols rest) fun strings => items = strings.map .text := by
  induction hbody generalizing items position with
  | @none b hb =>
    cases hitems
    rw [hfirst rfl]
    exact reads_strings_end b rest hb .first (by decide)
  | @last a w b ha hb =>
    cases hitems with
    | @cons v _ _ _ hv hnone =>
      cases hnone
      rw [List.append_assoc, List.append_assoc]
      apply reads_strings_cons position hposition v [] a w _ _ ha hv
      exact reads_strings_end b rest hb .after (by decide)
  | @more a w b next body ws ha hb hmore ih =>
    cases hitems with
    | @cons v _ items _ hv hrest =>
      have hback := ih .next items hrest (by decide) fun hnone => absurd hnone (List.cons_ne_nil _ _)
      simp only [List.append_assoc, List.cons_append]
      apply reads_strings_cons position hposition v items a w _ _ ha hv
      rw [symbols_blanks b _ hb, symbols_punctuation ',' .comma _ (by decide)]
      have hcomma := hback.map id [.comma] (fun strings => items = strings.map .text) (by simp)
      have hread : readStrings .after (.comma :: symbols (body ++ ']' :: rest)) =
          (readStrings .next (symbols (body ++ ']' :: rest))).map fun r => (id r.1, r.2 + 1) := by
        rw [readStrings]
        cases readStrings .next (symbols (body ++ ']' :: rest)) <;> rfl
      rw [hread]
      exact hcomma

theorem reads_list (v : Data) (w rest : List Char) (h : Written v w) :
    Reads (readList (symbols (w ++ rest))) (symbols (w ++ rest)) (symbols rest)
      fun strings => v = .list (strings.map .text) := by
  cases v with
  | list items =>
    cases h with
    | @list _ texts body hitems hbody =>
      rw [List.cons_append, List.append_assoc, symbols_punctuation '[' .openList _ (by decide)]
      have hstrings :=
        reads_strings .first items texts body rest hitems hbody (by decide) fun _ => rfl
      have hopen := hstrings.map id [.openList]
        (fun strings => Data.list items = .list (strings.map .text)) (by simp)
      have hread : readList (.openList :: symbols (body ++ ']' :: rest)) =
          (readStrings .first (symbols (body ++ ']' :: rest))).map fun r => (id r.1, r.2 + 1) := by
        rw [readList]
        cases readStrings .first (symbols (body ++ ']' :: rest)) <;> rfl
      rw [List.singleton_append, hread]
      exact hopen
  | _ =>
    obtain ⟨t, ts, hsymbols, hstarts⟩ := exists_symbols _ w rest h
    rw [hsymbols]
    apply Reads.of_error _ t.refusal
    · cases t <;> simp_all [Data.Starts, readList]
    · intro strings h
      cases h

theorem reads_flag (v : Data) (w rest : List Char) (h : Written v w) :
    Reads ((readFlag (symbols (w ++ rest))).map fun flag => (flag, 1)) (symbols (w ++ rest))
      (symbols rest) fun flag => v = .flag flag := by
  cases v with
  | flag value =>
    rw [symbols_flag value w rest h]
    apply Reads.of_ok _ value 1 rfl rfl
    intro flag
    simp [eq_comm]
  | _ =>
    obtain ⟨t, ts, hsymbols, hstarts⟩ := exists_symbols _ w rest h
    rw [hsymbols]
    apply Reads.of_error _ t.refusal
    · cases t <;> simp_all [Data.Starts, readFlag, Except.map]
    · intro flag h
      cases h

/-! Members. -/

namespace Setting

def field : Setting → Field
  | scanPaths _ => .scanPaths
  | excludePaths _ => .excludePaths
  | fileExtensions _ => .fileExtensions
  | ignoreParseFailures _ => .ignoreParseFailures

def data : Setting → Data
  | scanPaths texts | excludePaths texts | fileExtensions texts => .list (texts.map .text)
  | ignoreParseFailures flag => .flag flag

/-- The member of an object that gives a field its value. -/
def member (s : Setting) : String × Data :=
  (s.field.key, s.data)

end Setting

theorem Field.ofKey?_eq_some_iff (key : String) (field : Field) :
    Field.ofKey? key = some field ↔ field.key = key := by
  constructor
  · intro h
    have hfound := List.find?_some h
    simpa using hfound
  · intro h
    rw [← h]
    cases field <;> rfl

theorem Field.key_injective (f g : Field) (h : f.key = g.key) : f = g := by
  have hf := (Field.ofKey?_eq_some_iff g.key f).2 h
  have hg := (Field.ofKey?_eq_some_iff g.key g).2 rfl
  rw [hf] at hg
  exact Option.some.inj hg

theorem readSetting_eq_map (ts : List Symbol) :
    readSetting .scanPaths ts = (readList ts).map (fun r => (.scanPaths r.1, r.2)) ∧
      readSetting .excludePaths ts = (readList ts).map (fun r => (.excludePaths r.1, r.2)) ∧
      readSetting .fileExtensions ts = (readList ts).map (fun r => (.fileExtensions r.1, r.2)) ∧
      readSetting .ignoreParseFailures ts =
        ((readFlag ts).map fun flag => (flag, 1)).map fun r => (.ignoreParseFailures r.1, r.2) := by
  unfold readSetting
  refine ⟨?_, ?_, ?_, ?_⟩
  iterate 3 cases readList ts <;> rfl
  cases readFlag ts <;> rfl

/-- The value of a field is read if it is of the type of the field. -/
theorem reads_setting (field : Field) (v : Data) (w rest : List Char) (h : Written v w) :
    Reads (readSetting field (symbols (w ++ rest))) (symbols (w ++ rest)) (symbols rest)
      fun s => s.field = field ∧ s.data = v := by
  have hlist := reads_list v w rest h
  obtain ⟨hscan, hexclude, hextensions, hflag⟩ := readSetting_eq_map (symbols (w ++ rest))
  cases field with
  | scanPaths =>
    rw [hscan]
    apply hlist.map Setting.scanPaths []
    intro s
    cases s <;> simp [Setting.field, Setting.data, eq_comm]
  | excludePaths =>
    rw [hexclude]
    apply hlist.map Setting.excludePaths []
    intro s
    cases s <;> simp [Setting.field, Setting.data, eq_comm]
  | fileExtensions =>
    rw [hextensions]
    apply hlist.map Setting.fileExtensions []
    intro s
    cases s <;> simp [Setting.field, Setting.data, eq_comm]
  | ignoreParseFailures =>
    rw [hflag]
    apply (reads_flag v w rest h).map Setting.ignoreParseFailures []
    intro s
    cases s <;> simp [Setting.field, Setting.data, eq_comm]

theorem readKey_colon_iff (seen : List Field) (key : String) (ts values : List Symbol)
    (field : Field) :
    readKey seen key (.colon :: ts) = .ok (field, values) ↔
      field.key = key ∧ field ∉ seen ∧ values = ts := by
  rw [← Field.ofKey?_eq_some_iff]
  unfold readKey
  cases hkey : Field.ofKey? key with
  | none => simp
  | some known =>
    dsimp only
    rw [Option.some.injEq]
    by_cases hseen : known ∈ seen
    · rw [if_pos hseen]
      constructor
      · intro h
        cases h
      · intro h
        obtain ⟨rfl, hnew, -⟩ := h
        exact absurd hseen hnew
    · rw [if_neg hseen, Except.ok.injEq, Prod.mk.injEq]
      constructor
      · intro h
        obtain ⟨rfl, rfl⟩ := h
        exact ⟨rfl, hseen, rfl⟩
      · intro h
        exact ⟨h.1, h.2.2.symm⟩

/-- A key is read with its value, and then the members behind it. -/
theorem readObject_string_iff (position : Position) (hposition : position ≠ .after)
    (seen : List Field) (key : String) (ts : List Symbol) (settings : List Setting) :
    readObject position seen (.string key :: ts) = .ok settings ↔
      ∃ field values s n more, readKey seen key ts = .ok (field, values) ∧
        readSetting field values = .ok (s, n) ∧
        readObject .after (field :: seen) (values.drop n) = .ok more ∧ settings = s :: more := by
  rw [readObject]
  · split
    · rename_i why hkey
      simp [hkey]
    · rename_i field values hkey
      cases hsetting : readSetting field values with
      | error why => simp [hkey, hsetting]
      | ok r =>
        obtain ⟨s, n⟩ := r
        cases hmore : readObject .after (field :: seen) (values.drop n) with
        | error why => simp [hkey, hsetting, hmore, bind, Except.bind]
        | ok more => simp [hkey, hsetting, hmore, bind, Except.bind, pure, Except.pure, eq_comm]
  · exact hposition

theorem readObject_member_iff (position : Position) (hposition : position ≠ .after)
    (seen : List Field) (key : String) (v : Data) (ts rest : List Symbol)
    (hreads : ∀ field, Reads (readSetting field ts) ts rest fun s => s.field = field ∧ s.data = v)
    (settings : List Setting) :
    readObject position seen (.string key :: .colon :: ts) = .ok settings ↔
      ∃ s more, s.member = (key, v) ∧ s.field ∉ seen ∧
        readObject .after (s.field :: seen) rest = .ok more ∧ settings = s :: more := by
  rw [readObject_string_iff position hposition]
  constructor
  · intro h
    obtain ⟨field, values, s, n, more, hkey, hsetting, hmore, rfl⟩ := h
    obtain ⟨rfl, hseen, rfl⟩ := (readKey_colon_iff _ _ _ _ _).1 hkey
    obtain ⟨⟨rfl, rfl⟩, hdrop⟩ := (hreads field).sound s n hsetting
    rw [hdrop] at hmore
    exact ⟨s, more, rfl, hseen, hmore, rfl⟩
  · intro h
    obtain ⟨s, more, hmember, hseen, hmore, rfl⟩ := h
    cases hmember
    obtain ⟨n, hn⟩ := (hreads s.field).complete s ⟨rfl, rfl⟩
    obtain ⟨-, hdrop⟩ := (hreads s.field).sound s n hn
    rw [← hdrop] at hmore
    have hkey := (readKey_colon_iff seen s.field.key ts ts s.field).2 ⟨rfl, hseen, rfl⟩
    exact ⟨s.field, ts, s, n, more, hkey, hn, hmore, rfl⟩

theorem symbols_member (m : String × Data) (w rest : List Char) (h : Member Written m w) :
    ∃ v, Written m.2 v ∧ symbols (w ++ rest) = .string m.1 :: .colon :: symbols (v ++ rest) := by
  cases h with
  | @mk key v ks a b w hkey ha hb hv =>
    refine ⟨w, hv, ?_⟩
    simp only [List.cons_append, List.append_assoc]
    rw [symbols_string _ _ _ hkey, symbols_blanks a _ ha,
      symbols_punctuation ':' .colon _ (by decide), symbols_blanks b _ hb, String.ofList_toList]

/-- Settings that an object gives for the first time. -/
structure Given (seen : List Field) (settings : List Setting) : Prop where
  distinct : (settings.map Setting.field).Nodup
  unseen : ∀ s ∈ settings, s.field ∉ seen

theorem given_cons_iff (seen : List Field) (s : Setting) (settings : List Setting) :
    Given seen (s :: settings) ↔ s.field ∉ seen ∧ Given (s.field :: seen) settings := by
  constructor
  · intro h
    obtain ⟨hnew, hdistinct⟩ := List.nodup_cons.1 h.distinct
    refine ⟨h.unseen s List.mem_cons_self, hdistinct, ?_⟩
    intro r hr hseen
    rcases List.mem_cons.1 hseen with hsame | hseen
    · exact hnew (List.mem_map.2 ⟨r, hr, hsame⟩)
    · exact h.unseen r (List.mem_cons_of_mem s hr) hseen
  · intro h
    obtain ⟨hs, hdistinct, hunseen⟩ := h
    constructor
    · refine List.nodup_cons.2 ⟨?_, hdistinct⟩
      intro hmem
      obtain ⟨r, hr, hsame⟩ := List.mem_map.1 hmem
      exact hunseen r hr (hsame ▸ List.mem_cons_self)
    · intro r hr
      rcases List.mem_cons.1 hr with rfl | hr
      · exact hs
      · exact fun hseen => hunseen r hr (List.mem_cons_of_mem _ hseen)

/-- The first member of an object is read if it gives a setting, and then the others are. -/
theorem readObject_cons_iff (position : Position) (hposition : position ≠ .after)
    (seen : List Field) (m : String × Data) (members : List (String × Data))
    (a w back : List Char) (ha : IsBlanks a) (hm : Member Written m w)
    (hback : ∀ seen settings, readObject .after seen (symbols back) = .ok settings ↔
      settings.map Setting.member = members ∧ Given seen settings)
    (settings : List Setting) :
    readObject position seen (symbols (a ++ (w ++ back))) = .ok settings ↔
      settings.map Setting.member = m :: members ∧ Given seen settings := by
  obtain ⟨v, hv, hsymbols⟩ := symbols_member m w back hm
  -- The reader has passed the value of the first member when it comes to the others.
  rw [symbols_blanks a _ ha, hsymbols, readObject_member_iff position hposition seen m.1 m.2 _ _
    fun field => reads_setting field m.2 v back hv]
  constructor
  · intro h
    obtain ⟨s, more, hs, hseen, hmore, rfl⟩ := h
    obtain ⟨hmembers, hgiven⟩ := (hback _ _).1 hmore
    refine ⟨?_, (given_cons_iff _ _ _).2 ⟨hseen, hgiven⟩⟩
    rw [List.map_cons, hs, hmembers]
  · intro h
    obtain ⟨hmembers, hgiven⟩ := h
    obtain ⟨s, more, rfl, hs, hmore⟩ := List.map_eq_cons_iff.1 hmembers
    obtain ⟨hseen, hrest⟩ := (given_cons_iff _ _ _).1 hgiven
    exact ⟨s, more, hs, hseen, (hback _ _).2 ⟨hmore, hrest⟩, rfl⟩

theorem readObject_none_iff (b last : List Char) (hb : IsBlanks b) (hlast : IsBlanks last)
    (position : Position) (hposition : position ≠ .next) (seen : List Field)
    (settings : List Setting) :
    readObject position seen (symbols (b ++ '\x7d' :: last)) = .ok settings ↔
      settings.map Setting.member = [] ∧ Given seen settings := by
  have hnone : symbols last = [] := by
    have hblank := symbols_blanks last [] hlast
    rwa [List.append_nil, symbols] at hblank
  have hend : readObject position seen [.closeObject] = .ok [] := by
    cases position with
    | next => exact absurd rfl hposition
    | first | after =>
      rw [readObject]
      rfl
  rw [symbols_blanks b _ hb, symbols_punctuation '\x7d' .closeObject _ (by decide), hnone, hend]
  constructor
  · intro h
    rw [← Except.ok.inj h]
    exact ⟨rfl, .nil, fun _ hs => absurd hs List.not_mem_nil⟩
  · intro h
    rw [List.map_eq_nil_iff.1 h.1]

/-- The members of an object are read up to its end, if each of them gives a setting that has
not been given before. -/
theorem readObject_members_iff (position : Position) (seen : List Field)
    (members : List (String × Data)) (texts : List (List Char)) (body last : List Char)
    (hmembers : List.Forall₂ (Member Written) members texts) (hbody : Separated texts body)
    (hlast : IsBlanks last) (hposition : position ≠ .after)
    (hfirst : texts = [] → position = .first) (settings : List Setting) :
    readObject position seen (symbols (body ++ '\x7d' :: last)) = .ok settings ↔
      settings.map Setting.member = members ∧ Given seen settings := by
  induction hbody generalizing members position seen settings with
  | @none b hb =>
    cases hmembers
    rw [hfirst rfl]
    exact readObject_none_iff b last hb hlast .first (by decide) seen settings
  | @last a w b ha hb =>
    cases hmembers with
    | @cons m _ _ _ hm hnone =>
      cases hnone
      rw [List.append_assoc, List.append_assoc]
      apply readObject_cons_iff position hposition seen m [] a w _ ha hm
      exact readObject_none_iff b last hb hlast .after (by decide)
  | @more a w b next body ws ha hb hmore ih =>
    cases hmembers with
    | @cons m _ members _ hm hrest =>
      simp only [List.append_assoc, List.cons_append]
      apply readObject_cons_iff position hposition seen m members a w _ ha hm
      intro seen settings
      rw [symbols_blanks b _ hb, symbols_punctuation ',' .comma _ (by decide), readObject]
      exact ih .next seen members hrest (by decide)
        (fun hnone => absurd hnone (List.cons_ne_nil _ _)) settings

/-! Documents. -/

/-- The object with these members is what a text stands for, in any writing and with any blanks
around it. -/
def Renders (members : List (String × Data)) (text : String) : Prop :=
  ∃ a w b, IsBlanks a ∧ Written (.object members) w ∧ IsBlanks b ∧ text.toList = a ++ (w ++ b)

theorem read_eq_ok_iff (members : List (String × Data)) (text : String)
    (h : Renders members text) (doc : Document) :
    read text = .ok doc ↔ ∃ settings : List Setting, settings.map Setting.member = members ∧
      Given [] settings ∧ settings.foldl set {} = doc := by
  obtain ⟨a, w, b, ha, hw, hb, htext⟩ := h
  cases hw with
  | @object _ texts body hmembers hbody =>
    have hobject := readObject_members_iff .first [] members texts body b hmembers hbody hb
      (by decide) fun _ => rfl
    have hsettings : readSettings text = readObject .first [] (symbols (body ++ '\x7d' :: b)) := by
      rw [readSettings, htext, symbols_blanks a _ ha, List.cons_append,
        symbols_punctuation '\x7b' .openObject _ (by decide), List.append_assoc]
      rfl
    rw [read, hsettings]
    constructor
    · intro h
      cases hread : readObject .first [] (symbols (body ++ '\x7d' :: b)) with
      | error why =>
        rw [hread] at h
        cases h
      | ok settings =>
        obtain ⟨hsame, hgiven⟩ := (hobject settings).1 hread
        rw [hread] at h
        exact ⟨settings, hsame, hgiven, Except.ok.inj h⟩
    · intro h
      obtain ⟨settings, hsame, hgiven, hdoc⟩ := h
      rw [(hobject settings).2 ⟨hsame, hgiven⟩, ← hdoc]
      rfl

/-- The value of a field in a document. -/
def setting (doc : Document) : Field → Setting
  | .scanPaths => .scanPaths doc.scanPaths
  | .excludePaths => .excludePaths doc.excludePaths
  | .fileExtensions => .fileExtensions doc.fileExtensions
  | .ignoreParseFailures => .ignoreParseFailures doc.ignoreParseFailures

theorem setting_set (doc : Document) (s : Setting) (f : Field) :
    (doc.set s).setting f = if s.field = f then s else doc.setting f := by
  cases s <;> cases f <;> rfl

theorem setting_foldl_of_notMem (settings : List Setting) (doc : Document) (f : Field)
    (h : ∀ s ∈ settings, s.field ≠ f) : (settings.foldl set doc).setting f = doc.setting f := by
  induction settings generalizing doc with
  | nil => rfl
  | cons s settings ih =>
    rw [List.foldl_cons, ih _ fun r hr => h r (List.mem_cons_of_mem s hr), setting_set,
      if_neg (h s List.mem_cons_self)]

/-- Each setting is in force at the end, since none is given twice. -/
theorem setting_foldl_of_mem (settings : List Setting) (doc : Document) (s : Setting)
    (hdistinct : (settings.map Setting.field).Nodup) (hs : s ∈ settings) :
    (settings.foldl set doc).setting s.field = s := by
  induction settings generalizing doc with
  | nil => cases hs
  | cons r settings ih =>
    obtain ⟨hnew, hrest⟩ := List.nodup_cons.1 hdistinct
    rcases List.mem_cons.1 hs with rfl | hs
    · -- It is given first, and no later setting has its field.
      rw [List.foldl_cons, setting_foldl_of_notMem, setting_set, if_pos rfl]
      intro r hr hsame
      exact hnew (List.mem_map.2 ⟨r, hr, hsame⟩)
    · exact ih _ hrest hs

/-- A known key with a value of its type. -/
def Typed (m : String × Data) : Prop :=
  (m.1 = "scanPaths" ∨ m.1 = "excludePaths" ∨ m.1 = "fileExtensions") ∧
      (∃ strings : List String, m.2 = .list (strings.map .text)) ∨
    m.1 = "ignoreParseFailures" ∧ ∃ value, m.2 = .flag value

theorem typed_iff (m : String × Data) : Typed m ↔ ∃ s : Setting, s.member = m := by
  obtain ⟨key, v⟩ := m
  constructor
  · intro h
    rcases h with ⟨rfl | rfl | rfl, strings, rfl⟩ | ⟨rfl, value, rfl⟩
    · exact ⟨.scanPaths strings, rfl⟩
    · exact ⟨.excludePaths strings, rfl⟩
    · exact ⟨.fileExtensions strings, rfl⟩
    · exact ⟨.ignoreParseFailures value, rfl⟩
  · intro h
    obtain ⟨s, hs⟩ := h
    cases hs
    cases s with
    | scanPaths strings => exact .inl ⟨.inl rfl, strings, rfl⟩
    | excludePaths strings => exact .inl ⟨.inr (.inl rfl), strings, rfl⟩
    | fileExtensions strings => exact .inl ⟨.inr (.inr rfl), strings, rfl⟩
    | ignoreParseFailures value => exact .inr ⟨rfl, value, rfl⟩

/-- No key is there twice, and each is known and has a value of its type. -/
structure Fits (members : List (String × Data)) : Prop where
  distinct : (members.map Prod.fst).Nodup
  typed : ∀ m ∈ members, Typed m

/-- A value is given under a key, or is the default if the key is not there. -/
structure Gives {α : Type} (members : List (String × Data)) (key : String) (data : α → Data)
    (default value : α) : Prop where
  present : ∀ v, (key, v) ∈ members → v = data value
  absent : key ∉ members.map Prod.fst → value = default

/-- A document holds the values that are given, and defaults for the others. -/
structure Holds (members : List (String × Data)) (doc : Document) : Prop where
  scanPaths : Gives members "scanPaths" (fun strings => .list (strings.map .text)) []
    doc.scanPaths
  excludePaths : Gives members "excludePaths" (fun strings => .list (strings.map .text)) []
    doc.excludePaths
  fileExtensions : Gives members "fileExtensions" (fun strings => .list (strings.map .text))
    ["php"] doc.fileExtensions
  ignoreParseFailures : Gives members "ignoreParseFailures" .flag false doc.ignoreParseFailures

theorem fits_iff (members : List (String × Data)) :
    Fits members ↔ ∃ settings : List Setting, settings.map Setting.member = members ∧
      Given [] settings := by
  -- Keys tell fields apart, so the ones are distinct if the others are.
  have hkeys (settings : List Setting) : ((settings.map Setting.member).map Prod.fst).Nodup ↔
      (settings.map Setting.field).Nodup := by
    have hsame : (settings.map Setting.member).map Prod.fst =
        (settings.map Setting.field).map Field.key := by
      rw [List.map_map, List.map_map]
      rfl
    rw [hsame]
    exact List.nodup_map_iff fun f g => Field.key_injective f g
  constructor
  · intro h
    have hrange : members ∈ Set.range (List.map Setting.member) := by
      rw [Set.range_list_map]
      exact fun m hm => (typed_iff m).1 (h.typed m hm)
    obtain ⟨settings, rfl⟩ := hrange
    exact ⟨settings, rfl, (hkeys settings).1 h.distinct, fun _ _ => List.not_mem_nil⟩
  · intro h
    obtain ⟨settings, rfl, hgiven⟩ := h
    refine ⟨(hkeys settings).2 hgiven.distinct, ?_⟩
    intro m hm
    obtain ⟨s, -, hs⟩ := List.mem_map.1 hm
    exact (typed_iff m).2 ⟨s, hs⟩

theorem gives_of_settings {α : Type} (settings : List Setting) (f : Field) (data : α → Data)
    (default value : α) (hgiven : Given [] settings)
    (hdata : ((settings.foldl set {}).setting f).data = data value)
    (hdefault : (settings.foldl set {}).setting f = setting {} f → value = default) :
    Gives (settings.map Setting.member) f.key data default value := by
  constructor
  · intro v hv
    obtain ⟨s, hs, hmember⟩ := List.mem_map.1 hv
    have hfield : s.field = f := Field.key_injective _ _ (congrArg Prod.fst hmember)
    have hforce := setting_foldl_of_mem settings {} s hgiven.distinct hs
    rw [← hdata, ← hfield, hforce]
    exact (congrArg Prod.snd hmember).symm
  · intro habsent
    apply hdefault
    apply setting_foldl_of_notMem
    intro s hs hfield
    apply habsent
    rw [← hfield, List.map_map]
    exact List.mem_map.2 ⟨s, hs, rfl⟩

theorem holds_of_settings (settings : List Setting) (hgiven : Given [] settings) :
    Holds (settings.map Setting.member) (settings.foldl set {}) := by
  constructor
  · exact gives_of_settings settings .scanPaths _ _ _ hgiven rfl fun h => Setting.scanPaths.inj h
  · exact gives_of_settings settings .excludePaths _ _ _ hgiven rfl
      fun h => Setting.excludePaths.inj h
  · exact gives_of_settings settings .fileExtensions _ _ _ hgiven rfl
      fun h => Setting.fileExtensions.inj h
  · exact gives_of_settings settings .ignoreParseFailures _ _ _ hgiven rfl
      fun h => Setting.ignoreParseFailures.inj h

theorem Gives.unique {α : Type} {members : List (String × Data)} {key : String} {data : α → Data}
    {default x y : α} (hdata : Function.Injective data)
    (hx : Gives members key data default x) (hy : Gives members key data default y) : x = y := by
  by_cases hkey : key ∈ members.map Prod.fst
  · obtain ⟨m, hm, rfl⟩ := List.mem_map.1 hkey
    apply hdata
    rw [← hx.present m.2 hm, ← hy.present m.2 hm]
  · rw [hx.absent hkey, hy.absent hkey]

theorem strings_injective :
    Function.Injective fun strings : List String => Data.list (strings.map .text) := by
  intro a b h
  apply List.map_injective_iff.2 _ (Data.list.inj h)
  intro s t hst
  exact Data.text.inj hst

theorem Holds.unique {members : List (String × Data)} {doc other : Document}
    (h : Holds members doc) (hother : Holds members other) : doc = other := by
  have hscan := h.scanPaths.unique strings_injective hother.scanPaths
  have hexclude := h.excludePaths.unique strings_injective hother.excludePaths
  have hextensions := h.fileExtensions.unique strings_injective hother.fileExtensions
  have hflag := h.ignoreParseFailures.unique (fun _ _ hab => Data.flag.inj hab)
    hother.ignoreParseFailures
  cases doc
  cases other
  simp_all

theorem fits_perm (members others : List (String × Data)) (h : others.Perm members)
    (hfits : Fits members) : Fits others := by
  refine ⟨(h.map Prod.fst).nodup_iff.2 hfits.distinct, ?_⟩
  intro m hm
  exact hfits.typed m (h.mem_iff.1 hm)

theorem gives_perm {α : Type} (members others : List (String × Data)) (key : String)
    (data : α → Data) (default value : α) (h : others.Perm members)
    (hgives : Gives members key data default value) : Gives others key data default value := by
  constructor
  · intro v hv
    exact hgives.present v (h.mem_iff.1 hv)
  · intro habsent
    exact hgives.absent fun hkey => habsent ((h.map Prod.fst).mem_iff.2 hkey)

theorem holds_perm (members others : List (String × Data)) (doc : Document)
    (h : others.Perm members) (hholds : Holds members doc) : Holds others doc :=
  ⟨gives_perm _ _ _ _ _ _ h hholds.scanPaths, gives_perm _ _ _ _ _ _ h hholds.excludePaths,
    gives_perm _ _ _ _ _ _ h hholds.fileExtensions,
    gives_perm _ _ _ _ _ _ h hholds.ignoreParseFailures⟩

/-- A text that stands for an object is read exactly if the members fit, and gives the one
document that holds their values. -/
theorem read_eq_ok_iff_holds (members : List (String × Data)) (text : String)
    (h : Renders members text) (doc : Document) :
    read text = .ok doc ↔ Fits members ∧ Holds members doc := by
  rw [read_eq_ok_iff members text h, fits_iff]
  constructor
  · intro hread
    obtain ⟨settings, rfl, hgiven, rfl⟩ := hread
    exact ⟨⟨settings, rfl, hgiven⟩, holds_of_settings settings hgiven⟩
  · intro hfits
    obtain ⟨⟨settings, rfl, hgiven⟩, hholds⟩ := hfits
    exact ⟨settings, rfl, hgiven, (holds_of_settings settings hgiven).unique hholds⟩

/-- A settings file that is an object, with its members in any order, any blanks and any
escapes. It is read exactly if its keys are known and distinct and their values of the right
types. The document then holds the values, and the default of each key that is not there.
Another order or another writing makes no difference to it. -/
theorem read_rendered (members : List (String × Data)) (text : String)
    (h : Renders members text) :
    ((∃ doc, read text = .ok doc) ↔ Fits members) ∧
      (∀ doc, read text = .ok doc → Holds members doc) ∧
      ∀ others text', others.Perm members → Renders others text' →
        ∀ doc, read text' = .ok doc ↔ read text = .ok doc := by
  have hread := read_eq_ok_iff_holds members text h
  refine ⟨?_, fun doc hdoc => ((hread doc).1 hdoc).2, ?_⟩
  · constructor
    · intro hsome
      obtain ⟨doc, hdoc⟩ := hsome
      exact ((hread doc).1 hdoc).1
    · intro hfits
      obtain ⟨settings, rfl, hgiven⟩ := (fits_iff members).1 hfits
      exact ⟨_, (hread _).2 ⟨hfits, holds_of_settings settings hgiven⟩⟩
  · -- Neither condition depends on the order of the members.
    intro others text' hperm hothers doc
    rw [read_eq_ok_iff_holds others text' hothers, hread]
    constructor
    · intro hdoc
      exact ⟨fits_perm _ _ hperm.symm hdoc.1, holds_perm _ _ doc hperm.symm hdoc.2⟩
    · intro hdoc
      exact ⟨fits_perm _ _ hperm hdoc.1, holds_perm _ _ doc hperm hdoc.2⟩

/-- The members of a settings file that leaves two keys out. -/
def writtenMembers : List (String × Data) :=
  [("ignoreParseFailures", .flag true), ("scanPaths", .list [.text "😀"])]

/-- A text with blanks, an escaped letter in a key and a surrogate pair in a value. -/
def writtenText : String :=
  "\x7b \"ignoreParseFailures\" : true,\n\t\"\\u0073canPaths\":[\"\\ud83D\\uDE00\"]\x7d\r\n"

theorem renders_writtenText : Renders writtenMembers writtenText := by
  have hflag : Member Written ("ignoreParseFailures", .flag true) _ :=
    .mk (a := [' ']) (b := [' ']) (spelling_plain _ (by decide)) (by decide) (by decide) .yes
  have hletter : FourDigits 's'.toNat ['0', '0', '7', '3'] :=
    .mk (k := 0) (l := 0) (m := 7) (n := 3) (by decide) (by decide) (by decide) (by decide)
  have hhigh : FourDigits 0xD83D ['d', '8', '3', 'D'] :=
    .mk (k := 13) (l := 8) (m := 3) (n := 13) (by decide) (by decide) (by decide) (by decide)
  have hlow : FourDigits 0xDE00 ['D', 'E', '0', '0'] :=
    .mk (k := 13) (l := 14) (m := 0) (n := 0) (by decide) (by decide) (by decide) (by decide)
  have hkey : Spelling "scanPaths".toList _ :=
    .cons (.unit hletter) (spelling_plain "canPaths".toList (by decide))
  have hvalue : Written (.list [.text "😀"]) _ :=
    .list (.cons (.text (.cons (.pair (by decide) hhigh hlow) .nil)) .nil)
      (.last (a := []) (b := []) (by decide) (by decide))
  have hpaths : Member Written ("scanPaths", .list [.text "😀"]) _ :=
    .mk (a := []) (b := []) hkey (by decide) (by decide) hvalue
  have hobject : Written (.object writtenMembers) _ :=
    .object (.cons hflag (.cons hpaths .nil))
      (.more (a := [' ']) (b := []) (by decide) (by decide)
        (.last (a := ['\n', '\t']) (b := []) (by decide) (by decide)))
  exact ⟨[], _, ['\r', '\n'], by decide, hobject, by decide, by decide⟩

theorem read_rendered_escapes :
    Renders writtenMembers writtenText ∧
      read writtenText = .ok ⟨["😀"], [], ["php"], true⟩ := by
  obtain ⟨hfits, hholds, -⟩ := read_rendered _ _ renders_writtenText
  have htyped : ∀ m ∈ writtenMembers, Typed m := by
    simp [writtenMembers, Typed, List.map_eq_singleton_iff, eq_comm]
  obtain ⟨doc, hdoc⟩ := hfits.2 ⟨by decide, htyped⟩
  have hvalues : Holds writtenMembers ⟨["😀"], [], ["php"], true⟩ := by
    refine ⟨⟨?_, ?_⟩, ⟨?_, ?_⟩, ⟨?_, ?_⟩, ⟨?_, ?_⟩⟩
    all_goals simp [writtenMembers]
  rw [← (hholds doc hdoc).unique hvalues]
  exact ⟨renders_writtenText, hdoc⟩

end Document

end Redeclaration
