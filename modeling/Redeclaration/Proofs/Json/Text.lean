import Mathlib.Data.List.Forall2
import Redeclaration.Json.Symbol

/-!
JSON texts and their symbols. How a value may be written is described by a grammar: characters
between quotes may be escaped in any way, and blanks may stand around every value, comma and
colon. Main statements: a string is read as the characters that its spelling stands for, and a
value of any other kind starts with a symbol of its kind.
-/

namespace Redeclaration.Json

/-! Strings. -/

/-- The hexadecimal digits of both cases, with their values. -/
def hexDigits : List (Char × Nat) :=
  [('0', 0), ('1', 1), ('2', 2), ('3', 3), ('4', 4), ('5', 5), ('6', 6), ('7', 7), ('8', 8),
    ('9', 9), ('a', 10), ('b', 11), ('c', 12), ('d', 13), ('e', 14), ('f', 15), ('A', 10),
    ('B', 11), ('C', 12), ('D', 13), ('E', 14), ('F', 15)]

/-- A number below 65536 in four hexadecimal digits. -/
inductive FourDigits : Nat → List Char → Prop
  | mk {a b c d : Char} {k l m n : Nat} (ha : (a, k) ∈ hexDigits) (hb : (b, l) ∈ hexDigits)
    (hc : (c, m) ∈ hexDigits) (hd : (d, n) ∈ hexDigits) :
    FourDigits (((k * 16 + l) * 16 + m) * 16 + n) [a, b, c, d]

/-- The letters that may follow a backslash, with the characters that they stand for. -/
def shortEscapes : List (Char × Char) :=
  [('"', '"'), ('\\', '\\'), ('/', '/'), ('b', '\x08'), ('f', '\x0c'), ('n', '\n'), ('r', '\r'),
    ('t', '\t')]

/-- How a character may be written between quotes: as it is, by a letter, by its number, or by
the two halves of a surrogate pair. -/
inductive Spells : Char → List Char → Prop
  | plain {c : Char} (hcontrol : 32 ≤ c.toNat) (hquote : c ≠ '"') (hbackslash : c ≠ '\\') :
    Spells c [c]
  | letter {c letter : Char} (h : (letter, c) ∈ shortEscapes) : Spells c ['\\', letter]
  | unit {c : Char} {digits : List Char} (h : FourDigits c.toNat digits) :
    Spells c ('\\' :: 'u' :: digits)
  | pair {c : Char} {high low : List Char} (hc : 0x10000 ≤ c.toNat)
    (hhigh : FourDigits (0xD800 + (c.toNat - 0x10000) / 0x400) high)
    (hlow : FourDigits (0xDC00 + (c.toNat - 0x10000) % 0x400) low) :
    Spells c ('\\' :: 'u' :: high ++ '\\' :: 'u' :: low)

/-- How a text may be written between quotes. -/
inductive Spelling : List Char → List Char → Prop
  | nil : Spelling [] []
  | cons {c : Char} {cs w ws : List Char} (hc : Spells c w) (hcs : Spelling cs ws) :
    Spelling (c :: cs) (w ++ ws)

/-- Without quotes, backslashes and control characters, a text may be written as it is. -/
theorem spelling_plain (cs : List Char)
    (h : (cs.all fun c => 32 ≤ c.toNat && c != '"' && c != '\\') = true) : Spelling cs cs := by
  induction cs with
  | nil => exact .nil
  | cons c cs ih =>
    simp only [List.all_cons, Bool.and_eq_true, decide_eq_true_eq, bne_iff_ne] at h
    obtain ⟨⟨⟨hcontrol, hquote⟩, hbackslash⟩, hrest⟩ := h
    exact .cons (.plain hcontrol hquote hbackslash) (ih (by simpa using hrest))

theorem hexValue?_of_mem (c : Char) (n : Nat) (h : (c, n) ∈ hexDigits) : hexValue? c = some n := by
  have hall : (hexDigits.all fun digit => hexValue? digit.1 == some digit.2) = true := by decide
  exact beq_iff_eq.1 (List.all_eq_true.1 hall _ h)

theorem shortEscape?_of_mem (letter c : Char) (h : (letter, c) ∈ shortEscapes) :
    shortEscape? letter = some c := by
  have hall : (shortEscapes.all fun pair => shortEscape? pair.1 == some pair.2) = true := by decide
  exact beq_iff_eq.1 (List.all_eq_true.1 hall _ h)

namespace FourDigits

theorem length_eq {n : Nat} {digits : List Char} (h : FourDigits n digits) :
    digits.length = 4 := by
  cases h
  rfl

theorem unit_eq {n : Nat} {digits : List Char} (h : FourDigits n digits) (rest : List Char) :
    unit (digits ++ rest) = .ok n := by
  cases h with
  | @mk a b c d k l m n ha hb hc hd =>
    have hbytes : ¬ (String.ofList ([a, b, c, d] ++ rest)).utf8ByteSize < 4 := by
      have hsizes := And.intro (And.intro a.utf8Size_pos b.utf8Size_pos)
        (And.intro c.utf8Size_pos d.utf8Size_pos)
      simp only [List.cons_append, List.nil_append, String.ofList_cons,
        String.utf8ByteSize_append, String.utf8ByteSize_singleton]
      omega
    rw [unit, if_neg hbytes]
    simp [hexValue?_of_mem _ _ ha, hexValue?_of_mem _ _ hb, hexValue?_of_mem _ _ hc,
      hexValue?_of_mem _ _ hd]

end FourDigits

/-- No character has the number of a surrogate. -/
theorem toNat_cases (c : Char) :
    c.toNat < 0xD800 ∨ 0xDFFF < c.toNat ∧ c.toNat < 0x110000 :=
  c.valid

theorem numericEscape_unit (c : Char) (digits rest : List Char) (h : FourDigits c.toNat digits) :
    numericEscape (digits ++ rest) = .ok (c, 4) := by
  have hcases := toNat_cases c
  have hlow : isLowSurrogate c.toNat = false := by
    simp only [isLowSurrogate, Bool.and_eq_false_iff, decide_eq_false_iff_not]
    omega
  have hhigh : isHighSurrogate c.toNat = false := by
    simp only [isHighSurrogate, Bool.and_eq_false_iff, decide_eq_false_iff_not]
    omega
  simp [numericEscape, h.unit_eq, hlow, hhigh, bind, Except.bind, pure, Except.pure]

theorem numericEscape_pair (c : Char) (high low rest : List Char) (hc : 0x10000 ≤ c.toNat)
    (hhigh : FourDigits (0xD800 + (c.toNat - 0x10000) / 0x400) high)
    (hlow : FourDigits (0xDC00 + (c.toNat - 0x10000) % 0x400) low) :
    numericEscape (high ++ '\\' :: 'u' :: (low ++ rest)) = .ok (c, 10) := by
  have hcases := toNat_cases c
  -- Each half carries ten bits of what is left of the number.
  obtain ⟨n, hn⟩ : ∃ n, n = c.toNat - 0x10000 := ⟨_, rfl⟩
  rw [← hn] at hhigh hlow
  have hnotLow : isLowSurrogate (0xD800 + n / 0x400) = false := by
    simp only [isLowSurrogate, Bool.and_eq_false_iff, decide_eq_false_iff_not]
    omega
  have hfirst : isHighSurrogate (0xD800 + n / 0x400) = true := by
    simp only [isHighSurrogate, Bool.and_eq_true, decide_eq_true_eq]
    omega
  have hsecond : isLowSurrogate (0xDC00 + n % 0x400) = true := by
    simp only [isLowSurrogate, Bool.and_eq_true, decide_eq_true_eq]
    omega
  have hnumber : 0x10000 + (0xD800 + n / 0x400 - 0xD800) * 0x400 +
      (0xDC00 + n % 0x400 - 0xDC00) = c.toNat := by
    omega
  have hdrop : (high ++ '\\' :: 'u' :: (low ++ rest)).drop 4 = '\\' :: 'u' :: (low ++ rest) := by
    rw [← hhigh.length_eq, List.drop_left]
  simp only [numericEscape, hhigh.unit_eq, hdrop, secondUnit, hlow.unit_eq, hnotLow, hfirst,
    hsecond, bind, Except.bind, pure, Except.pure, hnumber, Char.ofNat_toNat, if_true, if_false,
    Bool.false_eq_true]

/-- An escape is read as the character that it stands for. -/
theorem content_escape (c : Char) (w decoded rest : List Char) (passed : Nat)
    (h : escape (w ++ rest) = .ok (c, w.length)) :
    content decoded passed ('\\' :: w ++ rest) =
      content (c :: decoded) (passed + ('\\' :: w).length) rest := by
  rw [List.cons_append, content, if_neg (by decide), if_pos (by decide), h]
  dsimp only
  rw [List.drop_left, List.length_cons, Nat.add_assoc, Nat.add_comm 1]

theorem escape_unicode (c : Char) (w rest : List Char)
    (h : numericEscape (w ++ rest) = .ok (c, w.length)) :
    escape ('u' :: w ++ rest) = .ok (c, ('u' :: w).length) := by
  have hletter : shortEscape? 'u' = none := rfl
  rw [List.cons_append, escape, hletter, h]
  rfl

theorem content_spells (c : Char) (w decoded rest : List Char) (passed : Nat) (h : Spells c w) :
    content decoded passed (w ++ rest) = content (c :: decoded) (passed + w.length) rest := by
  cases h with
  | plain hcontrol hquote hbackslash =>
    rw [List.singleton_append, content, if_neg (by simpa using hquote),
      if_neg (by simpa using hbackslash), if_neg (by omega)]
    rfl
  | @letter letter hletter =>
    apply content_escape c [letter]
    simp [escape, shortEscape?_of_mem letter c hletter]
  | @unit digits hdigits =>
    apply content_escape c ('u' :: digits)
    apply escape_unicode
    rw [numericEscape_unit c digits rest hdigits, hdigits.length_eq]
  | @pair high low hc hhigh hlow =>
    apply content_escape c ('u' :: (high ++ '\\' :: 'u' :: low))
    apply escape_unicode
    rw [List.append_assoc]
    simp only [List.cons_append, numericEscape_pair c high low rest hc hhigh hlow,
      List.length_append, List.length_cons, hhigh.length_eq, hlow.length_eq]

/-- A string is read as the characters that its spelling stands for. -/
theorem content_spelling (cs ws decoded rest : List Char) (passed : Nat) (h : Spelling cs ws) :
    content decoded passed (ws ++ '"' :: rest) =
      .ok (String.ofList (decoded.reverse ++ cs), passed + ws.length + 1) := by
  induction h generalizing decoded passed with
  | nil =>
    rw [List.nil_append, content, if_pos (by decide), List.append_nil]
    rfl
  | @cons c cs w ws hc hcs ih =>
    rw [List.append_assoc, content_spells c w decoded _ passed hc, ih]
    simp [Nat.add_assoc]

/-! Values. -/

def blanks : List Char := [' ', '\t', '\n', '\r']

def IsBlanks (cs : List Char) : Prop := ∀ c ∈ cs, c ∈ blanks

instance (cs : List Char) : Decidable (IsBlanks cs) :=
  List.decidableBAll (· ∈ blanks) cs

def IsDigits (cs : List Char) : Prop := cs ≠ [] ∧ ∀ c ∈ cs, c.isDigit = true

/-- The point and the digits after it. -/
inductive Fraction : List Char → Prop
  | none : Fraction []
  | some {ds : List Char} (h : IsDigits ds) : Fraction ('.' :: ds)

inductive Exponent : List Char → Prop
  | none : Exponent []
  | some {e : Char} {sign ds : List Char} (he : e = 'e' ∨ e = 'E')
    (hsign : sign = [] ∨ sign = ['+'] ∨ sign = ['-']) (h : IsDigits ds) :
    Exponent (e :: (sign ++ ds))

/-- How a number may be written. Only zero itself starts with the digit zero. -/
inductive Numeral : List Char → Prop
  | mk {sign whole fraction exponent : List Char} (hsign : sign = [] ∨ sign = ['-'])
    (hwhole : IsDigits whole) (hzero : whole.head? = some '0' → whole = ['0'])
    (hfraction : Fraction fraction) (hexponent : Exponent exponent) :
    Numeral (sign ++ (whole ++ (fraction ++ exponent)))

/-- What a JSON text stands for. A number is kept as it is written. -/
inductive Data where
  | null
  | flag (value : Bool)
  | number (literal : String)
  | text (value : String)
  | list (items : List Data)
  | object (members : List (String × Data))

/-- Texts with commas between them, and with any blanks around each of them. -/
inductive Separated : List (List Char) → List Char → Prop
  | none {b : List Char} (hb : IsBlanks b) : Separated [] b
  | last {a w b : List Char} (ha : IsBlanks a) (hb : IsBlanks b) : Separated [w] (a ++ (w ++ b))
  | more {a w b next body : List Char} {ws : List (List Char)} (ha : IsBlanks a) (hb : IsBlanks b)
    (h : Separated (next :: ws) body) : Separated (w :: next :: ws) (a ++ (w ++ (b ++ ',' :: body)))

/-- How a member of an object may be written, if values are written by a relation. -/
inductive Member (written : Data → List Char → Prop) : String × Data → List Char → Prop
  | mk {key : String} {v : Data} {ks a b w : List Char} (hkey : Spelling key.toList ks)
    (ha : IsBlanks a) (hb : IsBlanks b) (hv : written v w) :
    Member written (key, v) ('"' :: (ks ++ '"' :: (a ++ ':' :: (b ++ w))))

/-- How a value may be written. -/
inductive Written : Data → List Char → Prop
  | null : Written .null ['n', 'u', 'l', 'l']
  | yes : Written (.flag true) ['t', 'r', 'u', 'e']
  | no : Written (.flag false) ['f', 'a', 'l', 's', 'e']
  | number {literal : String} (h : Numeral literal.toList) :
    Written (.number literal) literal.toList
  | text {value : String} {ws : List Char} (h : Spelling value.toList ws) :
    Written (.text value) ('"' :: (ws ++ ['"']))
  | list {items : List Data} {texts : List (List Char)} {body : List Char}
    (hitems : List.Forall₂ Written items texts) (hbody : Separated texts body) :
    Written (.list items) ('[' :: (body ++ [']']))
  | object {members : List (String × Data)} {texts : List (List Char)} {body : List Char}
    (hmembers : List.Forall₂ (Member Written) members texts) (hbody : Separated texts body) :
    Written (.object members) ('\x7b' :: (body ++ ['\x7d']))

/-! Symbols. -/

theorem symbols_cons (c : Char) (rest : List Char) (s : Symbol) (n : Nat)
    (hblank : Text.isBlank c = false) (hs : symbol c rest = (s, n))
    (hbroken : s.isBroken = false) : symbols (c :: rest) = s :: symbols (rest.drop n) := by
  rw [symbols, hblank, hs]
  simp [hbroken]

theorem symbols_blanks (a rest : List Char) (h : IsBlanks a) :
    symbols (a ++ rest) = symbols rest := by
  induction a with
  | nil => rfl
  | cons c a ih =>
    have hall : blanks.all Text.isBlank = true := by decide
    have hc := List.all_eq_true.1 hall c (h c List.mem_cons_self)
    rw [List.cons_append, symbols, if_pos hc]
    exact ih fun d hd => h d (List.mem_cons_of_mem c hd)

/-- The symbols of a single character. -/
def punctuation : List (Char × Symbol) :=
  [('[', .openList), (']', .closeList), ('\x7b', .openObject), ('\x7d', .closeObject),
    (',', .comma), (':', .colon)]

theorem symbols_punctuation (c : Char) (s : Symbol) (rest : List Char)
    (h : (c, s) ∈ punctuation) : symbols (c :: rest) = s :: symbols rest := by
  simp only [punctuation, List.mem_cons, Prod.mk.injEq, List.not_mem_nil, or_false] at h
  rcases h with ⟨rfl, rfl⟩ | ⟨rfl, rfl⟩ | ⟨rfl, rfl⟩ | ⟨rfl, rfl⟩ | ⟨rfl, rfl⟩ | ⟨rfl, rfl⟩
  all_goals exact symbols_cons _ _ _ 0 rfl rfl rfl

theorem symbols_string (cs ws rest : List Char) (h : Spelling cs ws) :
    symbols ('"' :: (ws ++ '"' :: rest)) = .string (String.ofList cs) :: symbols rest := by
  have hcontent := content_spelling cs ws [] rest 0 h
  rw [symbols_cons '"' _ (.string (String.ofList cs)) (ws.length + 1) rfl _ rfl]
  · rw [← List.drop_drop, List.drop_left]
    rfl
  · simp [symbol, hcontent]

/-- The first symbol of a value. The digits of a number may fail to be one, if its value is too
large. -/
def Data.Starts : Data → Symbol → Prop
  | null, t => t = .null
  | flag value, t => t = .bool value
  | number _, t => t = .number ∨ ∃ why, t = .broken why
  | text value, t => t = .string value
  | list _, t => t = .openList
  | object _, t => t = .openObject

theorem symbol_numeral (c : Char) (rest : List Char) (h : c = '-' ∨ c.isDigit = true) :
    symbol c rest =
      match numberLength (c :: rest) with
      | .ok n => (.number, n - 1)
      | .error why => (.broken why, 0) := by
  unfold symbol
  split
  -- Each character with a branch of its own is neither a sign nor a digit.
  iterate 10 exact absurd h (by decide)
  exact if_pos (by simpa using h)

theorem exists_symbols_numeral (c : Char) (rest : List Char) (h : c = '-' ∨ c.isDigit = true) :
    ∃ t ts, symbols (c :: rest) = t :: ts ∧ (t = .number ∨ ∃ why, t = .broken why) := by
  have hblank : Text.isBlank c = false := by
    rw [← Bool.not_eq_true]
    intro hblank
    simp only [Text.isBlank, Bool.or_eq_true, beq_iff_eq] at hblank
    rcases hblank with ((rfl | rfl) | rfl) | rfl
    all_goals exact absurd h (by decide)
  have hs := symbol_numeral c rest h
  cases hnumber : numberLength (c :: rest) with
  | ok n =>
    rw [hnumber] at hs
    exact ⟨_, _, symbols_cons c rest _ _ hblank hs rfl, .inl rfl⟩
  | error why =>
    -- A number that overflows is broken, and ends the symbols.
    rw [hnumber] at hs
    refine ⟨.broken why, [], ?_, .inr ⟨why, rfl⟩⟩
    rw [symbols, hblank, hs]
    rfl

theorem Numeral.exists_first {literal : List Char} (h : Numeral literal) :
    ∃ c cs, literal = c :: cs ∧ (c = '-' ∨ c.isDigit = true) := by
  cases h with
  | @mk sign whole fraction exponent hsign hwhole =>
    obtain ⟨hsome, hdigits⟩ := hwhole
    obtain ⟨c, cs, rfl⟩ := List.exists_cons_of_ne_nil hsome
    rcases hsign with rfl | rfl
    · exact ⟨c, _, rfl, .inr (hdigits c List.mem_cons_self)⟩
    · exact ⟨'-', _, rfl, .inl rfl⟩

theorem symbols_flag (value : Bool) (w rest : List Char) (h : Written (.flag value) w) :
    symbols (w ++ rest) = .bool value :: symbols rest := by
  cases h with
  | yes => exact symbols_cons 't' _ (.bool true) 3 rfl rfl rfl
  | no => exact symbols_cons 'f' _ (.bool false) 4 rfl rfl rfl

theorem symbols_text (value : String) (w rest : List Char) (h : Written (.text value) w) :
    symbols (w ++ rest) = .string value :: symbols rest := by
  cases h with
  | @text _ ws hspelling =>
    rw [List.cons_append, List.append_assoc, List.singleton_append,
      symbols_string _ _ _ hspelling, String.ofList_toList]

/-- A value starts with a symbol of its kind. -/
theorem exists_symbols (v : Data) (w rest : List Char) (h : Written v w) :
    ∃ t ts, symbols (w ++ rest) = t :: ts ∧ v.Starts t := by
  cases v with
  | null =>
    cases h
    exact ⟨_, _, symbols_cons 'n' _ .null 3 rfl rfl rfl, rfl⟩
  | flag value => exact ⟨_, _, symbols_flag value w rest h, rfl⟩
  | number literal =>
    cases h with
    | number hliteral =>
      obtain ⟨c, cs, hfirst, hc⟩ := hliteral.exists_first
      rw [hfirst]
      exact exists_symbols_numeral c (cs ++ rest) hc
  | text value => exact ⟨_, _, symbols_text value w rest h, rfl⟩
  | list items =>
    cases h
    exact ⟨_, _, symbols_punctuation _ _ _ (by decide), rfl⟩
  | object members =>
    cases h
    exact ⟨_, _, symbols_punctuation _ _ _ (by decide), rfl⟩

end Redeclaration.Json
