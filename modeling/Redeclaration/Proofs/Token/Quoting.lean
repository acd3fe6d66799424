import Mathlib.Order.Basic
import Redeclaration.Proofs.Text.Search
import Redeclaration.Token.Lexer

/-!
Where strings end. Each search for an end splits the text in front of it, and
whether it finds one does not hang on the characters that are counted already.
-/

namespace Redeclaration

open Text

/-- A label as an opening gives it. -/
structure SoundLabel (label : List Char) : Prop where
  starts : startsLabel label = true
  chars : ∀ c ∈ label, isLabelChar c = true

/-- What may end a string: a quote mark or a label. -/
def Closing.Sound : Closing → Prop
  | .quote mark => mark = '"' ∨ mark = '\x60'
  | .heredoc label => SoundLabel label

def Quoting.Sound : Quoting → Prop
  | .single => True
  | .nowdoc label => SoundLabel label
  | .interpolated closing => closing.Sound

/-- The characters with which a string ends. -/
def Closing.text : Closing → List Char
  | .quote mark => [mark]
  | .heredoc label => label

theorem SoundLabel.ne_nil {label : List Char} (h : SoundLabel label) : label ≠ [] := by
  rintro rfl
  cases h.starts

theorem markerLength?_split (label cs : List Char) (n : Nat)
    (h : markerLength? label cs = some n) :
    ∃ a b, cs = a ++ (label ++ b) ∧ n = a.length + label.length := by
  unfold markerLength? at h
  simp only [drop_runLength] at h
  split at h
  · rename_i hmarker
    rw [Bool.and_eq_true, List.isPrefixOf_iff_prefix] at hmarker
    obtain ⟨⟨b, hb⟩, -⟩ := hmarker
    cases h
    refine ⟨cs.takeWhile isIndent, b, ?_, rfl⟩
    rw [hb, List.takeWhile_append_dropWhile]
  · cases h

theorem singleEnd?_split (passed : Nat) (cs : List Char) (n : Nat)
    (h : singleEnd? passed cs = some n) :
    ∃ a b, cs = a ++ '\'' :: b ∧ n = passed + a.length + 1 := by
  fun_induction singleEnd? passed cs with
  | case1 => cases h
  | case2 passed c cs hc =>
    cases h
    rw [beq_iff_eq] at hc
    exact ⟨[], cs, by rw [hc]; rfl, rfl⟩
  | case3 => cases h
  | case4 passed c hc hback d rest ih =>
    obtain ⟨a, b, rfl, rfl⟩ := ih h
    refine ⟨c :: d :: a, b, rfl, ?_⟩
    simp only [List.length_cons]
    omega
  | case5 passed c cs hc hback ih =>
    obtain ⟨a, b, rfl, rfl⟩ := ih h
    refine ⟨c :: a, b, rfl, ?_⟩
    simp only [List.length_cons]
    omega

theorem nowdocEnd?_split (label : List Char) (lineStart : Bool) (passed : Nat)
    (cs : List Char) (n : Nat) (h : nowdocEnd? label lineStart passed cs = some n) :
    ∃ a b, cs = a ++ (label ++ b) ∧ n = passed + a.length + label.length := by
  fun_induction nowdocEnd? label lineStart passed cs with
  | case1 cs lineStart passed m hm =>
    simp only [hm, Option.some.injEq] at h
    split at hm
    · obtain ⟨a, b, hcs, rfl⟩ := markerLength?_split label cs m hm
      exact ⟨a, b, hcs, by omega⟩
    · cases hm
  | case2 lineStart passed hm =>
    simp only [hm] at h
    cases h
  | case3 lineStart passed c rest hm ih =>
    simp only [hm] at h
    obtain ⟨a, b, rfl, rfl⟩ := ih h
    refine ⟨c :: a, b, rfl, ?_⟩
    simp only [List.length_cons]
    omega

theorem closing_length?_split (closing : Closing) (lineStart : Bool) (cs : List Char) (n : Nat)
    (h : closing.length? lineStart cs = some n) :
    ∃ a b, cs = a ++ (closing.text ++ b) ∧ n = a.length + closing.text.length := by
  cases closing with
  | quote mark =>
    simp only [Closing.length?] at h
    split at h
    · rename_i hhead
      rw [beq_iff_eq] at hhead
      obtain ⟨b, rfl⟩ := List.head?_eq_some_iff.1 hhead
      cases h
      exact ⟨[], b, rfl, rfl⟩
    · cases h
  | heredoc label =>
    simp only [Closing.length?] at h
    split at h
    · exact markerLength?_split label cs n h
    · cases h

/-- The split of a text where a fragment stops: at the closing of its string, or
before an interpolation. -/
def FragmentEnd.Splits (closing : Closing) (passed : Nat) (cs : List Char) : FragmentEnd → Prop
  | .closed n =>
    ∃ a b, cs = a ++ (closing.text ++ b) ∧ n = passed + a.length + closing.text.length
  | .interrupted n => ∃ a b, cs = a ++ b ∧ n = passed + a.length ∧ startsInterpolation b = true
  | .missing => True

theorem FragmentEnd.splits_append (closing : Closing) (passed : Nat) (pre cs : List Char)
    (e : FragmentEnd) (h : e.Splits closing (passed + pre.length) cs) :
    e.Splits closing passed (pre ++ cs) := by
  cases e with
  | closed n =>
    obtain ⟨a, b, rfl, rfl⟩ := h
    refine ⟨pre ++ a, b, by rw [List.append_assoc], ?_⟩
    rw [List.length_append]
    omega
  | interrupted n =>
    obtain ⟨a, b, rfl, rfl, hb⟩ := h
    refine ⟨pre ++ a, b, by rw [List.append_assoc], ?_, hb⟩
    rw [List.length_append]
    omega
  | missing => trivial

theorem fragmentEnd_splits (closing : Closing) (lineStart : Bool) (passed : Nat)
    (cs : List Char) : (fragmentEnd closing lineStart passed cs).Splits closing passed cs := by
  fun_induction fragmentEnd closing lineStart passed cs with
  | case1 lineStart passed cs n hn =>
    simp only [hn]
    obtain ⟨a, b, hcs, rfl⟩ := closing_length?_split closing lineStart cs n hn
    exact ⟨a, b, hcs, by omega⟩
  | case2 lineStart passed hn =>
    simp only [hn]
    trivial
  | case3 lineStart passed c rest hstart hn =>
    simp only [hn, hstart, if_true]
    exact ⟨[], c :: rest, rfl, rfl, hstart⟩
  | case4 lineStart passed c hback d more hn hstart hd ih =>
    simp only [hn, hstart, hback, hd, if_true, if_false, Bool.false_eq_true]
    exact FragmentEnd.splits_append closing passed [c] _ _ ih
  | case5 lineStart passed c hback d more hn hstart hd ih =>
    simp only [hn, hstart, hback, hd, if_true, if_false, Bool.false_eq_true]
    exact FragmentEnd.splits_append closing passed [c, d] _ _ ih
  | case6 lineStart passed c hback hn hstart =>
    simp only [hn, hstart, hback, if_true, if_false, Bool.false_eq_true]
    trivial
  | case7 lineStart passed c rest hn hstart hback ih =>
    simp only [hn, hstart, hback, if_false, Bool.false_eq_true]
    exact FragmentEnd.splits_append closing passed [c] _ _ ih

/-! One step of each search. -/

theorem singleEnd?_closed (p : Nat) (c : Char) (cs : List Char) (hc : (c == '\'') = true) :
    singleEnd? p (c :: cs) = some (p + 1) := by
  rw [singleEnd?.eq_def]
  simp only [hc, if_true]

/-- A backslash takes the next character with it. -/
theorem singleEnd?_escape (p : Nat) (c d : Char) (cs : List Char) (hc : ¬ (c == '\'') = true)
    (hback : (c == '\\') = true) : singleEnd? p (c :: d :: cs) = singleEnd? (p + 2) cs := by
  rw [singleEnd?.eq_def]
  simp only [hc, hback, if_true, if_false, Bool.false_eq_true]

theorem singleEnd?_plain (p : Nat) (c : Char) (cs : List Char) (hc : ¬ (c == '\'') = true)
    (hback : ¬ (c == '\\') = true) : singleEnd? p (c :: cs) = singleEnd? (p + 1) cs := by
  rw [singleEnd?.eq_def]
  simp only [hc, hback, if_false, Bool.false_eq_true]

theorem nowdocEnd?_closed (label : List Char) (lineStart : Bool) (p : Nat) (cs : List Char)
    (n : Nat) (h : (if lineStart then markerLength? label cs else none) = some n) :
    nowdocEnd? label lineStart p cs = some (p + n) := by
  rw [nowdocEnd?.eq_def, h]

theorem nowdocEnd?_nil (label : List Char) (lineStart : Bool) (p : Nat)
    (h : (if lineStart then markerLength? label [] else none) = none) :
    nowdocEnd? label lineStart p [] = none := by
  rw [nowdocEnd?.eq_def, h]

theorem nowdocEnd?_cons (label : List Char) (lineStart : Bool) (p : Nat) (c : Char)
    (cs : List Char) (h : (if lineStart then markerLength? label (c :: cs) else none) = none) :
    nowdocEnd? label lineStart p (c :: cs) = nowdocEnd? label (endsLine c cs) (p + 1) cs := by
  rw [nowdocEnd?.eq_def, h]

theorem fragmentEnd_closed (closing : Closing) (lineStart : Bool) (p : Nat) (cs : List Char)
    (n : Nat) (h : closing.length? lineStart cs = some n) :
    fragmentEnd closing lineStart p cs = .closed (p + n) := by
  rw [fragmentEnd.eq_def, h]

theorem fragmentEnd_nil (closing : Closing) (lineStart : Bool) (p : Nat)
    (h : closing.length? lineStart [] = none) :
    fragmentEnd closing lineStart p [] = .missing := by
  rw [fragmentEnd.eq_def, h]

theorem fragmentEnd_interrupted (closing : Closing) (lineStart : Bool) (p : Nat) (c : Char)
    (cs : List Char) (h : closing.length? lineStart (c :: cs) = none)
    (hstart : startsInterpolation (c :: cs) = true) :
    fragmentEnd closing lineStart p (c :: cs) = .interrupted p := by
  rw [fragmentEnd.eq_def, h]
  simp only [hstart, if_true]

/-- A backslash takes the next character with it, unless that ends a line. -/
theorem fragmentEnd_escape (closing : Closing) (lineStart : Bool) (p : Nat) (c d : Char)
    (cs : List Char) (h : closing.length? lineStart (c :: d :: cs) = none)
    (hstart : ¬ startsInterpolation (c :: d :: cs) = true) (hback : (c == '\\') = true) :
    fragmentEnd closing lineStart p (c :: d :: cs) =
      if d == '\n' || d == '\r' then fragmentEnd closing false (p + 1) (d :: cs)
      else fragmentEnd closing false (p + 2) cs := by
  rw [fragmentEnd.eq_def, h]
  simp only [hstart, hback, if_true, if_false, Bool.false_eq_true]

theorem fragmentEnd_last_escape (closing : Closing) (lineStart : Bool) (p : Nat) (c : Char)
    (h : closing.length? lineStart [c] = none)
    (hstart : ¬ startsInterpolation [c] = true) (hback : (c == '\\') = true) :
    fragmentEnd closing lineStart p [c] = .missing := by
  rw [fragmentEnd.eq_def, h]
  simp only [hstart, hback, if_true, if_false, Bool.false_eq_true]

theorem fragmentEnd_plain (closing : Closing) (lineStart : Bool) (p : Nat) (c : Char)
    (cs : List Char) (h : closing.length? lineStart (c :: cs) = none)
    (hstart : ¬ startsInterpolation (c :: cs) = true) (hback : ¬ (c == '\\') = true) :
    fragmentEnd closing lineStart p (c :: cs) =
      fragmentEnd closing (endsLine c cs) (p + 1) cs := by
  rw [fragmentEnd.eq_def, h]
  simp only [hstart, hback, if_false, Bool.false_eq_true]

/-! An end is found whatever is counted already, and only its count differs. -/

theorem singleEnd?_add (p q : Nat) (cs : List Char) :
    singleEnd? (p + q) cs = (singleEnd? q cs).map (p + ·) := by
  fun_induction singleEnd? q cs with
  | case1 => rfl
  | case2 q c cs hc => rw [singleEnd?_closed _ c cs hc, Option.map_some, Nat.add_assoc]
  | case3 q c hc hback => simp [singleEnd?, hc, hback]
  | case4 q c hc hback d rest ih =>
    rw [singleEnd?_escape _ c d rest hc hback, ← ih, Nat.add_assoc]
  | case5 q c cs hc hback ih => rw [singleEnd?_plain _ c cs hc hback, ← ih, Nat.add_assoc]

theorem nowdocEnd?_add (label : List Char) (lineStart : Bool) (p q : Nat) (cs : List Char) :
    nowdocEnd? label lineStart (p + q) cs = (nowdocEnd? label lineStart q cs).map (p + ·) := by
  fun_induction nowdocEnd? label lineStart q cs with
  | case1 cs lineStart q n hn =>
    rw [nowdocEnd?_closed label lineStart _ cs n hn]
    simp [hn, Nat.add_assoc]
  | case2 lineStart q hn =>
    rw [nowdocEnd?_nil label lineStart _ hn]
    simp [hn]
  | case3 lineStart q c rest hn ih =>
    rw [nowdocEnd?_cons label lineStart _ c rest hn, Nat.add_assoc, ih]
    simp [hn]

/-- The same end at another position. -/
def FragmentEnd.map (f : Nat → Nat) : FragmentEnd → FragmentEnd
  | .closed n => .closed (f n)
  | .interrupted n => .interrupted (f n)
  | .missing => .missing

theorem fragmentEnd_add (closing : Closing) (lineStart : Bool) (p q : Nat) (cs : List Char) :
    fragmentEnd closing lineStart (p + q) cs =
      (fragmentEnd closing lineStart q cs).map (p + ·) := by
  fun_induction fragmentEnd closing lineStart q cs with
  | case1 lineStart q cs n hn =>
    rw [fragmentEnd_closed closing lineStart _ cs n hn]
    simp [hn, FragmentEnd.map, Nat.add_assoc]
  | case2 lineStart q hn =>
    rw [fragmentEnd_nil closing lineStart _ hn]
    simp [hn, FragmentEnd.map]
  | case3 lineStart q c rest hstart hn =>
    rw [fragmentEnd_interrupted closing lineStart _ c rest hn hstart]
    simp [hn, hstart, FragmentEnd.map]
  | case4 lineStart q c hback d more hd hstart hn ih =>
    rw [fragmentEnd_escape closing lineStart _ c d more hn hstart hback, if_pos hd,
      Nat.add_assoc, ih]
    simp only [hn, hstart, hback, hd, if_true, if_false, Bool.false_eq_true]
  | case5 lineStart q c hback d more hd hstart hn ih =>
    rw [fragmentEnd_escape closing lineStart _ c d more hn hstart hback, if_neg hd,
      Nat.add_assoc, ih]
    simp only [hn, hstart, hback, hd, if_true, if_false, Bool.false_eq_true]
  | case6 lineStart q c hback hstart hn =>
    rw [fragmentEnd_last_escape closing lineStart _ c hn hstart hback]
    simp [hn, hstart, hback, FragmentEnd.map]
  | case7 lineStart q c rest hstart hback hn ih =>
    rw [fragmentEnd_plain closing lineStart _ c rest hn hstart hback, Nat.add_assoc, ih]
    simp only [hn, hstart, hback, if_false, Bool.false_eq_true]

theorem singleEnd?_none (p q : Nat) (cs : List Char) (h : singleEnd? p cs = none) :
    singleEnd? q cs = none := by
  have hp := singleEnd?_add p 0 cs
  have hq := singleEnd?_add q 0 cs
  rw [Nat.add_zero] at hp hq
  rw [hp, Option.map_eq_none_iff] at h
  rw [hq, h, Option.map_none]

theorem nowdocEnd?_none (label : List Char) (lineStart : Bool) (p q : Nat) (cs : List Char)
    (h : nowdocEnd? label lineStart p cs = none) : nowdocEnd? label lineStart q cs = none := by
  have hp := nowdocEnd?_add label lineStart p 0 cs
  have hq := nowdocEnd?_add label lineStart q 0 cs
  rw [Nat.add_zero] at hp hq
  rw [hp, Option.map_eq_none_iff] at h
  rw [hq, h, Option.map_none]

theorem fragmentEnd_missing (closing : Closing) (lineStart : Bool) (p q : Nat)
    (cs : List Char) (h : fragmentEnd closing lineStart p cs = .missing) :
    fragmentEnd closing lineStart q cs = .missing := by
  have hp := fragmentEnd_add closing lineStart p 0 cs
  have hq := fragmentEnd_add closing lineStart q 0 cs
  rw [Nat.add_zero] at hp hq
  rw [hq]
  rw [hp] at h
  cases hend : fragmentEnd closing lineStart 0 cs with
  | closed n => simp [hend, FragmentEnd.map] at h
  | interrupted n => simp [hend, FragmentEnd.map] at h
  | missing => rfl

/-! Openings. -/

theorem labelOpening?_sound (cs : List Char) (o : Opening) (h : labelOpening? cs = some o) :
    o.quoting.Sound ∧ 0 < o.length := by
  unfold labelOpening? at h
  simp only at h
  split at h
  · rename_i hopening
    simp only [Bool.and_eq_true] at hopening
    cases h
    have hstarts := hopening.1.1.2
    refine ⟨?_, by dsimp only; omega⟩
    dsimp only
    split
    · exact ⟨hstarts, fun c hc => List.mem_takeWhile_imp hc⟩
    · exact ⟨hstarts, fun c hc => List.mem_takeWhile_imp hc⟩
  · cases h

theorem plainOpening?_sound (cs : List Char) (o : Opening) (h : plainOpening? cs = some o) :
    o.quoting.Sound ∧ 0 < o.length := by
  cases cs with
  | nil => cases h
  | cons c cs =>
    simp only [plainOpening?] at h
    split at h
    · cases h
      exact ⟨trivial, Nat.one_pos⟩
    · split at h
      · rename_i hc
        cases h
        exact ⟨.inl (beq_iff_eq.1 hc), Nat.one_pos⟩
      · exact labelOpening?_sound (c :: cs) o h

theorem opening?_sound (cs : List Char) (o : Opening) (h : opening? cs = some o) :
    o.quoting.Sound ∧ 0 < o.length := by
  cases cs with
  | nil => cases h
  | cons c cs =>
    simp only [opening?] at h
    split at h
    · obtain ⟨o', ho', rfl⟩ := Option.map_eq_some_iff.1 h
      exact ⟨(plainOpening?_sound cs o' ho').1, Nat.succ_pos _⟩
    · split at h
      · rename_i hc
        cases h
        exact ⟨.inr (beq_iff_eq.1 hc), Nat.one_pos⟩
      · exact plainOpening?_sound (c :: cs) o h

end Redeclaration
