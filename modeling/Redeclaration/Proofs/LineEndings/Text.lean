import Redeclaration.Proofs.Text.Lines
import Redeclaration.Proofs.Text.Search

/-!
Texts whose line feeds are turned into pairs of a carriage return and a line
feed. A position moves by the number of line feeds before it, and a search that
does not tell the two characters apart finds the position that the one of the
plain text has moved to.
-/

namespace Redeclaration.Text

/-- The text with a carriage return before each line feed. -/
def crlf : List Char → List Char
  | [] => []
  | c :: cs => if c = '\n' then '\r' :: '\n' :: crlf cs else c :: crlf cs

/-- Where a position of a text is found in the text with carriage returns. -/
def widened (cs : List Char) (n : Nat) : Nat :=
  (crlf (cs.take n)).length

@[simp]
theorem crlf_nil : crlf [] = [] :=
  rfl

@[simp]
theorem crlf_feed (cs : List Char) : crlf ('\n' :: cs) = '\r' :: '\n' :: crlf cs :=
  rfl

theorem crlf_cons (c : Char) (cs : List Char) (hc : c ≠ '\n') : crlf (c :: cs) = c :: crlf cs := by
  rw [crlf, if_neg hc]

theorem crlf_append (a b : List Char) : crlf (a ++ b) = crlf a ++ crlf b := by
  induction a with
  | nil => rfl
  | cons c a ih =>
    by_cases hc : c = '\n'
    · rw [hc, List.cons_append, crlf_feed, crlf_feed, ih]
      rfl
    · rw [List.cons_append, crlf_cons c _ hc, crlf_cons c _ hc, ih]
      rfl

theorem crlf_of_notMem (cs : List Char) (h : '\n' ∉ cs) : crlf cs = cs := by
  induction cs with
  | nil => rfl
  | cons c cs ih =>
    rw [List.mem_cons, not_or] at h
    rw [crlf_cons c cs (Ne.symm h.1), ih h.2]

/-- A text is empty if and only if it is so with carriage returns. -/
theorem crlf_cons_exists (c : Char) (cs : List Char) :
    ∃ c' cs', crlf (c :: cs) = c' :: cs' := by
  by_cases hc : c = '\n'
  · exact ⟨'\r', '\n' :: crlf cs, by rw [hc, crlf_feed]⟩
  · exact ⟨c, crlf cs, crlf_cons c cs hc⟩

/-! Positions. -/

theorem crlf_split (cs : List Char) (n : Nat) :
    crlf cs = crlf (cs.take n) ++ crlf (cs.drop n) := by
  rw [← crlf_append, List.take_append_drop]

theorem take_widened (cs : List Char) (n : Nat) :
    (crlf cs).take (widened cs n) = crlf (cs.take n) := by
  rw [crlf_split cs n]
  exact List.take_left

theorem drop_widened (cs : List Char) (n : Nat) :
    (crlf cs).drop (widened cs n) = crlf (cs.drop n) := by
  rw [crlf_split cs n]
  exact List.drop_left

@[simp]
theorem widened_zero (cs : List Char) : widened cs 0 = 0 := by
  simp [widened]

theorem widened_length (cs : List Char) : widened cs cs.length = (crlf cs).length := by
  rw [widened, List.take_length]

theorem widened_feed (cs : List Char) (n : Nat) :
    widened ('\n' :: cs) (n + 1) = widened cs n + 2 := by
  simp [widened]

theorem widened_cons (c : Char) (cs : List Char) (n : Nat) (hc : c ≠ '\n') :
    widened (c :: cs) (n + 1) = widened cs n + 1 := by
  simp [widened, crlf_cons c _ hc]

theorem widened_cons_eq_zero (c : Char) (cs : List Char) (n : Nat) :
    widened (c :: cs) n = 0 ↔ n = 0 := by
  cases n with
  | zero => simp
  | succ n =>
    by_cases hc : c = '\n'
    · simp [hc, widened_feed]
    · simp [widened_cons c cs n hc]

theorem widened_add (cs : List Char) (m n : Nat) :
    widened cs (m + n) = widened cs m + widened (cs.drop m) n := by
  rw [widened, List.take_add, crlf_append, List.length_append]
  rfl

/-- A character other than a line feed moves what follows it by one more, and a line
feed by two. -/
theorem widened_next (cs : List Char) (k : Nat) (c : Char) (rest : List Char)
    (h : cs.drop k = c :: rest) (hc : c ≠ '\n') : widened cs (k + 1) = widened cs k + 1 := by
  rw [widened_add, h, widened_cons c rest 0 hc, widened_zero]

theorem widened_next_feed (cs : List Char) (k : Nat) (rest : List Char)
    (h : cs.drop k = '\n' :: rest) : widened cs (k + 1) = widened cs k + 2 := by
  rw [widened_add, h, widened_feed rest 0, widened_zero]

/-- Positions do not move as long as there are no line feeds. -/
theorem widened_of_front (p cs : List Char) (n : Nat) (h : p <+: cs) (hp : '\n' ∉ p)
    (hn : n = p.length) : widened cs n = n := by
  obtain ⟨rest, rfl⟩ := h
  rw [widened, hn, List.take_left, crlf_of_notMem p hp]

theorem drop_of_widened (cs : List Char) (n : Nat) (h : widened cs n = n) :
    (crlf cs).drop n = crlf (cs.drop n) := by
  have hdrop := drop_widened cs n
  rwa [h] at hdrop

theorem drop_of_front (p cs : List Char) (n : Nat) (h : p <+: cs) (hp : '\n' ∉ p)
    (hn : n = p.length) : (crlf cs).drop n = crlf (cs.drop n) :=
  drop_of_widened cs n (widened_of_front p cs n h hp hn)

/-! Tests at a position. -/

/-- What the next character says is the same, unless it tells the two characters of
a line break apart. -/
theorem next_crlf {α : Type} (f : Option Char → α) (cs : List Char)
    (hf : f (some '\r') = f (some '\n')) : f (crlf cs).head? = f cs.head? := by
  cases cs with
  | nil => rfl
  | cons c cs =>
    by_cases hc : c = '\n'
    · rw [hc]
      exact hf
    · rw [crlf_cons c cs hc]
      rfl

theorem isPrefixOf_crlf (p cs : List Char) (hreturn : '\r' ∉ p) (hfeed : '\n' ∉ p) :
    p.isPrefixOf (crlf cs) = p.isPrefixOf cs := by
  induction p generalizing cs with
  | nil => simp
  | cons d p ih =>
    rw [List.mem_cons, not_or] at hreturn hfeed
    cases cs with
    | nil => rfl
    | cons c cs =>
      by_cases hc : c = '\n'
      · have hd : (d == '\r') = false := beq_false_of_ne (Ne.symm hreturn.1)
        have hd' : (d == '\n') = false := beq_false_of_ne (Ne.symm hfeed.1)
        simp [hc, List.isPrefixOf, hd, hd']
      · rw [crlf_cons c cs hc, List.isPrefixOf, List.isPrefixOf, ih cs hreturn.2 hfeed.2]

theorem sameWord_cons (c d : Char) (a b : List Char) :
    sameWord (c :: a) (d :: b) = (c.toLower == d.toLower && sameWord a b) :=
  rfl

/-- A word without line breaks is found at the start of both texts or of none. -/
theorem sameWord_take_crlf (cs word : List Char) (n : Nat)
    (hreturn : '\r' ∉ word.map Char.toLower) (hfeed : '\n' ∉ word.map Char.toLower) :
    sameWord ((crlf cs).take n) word = sameWord (cs.take n) word := by
  induction n generalizing cs word with
  | zero => rfl
  | succ n ih =>
    cases cs with
    | nil => rfl
    | cons c cs =>
      cases word with
      | nil =>
        obtain ⟨c', cs', hcrlf⟩ := crlf_cons_exists c cs
        rw [hcrlf]
        rfl
      | cons d word =>
        rw [List.map_cons, List.mem_cons, not_or] at hreturn hfeed
        by_cases hc : c = '\n'
        · have hd : ('\r'.toLower == d.toLower) = false := beq_false_of_ne hreturn.1
          have hd' : ('\n'.toLower == d.toLower) = false := beq_false_of_ne hfeed.1
          rw [hc, crlf_feed, List.take_succ_cons, List.take_succ_cons, sameWord_cons,
            sameWord_cons, hd, hd']
          rfl
        · rw [crlf_cons c cs hc, List.take_succ_cons, List.take_succ_cons, sameWord_cons,
            sameWord_cons, ih cs word hreturn.2 hfeed.2]

/-! Searches. -/

theorem takeWhile_crlf (p : Char → Bool) (cs : List Char) (hp : p '\r' = p '\n') :
    (crlf cs).takeWhile p = crlf (cs.takeWhile p) := by
  induction cs with
  | nil => rfl
  | cons c cs ih =>
    by_cases hc : c = '\n'
    · rw [hc, crlf_feed, List.takeWhile_cons, List.takeWhile_cons, List.takeWhile_cons, hp, ih]
      split <;> rfl
    · rw [crlf_cons c cs hc, List.takeWhile_cons, List.takeWhile_cons, ih]
      split
      · rw [crlf_cons c _ hc]
      · rfl

theorem runLength_crlf (p : Char → Bool) (cs : List Char) (hp : p '\r' = p '\n') :
    runLength p (crlf cs) = widened cs (runLength p cs) := by
  rw [runLength, takeWhile_crlf p cs hp, widened, take_runLength]

/-- The first position with a property moves like any other, if the property does
not start to hold between the two characters of a line break. -/
theorem findSuffix?_crlf (p : List Char → Bool) (cs : List Char)
    (hsame : ∀ r, p (crlf r) = p r)
    (hinside : ∀ r, p ('\n' :: crlf r) = true → p ('\r' :: '\n' :: crlf r) = true) :
    findSuffix? p (crlf cs) = (findSuffix? p cs).map (widened cs) := by
  induction cs with
  | nil =>
    cases hfind : findSuffix? p [] with
    | none => simp [hfind]
    | some n =>
      have hn := (findSuffix?_eq_some p [] n hfind).1
      rw [List.length_nil, Nat.le_zero] at hn
      simp [hfind, hn]
  | cons c cs ih =>
    by_cases hc : c = '\n'
    · have hhere := hsame ('\n' :: cs)
      rw [crlf_feed] at hhere
      rw [hc, crlf_feed, findSuffix?_cons, findSuffix?_cons, findSuffix?_cons, hhere]
      by_cases hp : p ('\n' :: cs) = true
      · simp [hp]
      · have hnot : p ('\n' :: crlf cs) = false := by
          rw [Bool.eq_false_iff]
          intro htrue
          exact hp (hhere ▸ hinside cs htrue)
        rw [if_neg hp, if_neg hp, hnot, ih, if_neg Bool.false_ne_true, Option.map_map,
          Option.map_map, Option.map_map]
        congr 1
        funext n
        simp only [Function.comp_apply]
        rw [Nat.add_comm 1 n, widened_feed]
        omega
    · have hhere := hsame (c :: cs)
      rw [crlf_cons c cs hc] at hhere
      rw [crlf_cons c cs hc, findSuffix?_cons, findSuffix?_cons, hhere, ih]
      by_cases hp : p (c :: cs) = true
      · simp [hp]
      · rw [if_neg hp, if_neg hp, Option.map_map, Option.map_map]
        congr 1
        funext n
        simp only [Function.comp_apply]
        rw [Nat.add_comm 1 n, widened_cons c cs n hc, Nat.add_comm]

/-- So does the end of the text, where a search stops that finds nothing. -/
theorem findSuffix?_getD_crlf (p : List Char → Bool) (cs : List Char)
    (hsame : ∀ r, p (crlf r) = p r)
    (hinside : ∀ r, p ('\n' :: crlf r) = true → p ('\r' :: '\n' :: crlf r) = true) :
    (findSuffix? p (crlf cs)).getD (crlf cs).length =
      widened cs ((findSuffix? p cs).getD cs.length) := by
  rw [findSuffix?_crlf p cs hsame hinside]
  cases findSuffix? p cs with
  | none => exact (widened_length cs).symm
  | some n => rfl

/-! Lines and breaks. Here a carriage return of the plain text would matter. -/

theorem endsLine_of_ne (c : Char) (cs : List Char) (hreturn : c ≠ '\r') (hfeed : c ≠ '\n') :
    endsLine c cs = false := by
  simp [endsLine, hreturn, hfeed]

theorem lineAfter_crlf (line : Nat) (cs : List Char) (h : '\r' ∉ cs) :
    lineAfter line (crlf cs) = lineAfter line cs := by
  induction cs generalizing line with
  | nil => rfl
  | cons c cs ih =>
    rw [List.mem_cons, not_or] at h
    by_cases hc : c = '\n'
    · rw [hc, crlf_feed, lineAfter, lineAfter, lineAfter, ih _ h.2]
      rfl
    · rw [crlf_cons c cs hc, lineAfter, lineAfter, endsLine_of_ne c _ (Ne.symm h.1) hc,
        endsLine_of_ne c _ (Ne.symm h.1) hc]
      exact ih line h.2

theorem breakLength_crlf (alone : Char → Bool) (cs : List Char) (h : '\r' ∉ cs)
    (hfeed : alone '\n' = true) :
    breakLength alone (crlf cs) = widened cs (breakLength alone cs) := by
  cases cs with
  | nil => rfl
  | cons c cs =>
    rw [List.mem_cons, not_or] at h
    have hreturn : ¬ (c = '\r' ∧ cs.head? = some '\n') := fun hpair => h.1 hpair.1.symm
    rw [breakLength_cons alone c cs, if_neg hreturn]
    by_cases hc : c = '\n'
    · rw [hc, crlf_feed, breakLength_cons, if_pos ⟨rfl, rfl⟩, if_pos hfeed, widened_feed,
        widened_zero]
    · have hreturn' : ¬ (c = '\r' ∧ (crlf cs).head? = some '\n') := fun hpair => h.1 hpair.1.symm
      rw [crlf_cons c cs hc, breakLength_cons, if_neg hreturn']
      split
      · rw [widened_cons c cs 0 hc, widened_zero]
      · rw [widened_zero]

end Redeclaration.Text
