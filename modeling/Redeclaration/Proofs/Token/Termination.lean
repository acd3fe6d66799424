import Redeclaration.Proofs.Token.Answers

/-!
The lexer comes to its end. The searches for trivia and for tags are loops too, which answer
what the functions of the lexer answer, and all that is left is to put the loops, their
progress and their answers together. Main statement: on every source each loop, each search
and the lexer as a whole terminate, and the run of the lexer answers what it tokenizes to.
-/

namespace Redeclaration

namespace Lexer

open Text

/-! The answers of the searches. -/

/-- A piece of trivia is passed, or there is none. -/
theorem triviaTurn_value (cs : List Char) : (triviaTurn cs).value dropTrivia = dropTrivia cs := by
  have hpass (n : Nat) (hn : triviaLength cs = n) (hpos : n ≠ 0) :
      dropTrivia (cs.drop n) = dropTrivia cs := by
    subst hn
    exact (dropTrivia_of_ne_zero cs hpos).symm
  have hstay (hn : triviaLength cs = 0) : cs = dropTrivia cs := (dropTrivia_of_zero cs hn).symm
  unfold triviaTurn
  split
  · exact dropTrivia_dropWhile cs
  rename_i hblank
  have hlength := triviaLength.eq_def cs
  rw [if_neg hblank] at hlength
  split
  · rename_i hblock
    rw [if_pos hblock] at hlength
    split
    · rename_i n hn
      rw [hn] at hlength
      exact hpass (n + 4) hlength (Nat.succ_ne_zero _)
    · rename_i hn
      rw [hn] at hlength
      exact hstay hlength
  rename_i hblock
  rw [if_neg hblock] at hlength
  split
  · rename_i hline
    obtain ⟨hrun, hpos⟩ := triviaLength_comment cs hline
    rw [← drop_runLength]
    exact hpass _ hrun (hrun ▸ hpos)
  · rename_i hline
    rw [if_neg hline] at hlength
    exact hstay hlength

/-- The text from the next opening tag on. -/
def openTag? (cs : List Char) : Option (List Char) :=
  (findSuffix? startsOpenTag cs).map cs.drop

theorem openTag?_cons (c : Char) (cs : List Char) (h : startsOpenTag (c :: cs) = false) :
    openTag? (c :: cs) = openTag? cs := by
  unfold openTag?
  rw [findSuffix?_cons, h, if_neg Bool.false_ne_true, Option.map_map]
  congr 1
  funext n
  simp [Nat.add_comm 1 n]

theorem openTag?_drop (cs : List Char) (n : Nat)
    (h : ∀ m < n, startsOpenTag (cs.drop m) = false) : openTag? (cs.drop n) = openTag? cs := by
  induction n generalizing cs with
  | zero => rw [List.drop_zero]
  | succ n ih =>
    cases cs with
    | nil => rw [List.drop_nil]
    | cons c cs =>
      rw [openTag?_cons c cs (h 0 (Nat.succ_pos n)), List.drop_succ_cons]
      exact ih cs fun m hm => h (m + 1) (Nat.succ_lt_succ hm)

theorem openTag?_of_starts (cs : List Char) (h : startsOpenTag cs = true) :
    openTag? cs = some cs := by
  cases cs with
  | nil => cases h
  | cons c cs => rw [openTag?, findSuffix?_cons, if_pos h, Option.map_some, List.drop_zero]

theorem angle_of_startsOpenTag (cs : List Char) (h : startsOpenTag cs = true) :
    ['<', '?'].isPrefixOf cs = true := by
  rw [startsOpenTag, Bool.or_eq_true] at h
  rcases h with h | h
  · obtain ⟨rest, rfl⟩ := List.isPrefixOf_iff_prefix.1 h
    rfl
  · rw [startsLongTag, Bool.and_eq_true, Bool.and_eq_true] at h
    exact h.1.1

/-- An angle and a question mark that open no tag are passed together: no tag opens with the
question mark. -/
theorem tagTurn_value (cs : List Char) : (tagTurn cs).value openTag? = openTag? cs := by
  have hnot (ds : List Char) (h : ['<', '?'].isPrefixOf ds = false) : startsOpenTag ds = false := by
    rw [Bool.eq_false_iff]
    intro htag
    rw [angle_of_startsOpenTag ds htag] at h
    cases h
  unfold tagTurn
  split
  · rename_i hnone
    have hmissed : findSuffix? startsOpenTag cs = none := by
      apply Option.eq_none_iff_forall_ne_some.2
      intro n hn
      obtain ⟨hle, htag, -⟩ := findSuffix?_eq_some _ cs n hn
      rw [hnot _ (findSuffix?_eq_none _ cs hnone n hle)] at htag
      cases htag
    rw [openTag?, hmissed]
    rfl
  · rename_i n hn
    obtain ⟨-, hangle, hbefore⟩ := findSuffix?_eq_some _ cs n hn
    split
    · rename_i htag
      rw [← openTag?_drop cs n fun m hm => hnot _ (hbefore m hm), openTag?_of_starts _ htag]
      rfl
    · rename_i htag
      refine openTag?_drop cs (n + 2) fun m hm => ?_
      obtain hlt | rfl | rfl : m < n ∨ m = n ∨ m = n + 1 := by omega
      · exact hnot _ (hbefore m hlt)
      · exact Bool.eq_false_iff.2 htag
      · obtain ⟨rest, hrest⟩ := List.isPrefixOf_iff_prefix.1 hangle
        rw [← List.drop_drop, ← hrest]
        rfl

end Lexer

open Lexer

/-- Whatever the source, the loops of the lexer and of its searches come to their ends: each
iteration is the last one or leads further on, and so does each call, the one of a string for
the code of an interpolation among them. The run over the whole source takes at most two turns
for each character and one more, and what it answers is what the tokens are made of. -/
theorem tokenize_terminates :
    Terminates State.turn State.rest ∧
    (∀ s t closing lineStart passed waiting,
      s.loop = .interpolated closing lineStart passed waiting → Calls State.turn s t →
        t.loop = .code (⟨closing, 0⟩ :: waiting) ∧ Ahead s.rest t.rest) ∧
    (∀ member c cs, (find member c cs).Advances (c :: cs)) ∧
    (Terminates triviaTurn id ∧ ∀ cs, ∃ n ≤ 2 * cs.length + 1,
      Runs triviaTurn cs n (.finished (dropTrivia cs))) ∧
    (Terminates tagTurn id ∧ ∀ cs, ∃ n ≤ 2 * cs.length + 1,
      Runs tagTurn cs n (.finished (openTag? cs))) ∧
    ∀ source : String,
      (∃ n ≤ 2 * source.length + 1,
        Runs State.turn { rest := source.toList } n (.finished (tokens {} source.toList))) ∧
      tokenize source = (tokens {} source.toList).bind fun ts =>
        (checkBrackets (endLine ts) [] ts).map fun _ => ts := by
  have hturn := terminates_of_progresses State.turn_progresses
  refine ⟨hturn, ?_, find_advances, ⟨terminates_of_progresses triviaTurn_progresses, ?_⟩,
    ⟨terminates_of_progresses tagTurn_progresses, ?_⟩, ?_⟩
  · intro s t closing lineStart passed waiting hs hcalls
    exact ⟨code_of_calls hs hcalls, hturn.calls s t hcalls⟩
  · intro cs
    exact runs_of_outermost triviaTurn_progresses triviaTurn_value cs rfl
  · intro cs
    exact runs_of_outermost tagTurn_progresses tagTurn_value cs rfl
  · intro source
    obtain ⟨n, hn, hruns⟩ := runs_of_outermost State.turn_progresses State.turn_answer
      { rest := source.toList } rfl
    rw [State.answer_start] at hruns
    have hlength : source.toList.length = source.length := String.length_toList
    refine ⟨⟨n, hlength ▸ hn, hruns⟩, ?_⟩
    unfold tokenize
    cases tokens {} source.toList with
    | error e => rfl
    | ok ts =>
      show (checkBrackets (endLine ts) [] ts >>= fun _ => pure ts) =
        (checkBrackets (endLine ts) [] ts).map fun _ => ts
      cases checkBrackets (endLine ts) [] ts <;> rfl

/-- A source that stops within a string, which is within an interpolation of another one. -/
theorem tokenize_terminates_unfinished :
    (∃ s t : State, s.loop = .interpolated (.quote '"') true ['"'] [] ∧ Calls State.turn s t ∧
      t.loop = .code [⟨.quote '"', 0⟩] ∧ Ahead s.rest t.rest) ∧
    tokenize "<?php \"\x7b$a['" = .error ⟨.unterminatedString, 1⟩ ∧
    ∃ n ≤ 25, Runs State.turn { rest := "<?php \"\x7b$a['".toList } n
      (.finished (.error ⟨.unterminatedString, 1⟩)) := by
  obtain ⟨-, hcode, -, -, -, hsource⟩ := tokenize_terminates
  obtain ⟨hruns, hanswer⟩ := hsource "<?php \"\x7b$a['"
  have htokens : tokens {} "<?php \"\x7b$a['".toList = .error ⟨.unterminatedString, 1⟩ := by
    cbv
  rw [htokens] at hruns hanswer
  refine ⟨?_, hanswer, hruns⟩
  let s : State :=
    { loop := .interpolated (.quote '"') true ['"'] [], rest := ['\x7b', '$', 'a', '[', '\''] }
  obtain ⟨t, ht⟩ : ∃ t, s.turn = .enter t := ⟨_, rfl⟩
  have hcalls : Calls State.turn s t := ⟨s, .refl, ht⟩
  exact ⟨s, t, rfl, hcalls, hcode s t _ _ _ _ rfl hcalls⟩

end Redeclaration
