import Redeclaration.Proofs.Declaration.Body

/-!
Brace levels and open brackets. The scan counts braces, and the check of the
brackets keeps the open ones of all kinds. Main statement: after each token of a
source, the level of the scan is the number of braces among the open brackets.
-/

namespace Redeclaration

open Outline

/-- What a token does to the open brackets, it does to their braces. -/
theorem count_bracketsAfter? (t : Token) (pending later : List Bracket)
    (h : t.bracketsAfter? pending = some later) :
    (later.count .brace : Int) = pending.count .brace + braces [t] := by
  unfold Token.bracketsAfter? at h
  cases ho : t.opens? with
  | some b =>
    simp only [ho, Option.some.injEq] at h
    rw [← h, braces_of_opens? t b ho, List.count_cons]
    cases b <;> simp
  | none =>
    cases hc : t.closes? with
    | none =>
      simp only [ho, hc, Option.some.injEq] at h
      rw [← h, braces_of_not_isBracket t ho hc, Int.add_zero]
    | some b =>
      -- The token closes the innermost bracket, so that was of its kind.
      simp only [ho, hc] at h
      split at h
      · rename_i hhead
        obtain ⟨rest, rfl⟩ := List.head?_eq_some_iff.1 hhead
        simp only [List.tail_cons, Option.some.injEq] at h
        have hcount := braces_of_closes? t b hc
        rw [← h, List.count_cons]
        cases b with
        | brace =>
          simp only [if_true] at hcount
          simp only [beq_self_eq_true, if_true]
          omega
        | paren | square => simp [hcount]
      · cases h

theorem count_openBrackets? (ts : List Token) (pending later : List Bracket)
    (h : openBrackets? pending ts = some later) :
    (later.count .brace : Int) = pending.count .brace + braces ts := by
  induction ts generalizing pending with
  | nil =>
    cases h
    exact (Int.add_zero _).symm
  | cons t ts ih =>
    rw [openBrackets?, List.foldlM_cons] at h
    obtain ⟨next, hnext, hrest⟩ := Option.bind_eq_some_iff.1 h
    have hstep := count_bracketsAfter? t pending next hnext
    have hlater := ih next hrest
    have hbraces := braces_cons t ts
    omega

/-- After each token of a source, the brace level of the scan is the number of braces
among the brackets from which the check of the rest goes on. So the level is never
negative, and it is zero after the last token. -/
theorem tokenize_levels (source : String) (pre post : List Token)
    (h : tokenize source = .ok (pre ++ post)) :
    ∃ pending, openBrackets? [] pre = some pending ∧
      (∀ line us, checkBrackets line [] (pre ++ us) = checkBrackets line pending us) ∧
      (Scan.after {} pre).level = pending.count .brace ∧
      0 ≤ (Scan.after {} pre).level ∧
      (post = [] → (Scan.after {} pre).level = 0) := by
  have hcheck := checkBrackets_of_tokenize source _ h
  obtain ⟨pending, hpending⟩ := exists_openBrackets? _ [] pre post hcheck
  have hgoes (line : Nat) (us : List Token) :
      checkBrackets line [] (pre ++ us) = checkBrackets line pending us :=
    checkBrackets_of_openBrackets? line [] pending pre us hpending
  have hlevel : (Scan.after {} pre).level = pending.count .brace := by
    rw [Scan.level_after, count_openBrackets? pre [] pending hpending]
    rfl
  refine ⟨pending, hpending, hgoes, hlevel, ?_, ?_⟩
  · rw [hlevel]
    exact Int.natCast_nonneg _
  · rintro rfl
    -- At the end of the list, the check accepts no open bracket.
    rw [hgoes] at hcheck
    have hnone : pending = [] := by
      cases pending with
      | nil => rfl
      | cons b pending => cases hcheck
    rw [hlevel, hnone]
    rfl

theorem tokenize_levels_interpolation :
    ∃ pre post pending,
      tokenize "<?php if(1)\x7b\"\x7b$a[$\x7bb\x7d]\x7d\";\x7d" = .ok (pre ++ post) ∧
      pending = [.brace, .square, .brace, .brace] ∧
      openBrackets? [] pre = some pending ∧
      (Scan.after {} pre).level = pending.count .brace := by
  have h : tokenize "<?php if(1)\x7b\"\x7b$a[$\x7bb\x7d]\x7d\";\x7d" = .ok
      ([⟨.openTag, "<?php ", 1⟩, ⟨.reserved, "if", 1⟩, ⟨.punct, "(", 1⟩, ⟨.number, "1", 1⟩,
        ⟨.punct, ")", 1⟩, ⟨.openBrace, "\x7b", 1⟩, ⟨.stringLiteral, "\"", 1⟩,
        ⟨.curlyOpen, "\x7b", 1⟩, ⟨.variableName, "$a", 1⟩, ⟨.punct, "[", 1⟩, ⟨.punct, "$", 1⟩,
        ⟨.openBrace, "\x7b", 1⟩] ++
        [⟨.name, "b", 1⟩, ⟨.closeBrace, "\x7d", 1⟩, ⟨.punct, "]", 1⟩, ⟨.closeBrace, "\x7d", 1⟩,
          ⟨.stringLiteral, "\"", 1⟩, ⟨.punct, ";", 1⟩, ⟨.closeBrace, "\x7d", 1⟩]) :=
    tokenize_eq_ok _ _ (by decide +kernel)
  obtain ⟨pending, hpending, -, hlevel, -, -⟩ := tokenize_levels _ _ _ h
  refine ⟨_, _, pending, h, ?_, hpending, hlevel⟩
  have hopen : some pending = some [.brace, .square, .brace, .brace] := by
    rw [← hpending]
    decide
  exact Option.some.inj hopen

end Redeclaration
