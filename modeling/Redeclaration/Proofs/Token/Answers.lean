import Redeclaration.Proofs.Token.Progress

/-!
What the loops answer. In every state the answer is made of what has been found and of the
tokens of what is left, read in the mode of the innermost loop. Where a string is read, the
end of its token is searched from its place on, and the text of the token that is passed
already is put before what is found there. Main statement: no turn changes the answer.
-/

namespace Redeclaration.Lexer

open Text

/-! What is found in code is what the lexer reads. -/

/-- The lexeme that starts with the character `c`, by what is found there. -/
def Found.lexeme (r : Reading) (waiting : List Interruption) (c : Char) (cs : List Char) :
    Found → Except Fault Lexeme
  | .token kind n =>
    let last := r.halting && waiting.isEmpty && c == ';'
    .ok ⟨kind, n - 1, if last then .data else .code waiting⟩
  | .string o => stringStart waiting o cs
  | .fault f => .error f

theorem code_eq_lexeme (r : Reading) (waiting : List Interruption) (c : Char) (cs : List Char)
    (hopen : ¬ (c == '{') = true) (hclose : ¬ (c == '}') = true)
    (htag : ¬ startsCloseTag (c :: cs) = true) :
    code r waiting c cs = (find r.member c cs).lexeme r waiting c cs := by
  unfold code find
  rw [if_neg hopen, if_neg hclose, if_neg htag]
  by_cases hblock : ['/', '*'].isPrefixOf (c :: cs) = true
  · have hc : (c == ';') = false := by
      apply beq_false_of_ne
      rintro rfl
      cases hblock
    rw [if_pos hblock, if_pos hblock, blockComment]
    cases findSuffix? ['*', '/'].isPrefixOf (cs.drop 1) with
    | none => rfl
    | some n =>
      have hmore : 2 + n + 2 - 1 = n + 3 := by omega
      dsimp only [Found.lexeme]
      rw [hc, Bool.and_false, hmore]
      rfl
  · rw [if_neg hblock, if_neg hblock]
    cases opening? (c :: cs) with
    | some o => rfl
    | none =>
      dsimp only [Found.lexeme]
      rw [plainLength_eq]
      rfl

theorem find_semicolon (member : Bool) (cs : List Char) :
    find member ';' cs = .token .punct 1 := by
  have hplain : plain member ';' cs = (.punct, 0) := by
    simp [plain, isBlank, startsLineComment, startsAttribute, isLabelStart, operatorRest]
  have hopening : opening? (';' :: cs) = none := rfl
  rw [find, if_neg (by simp), hopening, plainLength_eq, hplain]

namespace State

variable (s : State)

/-! The answer to what is left. -/

/-- What the lexer answers from here on, if what is left starts in a mode. -/
def answerIn (mode : Mode) : Answer :=
  (tokens (s.reading mode) s.rest).map (s.found ++ ·)

theorem answerIn_of_lexeme (mode : Mode) (c : Char) (cs : List Char) (l : Lexeme) (n : Nat)
    (loop : Loop) (hcs : s.rest = c :: cs) (hl : lexeme (s.reading mode) c cs = .ok l)
    (hn : n = l.more + 1) : s.answerIn mode = (s.cut l.kind [] n loop).answerIn l.next := by
  subst hn
  have htext : [] ++ s.rest.take (l.more + 1) = c :: cs.take l.more := by rw [hcs]; rfl
  have hrest : s.rest.drop (l.more + 1) = cs.drop l.more := by rw [hcs]; rfl
  unfold answerIn State.cut
  dsimp only
  rw [htext, hrest, hcs, tokens_step_ok _ c cs l hl]
  show _ = (tokens (advance (s.reading mode) (Lexer.cut (s.reading mode) l c cs) l.next)
    (cs.drop l.more)).map (s.found ++ [Lexer.cut (s.reading mode) l c cs] ++ ·)
  cases tokens (advance (s.reading mode) (Lexer.cut (s.reading mode) l c cs) l.next)
    (cs.drop l.more) <;> simp [Except.map]

theorem answerIn_of_fault (mode : Mode) (c : Char) (cs : List Char) (fault : Fault)
    (hcs : s.rest = c :: cs) (hl : lexeme (s.reading mode) c cs = .error fault) :
    s.answerIn mode = .error ⟨fault, s.line⟩ := by
  rw [answerIn, hcs, tokens_step_error _ c cs fault hl]
  rfl

theorem answerIn_at_end (mode : Mode) (hrest : s.rest = [])
    (hmode : faultAtEnd? mode = none) : s.answerIn mode = .ok s.found := by
  rw [answerIn, hrest, tokens]
  simp [reading, hmode, Except.map]

theorem answerIn_at_end_fault (mode : Mode) (fault : Fault) (hrest : s.rest = [])
    (hmode : faultAtEnd? mode = some fault) : s.answerIn mode = .error ⟨fault, s.line⟩ := by
  rw [answerIn, hrest, tokens]
  simp [reading, hmode, Except.map]

/-- The answer from a string without interpolations, which ends after some characters. -/
def answerAfter (passed : List Char) (waiting : List Interruption) (fault : Fault) :
    Option Nat → Answer
  | some n => (s.cut .stringLiteral passed n (.code waiting)).answerIn (.code waiting)
  | none => .error ⟨fault, s.line⟩

/-- The answer from a fragment, which stops after some characters. -/
def answerFrom (closing : Closing) (passed : List Char) (waiting : List Interruption) :
    FragmentEnd → Answer
  | .closed n => (s.cut .stringLiteral passed n (.code waiting)).answerIn (.code waiting)
  | .interrupted n =>
    if passed = [] ∧ n = 0 then s.answerIn (.string closing waiting)
    else (s.cut .stringLiteral passed n (.code waiting)).answerIn (.string closing waiting)
  | .missing => .error ⟨missingEnd closing, s.line⟩

/-- What the lexer answers from a state on. -/
def answer : Answer :=
  match s.loop with
  | .sections => s.answerIn .html
  | .code waiting => s.answerIn (.code waiting)
  | .single passed waiting =>
    s.answerAfter passed waiting .unterminatedString (singleEnd? 0 s.rest)
  | .nowdoc label lineStart passed waiting =>
    s.answerAfter passed waiting (.unterminatedNowdoc (String.ofList label))
      (nowdocEnd? label lineStart 0 s.rest)
  | .interpolated closing lineStart passed waiting =>
    s.answerFrom closing passed waiting (fragmentEnd closing lineStart 0 s.rest)

/-! Characters that are passed become a part of the token. -/

theorem cut_pass (kind : Kind) (passed : List Char) (k n : Nat) (loop inside : Loop) :
    (s.pass k inside).cut kind (passed ++ s.rest.take k) n loop =
      s.cut kind passed (k + n) loop := by
  unfold pass State.cut
  dsimp only [reading]
  rw [List.append_assoc, ← List.take_add, List.drop_drop]

theorem answerAfter_pass (passed : List Char) (waiting : List Interruption) (fault : Fault)
    (k : Nat) (inside : Loop) (found : Option Nat) :
    (s.pass k inside).answerAfter (passed ++ s.rest.take k) waiting fault found =
      s.answerAfter passed waiting fault (found.map (k + ·)) := by
  cases found with
  | none => rfl
  | some n => rw [answerAfter, cut_pass, Option.map_some, answerAfter]

theorem answerFrom_pass (closing : Closing) (passed : List Char) (waiting : List Interruption)
    (k : Nat) (inside : Loop) (stop : FragmentEnd) (hrest : s.rest ≠ []) (hk : 0 < k) :
    (s.pass k inside).answerFrom closing (passed ++ s.rest.take k) waiting stop =
      s.answerFrom closing passed waiting (stop.map (k + ·)) := by
  cases stop with
  | closed n => rw [answerFrom, cut_pass, FragmentEnd.map, answerFrom]
  | missing => rfl
  | interrupted n =>
    have hne : ¬ (passed ++ s.rest.take k = [] ∧ n = 0) := by
      rintro ⟨hnil, -⟩
      have htake := (List.append_eq_nil_iff.1 hnil).2
      rcases List.take_eq_nil_iff.1 htake with hzero | hnil
      · omega
      · exact hrest hnil
    rw [answerFrom, FragmentEnd.map, answerFrom, if_neg hne, if_neg (by omega), cut_pass]

/-! Strings. -/

theorem single_answer (passed : List Char) (waiting : List Interruption) :
    (s.single passed waiting).value answer =
      s.answerAfter passed waiting .unterminatedString (singleEnd? 0 s.rest) := by
  unfold single
  split
  · rename_i hcs
    rw [hcs]
    rfl
  rename_i c cs hcs
  have hpass (k : Nat) (text : List Char) (htext : text = s.rest.take k) :
      (s.pass k (.single (passed ++ text) waiting)).answer =
        s.answerAfter passed waiting .unterminatedString (singleEnd? k (s.rest.drop k)) := by
    subst htext
    refine (s.answerAfter_pass passed waiting _ k _ _).trans ?_
    rw [← singleEnd?_add]
    rfl
  split
  · rename_i hc
    rw [hcs, singleEnd?_closed 0 c cs hc]
    rfl
  rename_i hc
  split
  · rename_i hback
    refine (hpass 2 (c :: cs.take 1) (by rw [hcs]; rfl)).trans ?_
    rw [hcs, List.drop_succ_cons]
    cases cs with
    | nil => simp [singleEnd?, hc, hback]
    | cons d ds =>
      rw [singleEnd?_escape 0 c d ds hc hback]
      rfl
  · rename_i hback
    refine (hpass 1 [c] (by rw [hcs]; rfl)).trans ?_
    rw [hcs, singleEnd?_plain 0 c cs hc hback]
    rfl

theorem nowdoc_answer (label : List Char) (lineStart : Bool) (passed : List Char)
    (waiting : List Interruption) :
    (s.nowdoc label lineStart passed waiting).value answer =
      s.answerAfter passed waiting (.unterminatedNowdoc (String.ofList label))
        (nowdocEnd? label lineStart 0 s.rest) := by
  unfold nowdoc
  split
  · rename_i n hn
    rw [nowdocEnd?_closed label lineStart 0 _ n hn, Nat.zero_add]
    rfl
  · rename_i hnone hcs
    rw [hcs] at hnone ⊢
    rw [nowdocEnd?_nil label lineStart 0 hnone]
    rfl
  · rename_i c cs hnone hcs
    have htext : [c] = s.rest.take 1 := by rw [hcs]; rfl
    rw [htext]
    refine (s.answerAfter_pass passed waiting _ 1 _ _).trans ?_
    rw [hcs] at hnone
    show s.answerAfter passed waiting _
      ((nowdocEnd? label (endsLine c cs) 0 (s.rest.drop 1)).map (1 + ·)) = _
    rw [← nowdocEnd?_add, hcs, nowdocEnd?_cons label lineStart 0 c cs hnone]
    rfl

/-- What closes a string in the middle of a line closes it anywhere. -/
theorem length?_of_none (closing : Closing) (lineStart : Bool) (cs : List Char)
    (h : closing.length? lineStart cs = none) : closing.length? false cs = none := by
  cases closing with
  | quote mark => exact h
  | heredoc label => rfl

theorem le_of_closed (closing : Closing) (lineStart : Bool) (p n : Nat) (cs : List Char)
    (h : fragmentEnd closing lineStart p cs = .closed n) : p ≤ n := by
  have hadd := fragmentEnd_add closing lineStart p 0 cs
  rw [Nat.add_zero, h] at hadd
  cases hstop : fragmentEnd closing lineStart 0 cs with
  | closed m =>
    rw [hstop] at hadd
    cases hadd
    exact Nat.le_add_right p m
  | interrupted m =>
    rw [hstop] at hadd
    cases hadd
  | missing =>
    rw [hstop] at hadd
    cases hadd

/-- A string in the middle of a line does not close before its next character. -/
theorem pos_of_closed (closing : Closing) (cs : List Char) (n : Nat)
    (h : fragmentEnd closing false 0 cs = .closed n) : 0 < n := by
  cases hmark : closing.length? false cs with
  | some m =>
    rw [fragmentEnd_closed closing false 0 cs m hmark] at h
    cases h
    cases closing with
    | quote mark =>
      simp only [Closing.length?] at hmark
      split at hmark
      · cases hmark
        exact Nat.one_pos
      · cases hmark
    | heredoc label => cases hmark
  | none =>
    -- Whatever comes first is passed, and the count goes on from there.
    cases cs with
    | nil =>
      rw [fragmentEnd_nil closing false 0 hmark] at h
      cases h
    | cons c cs =>
      by_cases hstarts : startsInterpolation (c :: cs) = true
      · rw [fragmentEnd_interrupted closing false 0 c cs hmark hstarts] at h
        cases h
      by_cases hback : (c == '\\') = true
      · cases cs with
        | nil =>
          rw [fragmentEnd_last_escape closing false 0 c hmark hstarts hback] at h
          cases h
        | cons d ds =>
          rw [fragmentEnd_escape closing false 0 c d ds hmark hstarts hback] at h
          split at h
          · exact le_of_closed closing false 1 n _ h
          · exact Nat.one_pos.trans (le_of_closed closing false 2 n _ h)
      · rw [fragmentEnd_plain closing false 0 c cs hmark hstarts hback] at h
        exact le_of_closed closing _ 1 n _ h

/-- A string that goes on behind a fragment or an interpolation. -/
theorem answerFrom_between (closing : Closing) (waiting : List Interruption) :
    s.answerFrom closing [] waiting (fragmentEnd closing false 0 s.rest) =
      s.answerIn (.string closing waiting) := by
  cases hcs : s.rest with
  | nil =>
    have hnone : closing.length? false [] = none := by cases closing <;> rfl
    rw [fragmentEnd_nil closing false 0 hnone, answerFrom,
      s.answerIn_at_end_fault _ (missingEnd closing) hcs rfl]
  | cons c cs =>
    have hlexeme (l : Except Fault Lexeme) (h : stringRest closing waiting c cs = l) :
        lexeme (s.reading (.string closing waiting)) c cs = l := h
    unfold stringRest at hlexeme
    cases hstop : fragmentEnd closing false 0 (c :: cs) with
    | closed n =>
      rw [hstop] at hlexeme
      have hpos := pos_of_closed closing _ n hstop
      exact (s.answerIn_of_lexeme _ c cs _ n _ hcs (hlexeme _ rfl)
        (Nat.sub_add_cancel hpos).symm).symm
    | interrupted n =>
      rw [hstop] at hlexeme
      cases n with
      | zero => simp [answerFrom]
      | succ n =>
        rw [answerFrom, if_neg (by simp)]
        exact (s.answerIn_of_lexeme _ c cs _ (n + 1) _ hcs (hlexeme _ rfl) rfl).symm
    | missing =>
      rw [hstop] at hlexeme
      exact (s.answerIn_of_fault _ c cs _ hcs (hlexeme _ rfl)).symm

theorem interpolated_answer (closing : Closing) (lineStart : Bool) (passed : List Char)
    (waiting : List Interruption) :
    (s.interpolated closing lineStart passed waiting).value answer =
      s.answerFrom closing passed waiting (fragmentEnd closing lineStart 0 s.rest) := by
  unfold interpolated
  split
  · rename_i n hn
    rw [fragmentEnd_closed closing lineStart 0 _ n hn, Nat.zero_add]
    rfl
  · rename_i hnone hcs
    rw [hcs] at hnone ⊢
    rw [fragmentEnd_nil closing lineStart 0 hnone]
    rfl
  rename_i c cs hnone hcs
  have hpass (k : Nat) (lineStart' : Bool) (text : List Char) (htext : text = s.rest.take k)
      (hk : 0 < k) :
      (s.pass k (.interpolated closing lineStart' (passed ++ text) waiting)).answer =
        s.answerFrom closing passed waiting (fragmentEnd closing lineStart' k (s.rest.drop k)) := by
    subst htext
    refine (s.answerFrom_pass closing passed waiting k _ _ ?_ hk).trans ?_
    · rw [hcs]
      exact List.cons_ne_nil c cs
    · rw [← fragmentEnd_add]
      rfl
  rw [hcs] at hnone
  split
  · rename_i hstarts
    -- Nothing is left of the fragment, so the answer is the one at the interpolation.
    have hmark := length?_of_none closing lineStart _ hnone
    have hstop := fragmentEnd_interrupted closing false 0 c cs hmark hstarts
    rw [hcs, fragmentEnd_interrupted closing lineStart 0 c cs hnone hstarts]
    dsimp only
    generalize hs' : (if passed = [] then s else s.cut .stringLiteral passed 0 s.loop) = s'
    have hrest : s'.rest = c :: cs := by
      rw [← hcs, ← hs']
      split <;> rfl
    have hfragment : s.answerFrom closing passed waiting (.interrupted 0) =
        s'.answerIn (.string closing waiting) := by
      rw [answerFrom, ← hs']
      by_cases hpassed : passed = []
      · rw [if_pos ⟨hpassed, rfl⟩, if_pos hpassed]
      · rw [if_neg (fun h => hpassed h.1), if_neg hpassed]
        rfl
    have hlexeme (l : Except Fault Lexeme) (h : stringRest closing waiting c cs = l) :
        lexeme (s'.reading (.string closing waiting)) c cs = l := h
    unfold stringRest at hlexeme
    rw [hstop] at hlexeme
    dsimp only at hlexeme
    rw [hfragment]
    split
    · rename_i hc
      rw [if_pos hc] at hlexeme
      exact (s'.answerIn_of_lexeme _ c cs _ 1 _ hrest (hlexeme _ rfl) rfl).symm
    · rename_i hc
      rw [if_neg hc] at hlexeme
      exact (s'.answerIn_of_lexeme _ c cs _ 2 _ hrest (hlexeme _ rfl) rfl).symm
  rename_i hstarts
  split
  · rename_i hback
    refine (hpass _ false _ (by rw [hcs]) (by split <;> omega)).trans ?_
    rw [hcs]
    cases cs with
    -- A backslash at the end has nothing to escape, and the end is missing behind it.
    | nil =>
      have hend : closing.length? false [] = none := by cases closing <;> rfl
      rw [fragmentEnd_last_escape closing lineStart 0 c hnone hstarts hback]
      exact congrArg _ (fragmentEnd_nil closing false 1 hend)
    | cons d ds =>
      rw [fragmentEnd_escape closing lineStart 0 c d ds hnone hstarts hback, List.head?_cons,
        Option.all_some]
      split <;> rfl
  · rename_i hback
    refine (hpass 1 _ [c] (by rw [hcs]; rfl) Nat.one_pos).trans ?_
    rw [hcs, fragmentEnd_plain closing lineStart 0 c cs hnone hstarts hback]
    rfl

/-! Code. -/

theorem endCode_answer :
    s.endCode.value answer = s.answerIn (if s.halting then .data else .html) := by
  unfold endCode
  split
  · dsimp only
    split
    · rename_i hrest
      exact (s.answerIn_at_end .data hrest rfl).symm
    · rename_i hrest
      obtain ⟨c, cs, hcs⟩ := List.exists_cons_of_ne_nil hrest
      have hlength : s.rest.length = cs.length + 1 := by rw [hcs, List.length_cons]
      have hend : (s.cut .inlineHtml [] s.rest.length .sections).rest = [] :=
        List.drop_length
      rw [s.answerIn_of_lexeme .data c cs ⟨.inlineHtml, cs.length, .data⟩ _ .sections hcs rfl
        hlength]
      exact (answerIn_at_end _ .data hend rfl).symm
  · rfl

theorem endsWith_cut (kind : Kind) (passed : List Char) (n : Nat) (loop : Loop)
    (text : String) :
    (s.cut kind passed n loop).endsWith text =
      (String.ofList (passed ++ s.rest.take n) == text) := by
  simp [endsWith, State.cut]

theorem openBrace_answer (waiting : List Interruption) (cs : List Char)
    (hcs : s.rest = '{' :: cs) : (s.openBrace waiting).value answer =
      s.answerIn (.code waiting) := by
  have hstep := s.answerIn_of_lexeme (.code waiting) '{' cs ⟨.openBrace, 0, enterBrace waiting⟩
    1 (.code waiting) hcs rfl rfl
  rw [hstep]
  cases waiting <;> rfl

theorem closeBrace_answer (waiting : List Interruption) (cs : List Char)
    (hcs : s.rest = '}' :: cs) : (s.closeBrace waiting).value answer =
      s.answerIn (.code waiting) := by
  have hstep := s.answerIn_of_lexeme (.code waiting) '}' cs
    ⟨.closeBrace, 0, leaveBrace waiting⟩ 1 (.code waiting) hcs rfl rfl
  rw [hstep]
  fun_cases closeBrace s waiting with
  | case1 => rfl
  | case2 closing waiting => exact answerFrom_between _ closing waiting
  | case3 => rfl

/-- A string that opens in code goes on after its opening. -/
theorem openString_answer (o : Opening) (waiting : List Interruption) (c : Char)
    (cs : List Char) (hcs : s.rest = c :: cs) (ho : 0 < o.length)
    (hlexeme : lexeme (s.reading (.code waiting)) c cs = stringStart waiting o cs) :
    (s.openString o waiting).answer = s.answerIn (.code waiting) := by
  obtain ⟨k, hk⟩ := Nat.exists_eq_succ_of_ne_zero (Nat.ne_of_gt ho)
  have hbody : s.rest.drop o.length = cs.drop k := by rw [hcs, hk, List.drop_succ_cons]
  have hopened : o.length - 1 = k := by omega
  have hrest : s.rest ≠ [] := by rw [hcs]; exact List.cons_ne_nil c cs
  -- The lexer counts from behind the first character, and the loop from its own place on.
  have hafter (fault : Fault) (found found' : Option Nat)
      (h : lexeme (s.reading (.code waiting)) c cs =
        match found' with
        | some n => .ok ⟨.stringLiteral, n, .code waiting⟩
        | none => .error fault) (hfound : found' = found.map (k + ·)) :
      s.answerAfter [] waiting fault (found.map (o.length + ·)) = s.answerIn (.code waiting) := by
    subst hfound
    cases found with
    | none => exact (s.answerIn_of_fault _ c cs fault hcs h).symm
    | some n => exact (s.answerIn_of_lexeme _ c cs _ _ _ hcs h (by dsimp only; omega)).symm
  unfold stringStart at hlexeme
  simp only [hopened] at hlexeme
  unfold openString
  cases hq : o.quoting with
  | single =>
    rw [hq] at hlexeme
    refine (s.answerAfter_pass [] waiting _ o.length _ _).trans (hafter _ _ _ hlexeme ?_)
    rw [← hbody]
    exact singleEnd?_add k 0 _
  | nowdoc label =>
    rw [hq] at hlexeme
    refine (s.answerAfter_pass [] waiting _ o.length _ _).trans (hafter _ _ _ hlexeme ?_)
    rw [← hbody]
    exact nowdocEnd?_add label true k 0 _
  | interpolated closing =>
    refine (s.answerFrom_pass closing [] waiting o.length _ _ hrest ho).trans ?_
    show s.answerFrom closing [] waiting
      ((fragmentEnd closing true 0 (s.rest.drop o.length)).map (o.length + ·)) = _
    rw [hbody]
    have hstop := fragmentEnd_add closing true k 0 (cs.drop k)
    rw [Nat.add_zero] at hstop
    rw [hq] at hlexeme
    simp only [hstop] at hlexeme
    cases hend : fragmentEnd closing true 0 (cs.drop k) with
    | closed n =>
      rw [hend] at hlexeme
      exact (s.answerIn_of_lexeme _ c cs _ _ _ hcs hlexeme (by dsimp only; omega)).symm
    | interrupted n =>
      rw [hend] at hlexeme
      have hne : ¬ (([] : List Char) = [] ∧ o.length + n = 0) := by omega
      rw [FragmentEnd.map, answerFrom, if_neg hne]
      exact (s.answerIn_of_lexeme _ c cs _ _ _ hcs hlexeme (by dsimp only; omega)).symm
    | missing =>
      rw [hend] at hlexeme
      exact (s.answerIn_of_fault _ c cs _ hcs hlexeme).symm

theorem ne_semicolon (c : Char) (cs : List Char) (n : Nat) (hn : 0 < n) (hc : c ≠ ';') :
    (String.ofList ((c :: cs).take n) == ";") = false := by
  obtain ⟨m, rfl⟩ := Nat.exists_eq_succ_of_ne_zero (Nat.ne_of_gt hn)
  rw [beq_eq_false_iff_ne]
  intro htext
  have hchars := congrArg String.toList htext
  rw [String.toList_ofList, List.take_succ_cons] at hchars
  exact hc (List.cons.inj hchars).1

/-- A token of code, after which the code ends if it is the semicolon that it waits for. -/
theorem token_answer (waiting : List Interruption) (c : Char) (cs : List Char) (kind : Kind)
    (n : Nat) (hcs : s.rest = c :: cs) (hn : 0 < n)
    (hsemicolon : c = ';' → kind = .punct ∧ n = 1)
    (hlexeme : lexeme (s.reading (.code waiting)) c cs = .ok ⟨kind, n - 1,
      if s.halting && waiting.isEmpty && c == ';' then .data else .code waiting⟩) :
    (let s' := s.cut kind [] n (.code waiting)
    if waiting.isEmpty && s'.halting && s'.endsWith ";" then s'.endCode
    else Turn.again s').value answer = s.answerIn (.code waiting) := by
  have hends : (s.cut kind [] n (.code waiting)).endsWith ";" = (c == ';') := by
    rw [endsWith_cut, hcs, List.nil_append]
    by_cases hc : c = ';'
    · rw [hc, (hsemicolon hc).2]
      rfl
    · rw [ne_semicolon c cs n hn hc, beq_false_of_ne hc]
  rw [s.answerIn_of_lexeme _ c cs _ n (.code waiting) hcs hlexeme (Nat.sub_add_cancel hn).symm]
  dsimp only
  rw [hends]
  by_cases hc : c = ';'
  · -- A semicolon asks for nothing itself.
    have hhalting : (s.cut kind [] n (.code waiting)).halting = s.halting := by
      simp [State.cut, advance, requestsHalt, (hsemicolon hc).1, reading]
    rw [hhalting]
    cases hempty : waiting.isEmpty with
    | false =>
      rw [Bool.and_false, Bool.false_and]
      rfl
    | true =>
      cases hhalts : s.halting with
      | false => rfl
      | true =>
        rw [hc]
        refine (endCode_answer _).trans ?_
        rw [hhalting, hhalts]
        rfl
  · rw [beq_false_of_ne hc, Bool.and_false, Bool.and_false]
    rfl

theorem closeTag_answer (waiting : List Interruption) (c : Char) (cs : List Char)
    (hcs : s.rest = c :: cs) (htag : startsCloseTag (c :: cs) = true) :
    (if waiting.isEmpty then
      (s.cut .closeTag [] (closeTagLength (c :: cs)) (.code [])).endCode
    else s.fail (.unexpectedToken "?>")).value answer = s.answerIn (.code waiting) := by
  have hpos := closeTagLength_pos (c :: cs)
  have hlexeme : lexeme (s.reading (.code waiting)) c cs =
      if waiting.isEmpty then
        .ok ⟨.closeTag, closeTagLength (c :: cs) - 1, if s.halting then .data else .html⟩
      else .error (.unexpectedToken "?>") := by
    obtain ⟨rest, hrest⟩ := List.isPrefixOf_iff_prefix.1 htag
    cases hrest
    rfl
  split
  · rename_i hempty
    rw [if_pos hempty] at hlexeme
    have hhalting : (s.cut .closeTag [] (closeTagLength (c :: cs)) (.code [])).halting =
        s.halting := by
      simp [State.cut, advance, requestsHalt, reading]
    rw [endCode_answer, hhalting]
    exact (s.answerIn_of_lexeme _ c cs _ _ (.code []) hcs hlexeme
      (Nat.sub_add_cancel hpos).symm).symm
  · rename_i hempty
    rw [if_neg hempty] at hlexeme
    exact (s.answerIn_of_fault _ c cs _ hcs hlexeme).symm

theorem code_answer (waiting : List Interruption) :
    (s.code waiting).value answer = s.answerIn (.code waiting) := by
  unfold State.code
  split
  · rename_i hcs
    split
    · rename_i hempty
      rw [List.isEmpty_iff.1 hempty, endCode_answer, s.answerIn_at_end (.code []) hcs rfl]
      split <;> exact s.answerIn_at_end _ hcs rfl
    · rename_i hempty
      obtain ⟨i, outer, rfl⟩ := List.exists_cons_of_ne_nil (mt List.isEmpty_iff.2 hempty)
      exact (s.answerIn_at_end_fault (.code (i :: outer)) .unexpectedEnd hcs rfl).symm
  rename_i c cs hcs
  split
  · rename_i hc
    exact s.openBrace_answer waiting cs (by rw [hcs, beq_iff_eq.1 hc])
  rename_i hopen
  split
  · rename_i hc
    exact s.closeBrace_answer waiting cs (by rw [hcs, beq_iff_eq.1 hc])
  rename_i hclose
  split
  · exact s.closeTag_answer waiting c cs hcs ‹_›
  rename_i htag
  -- What is found is what the lexer reads, and it advances.
  have hlexeme : lexeme (s.reading (.code waiting)) c cs =
      (find s.member c cs).lexeme (s.reading (.code waiting)) waiting c cs :=
    code_eq_lexeme (s.reading (.code waiting)) waiting c cs hopen hclose htag
  have hadvances := find_advances s.member c cs
  split
  · rename_i fault hfind
    rw [hfind] at hlexeme
    exact (s.answerIn_of_fault _ c cs fault hcs hlexeme).symm
  · rename_i o hfind
    rw [hfind] at hlexeme hadvances
    exact s.openString_answer o waiting c cs hcs hadvances.pos hlexeme
  · rename_i kind n hfind
    rw [hfind] at hlexeme hadvances
    refine s.token_answer waiting c cs kind n hcs hadvances.pos ?_ hlexeme
    rintro rfl
    rw [find_semicolon] at hfind
    cases hfind
    exact ⟨rfl, rfl⟩

/-! Sections. -/

theorem drop_htmlLength (cs : List Char) :
    cs.drop (htmlLength cs) = [] ∨ startsOpenTag (cs.drop (htmlLength cs)) = true := by
  unfold htmlLength
  cases hfind : findSuffix? startsOpenTag cs with
  | none =>
    left
    rw [Option.getD_none, List.drop_length]
  | some n =>
    right
    exact (findSuffix?_eq_some _ cs n hfind).2.1

theorem text_answer (loop : Loop) (hn : htmlLength s.rest ≠ 0) :
    (s.cut .inlineHtml [] (htmlLength s.rest) loop).answerIn .html = s.answerIn .html := by
  cases hcs : s.rest with
  | nil =>
    rw [hcs] at hn
    exact absurd rfl hn
  | cons c cs =>
    rw [hcs] at hn
    have htag : startsOpenTag (c :: cs) = false := by
      rw [Bool.eq_false_iff]
      intro htag
      rw [htmlLength, findSuffix?_cons, if_pos htag] at hn
      exact hn rfl
    have hhtml : html c cs = ⟨.inlineHtml, htmlLength cs, .html⟩ := by
      rw [html, htag, if_neg Bool.false_ne_true]
    exact (s.answerIn_of_lexeme .html c cs _ _ _ hcs (congrArg Except.ok hhtml)
      (htmlLength_cons c cs htag)).symm

theorem sections_answer : s.sections.value answer = s.answerIn .html := by
  unfold sections
  dsimp only
  generalize hs' : (if htmlLength s.rest = 0 then s
    else s.cut .inlineHtml [] (htmlLength s.rest) .sections) = s'
  have hanswer : s'.answerIn .html = s.answerIn .html := by
    rw [← hs']
    split
    · rfl
    · exact s.text_answer .sections ‹_›
  have hrest : s'.rest = s.rest.drop (htmlLength s.rest) := by
    rw [← hs']
    split
    · rename_i hzero
      rw [hzero, List.drop_zero]
    · rfl
  rw [← hanswer]
  split
  · rename_i hend
    exact (s'.answerIn_at_end .html hend rfl).symm
  · rename_i hend
    obtain ⟨c, cs, hcs⟩ := List.exists_cons_of_ne_nil hend
    have htag : startsOpenTag (c :: cs) = true := by
      rw [← hcs, hrest]
      rw [hrest] at hend
      exact (drop_htmlLength s.rest).resolve_left hend
    have hhtml : html c cs = ⟨.openTag, openTagLength (c :: cs) - 1, .code []⟩ := by
      rw [html, if_pos htag]
    have hpos := openTagLength_pos (c :: cs)
    rw [hcs]
    exact (s'.answerIn_of_lexeme .html c cs _ _ _ hcs (congrArg Except.ok hhtml)
      (Nat.sub_add_cancel hpos).symm).symm

/-- No turn changes what the lexer answers. -/
theorem turn_answer : s.turn.value answer = s.answer := by
  cases hl : s.loop with
  | sections =>
    have ha : s.answer = s.answerIn .html := by rw [answer, hl]
    rw [turn, hl, ha]
    exact s.sections_answer
  | code waiting =>
    have ha : s.answer = s.answerIn (.code waiting) := by rw [answer, hl]
    rw [turn, hl, ha]
    exact s.code_answer waiting
  | single passed waiting =>
    rw [turn, hl]
    refine (s.single_answer passed waiting).trans ?_
    rw [answer, hl]
  | nowdoc label lineStart passed waiting =>
    rw [turn, hl]
    refine (s.nowdoc_answer label lineStart passed waiting).trans ?_
    rw [answer, hl]
  | interpolated closing lineStart passed waiting =>
    rw [turn, hl]
    refine (s.interpolated_answer closing lineStart passed waiting).trans ?_
    rw [answer, hl]

/-- At the start of a source nothing is found yet, and all of it is left. -/
theorem answer_start (cs : List Char) : ({ rest := cs } : State).answer = tokens {} cs := by
  show (tokens {} cs).map ([] ++ ·) = _
  cases tokens {} cs <;> rfl

end State

end Redeclaration.Lexer
