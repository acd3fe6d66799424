import Redeclaration.Proofs.Token.Loops

/-!
The progress of the loops. Whatever is read has a positive length, so a turn that stays in its
loop or calls another one moves on in the text, and a loop that is left gives way to the one
that has called it. Main statement: no turn of the lexer stays where it is or goes back.
-/

namespace Redeclaration.Lexer

open Text

theorem nameEnd_cons (c : Char) (cs : List Char) (h : isLabelStart c = true) :
    nameEnd 0 (c :: cs) = nameEnd 0 cs + 1 := by
  have hstep : nameEnd 0 (c :: cs) = nameEnd 1 cs := by simp [nameEnd, isLabelChar, h]
  rw [hstep, nameEnd_eq, Nat.add_comm]

theorem head_of_startsLineComment (c : Char) (cs : List Char)
    (h : startsLineComment (c :: cs) = true) : c = '/' ∨ c = '#' := by
  rw [startsLineComment, Bool.or_eq_true, Bool.and_eq_true] at h
  rcases h with h | ⟨h, -⟩
  · obtain ⟨rest, hrest⟩ := List.isPrefixOf_iff_prefix.1 h
    cases hrest
    exact .inl rfl
  · obtain ⟨rest, hrest⟩ := List.isPrefixOf_iff_prefix.1 h
    cases hrest
    exact .inr rfl

theorem operatorLength_cons (c : Char) (cs : List Char) :
    operatorLength (c :: cs) = operatorRest c cs + 1 := by
  unfold operatorLength operatorRest
  split_ifs <;> rfl

theorem digitsLength_pos (c : Char) (cs : List Char) (h : c.isDigit = true) :
    0 < digitsLength (c :: cs) := by
  rw [digitsLength, runLength_cons _ c cs (by rw [h, Bool.true_or])]
  exact Nat.succ_pos _

/-- A number starts with a digit, or with a point before one, which is its fraction. -/
theorem decimalLength_pos (c : Char) (cs : List Char)
    (h : (c.isDigit || (c == '.' && cs.head?.any Char.isDigit)) = true) :
    0 < decimalLength (c :: cs) := by
  rw [Bool.or_eq_true, Bool.and_eq_true, beq_iff_eq, Option.any_eq_true] at h
  rcases h with h | ⟨rfl, d, hd, hdigit⟩
  · have hpos := digitsLength_pos c cs h
    unfold decimalLength
    dsimp only
    omega
  · have hwhole : digitsLength ('.' :: cs) = 0 := rfl
    have hpoint : d ≠ '.' := by
      rintro rfl
      cases hdigit
    have hfraction : fractionLength ('.' :: cs) = 1 + digitsLength cs := by
      simp [fractionLength, hd, hpoint]
    -- Nothing stands before the point, so what moves on is the fraction.
    unfold decimalLength
    dsimp only
    rw [hwhole, List.drop_zero, hfraction]
    omega

theorem numberLength_pos (c : Char) (cs : List Char)
    (h : (c.isDigit || (c == '.' && cs.head?.any Char.isDigit)) = true) :
    0 < numberLength (c :: cs) := by
  cases cs with
  | nil => exact decimalLength_pos c [] h
  | cons d ds =>
    rw [numberLength]
    split
    · omega
    · exact decimalLength_pos c (d :: ds) h

theorem plainLength_eq (member : Bool) (c : Char) (cs : List Char) :
    plainLength member c cs = ((plain member c cs).1, (plain member c cs).2 + 1) := by
  unfold plainLength plain
  split
  · rw [runLength_cons isBlank c cs ‹_›]
  split
  · rename_i hline
    -- A comment does not end at the character that starts it.
    have hends : Region.endsLineComment (c :: cs) = false := by
      rcases head_of_startsLineComment c cs hline with rfl | rfl <;> rfl
    rw [findSuffix?_getD_cons _ c cs hends]
    rfl
  split
  · rw [Nat.add_comm]
  split
  · rename_i hnumber
    have hpos := numberLength_pos c cs hnumber
    rw [Nat.sub_add_cancel hpos]
  split
  · rw [Nat.add_comm]
  split
  · rename_i hstart
    dsimp only
    rw [nameEnd_cons c cs hstart, List.take_succ_cons, List.drop_succ_cons]
  · rw [operatorLength_cons]

/-- What is found at a character reaches over it. -/
def Found.Advances (text : List Char) : Found → Prop
  | .token _ n => Ahead text (text.drop n)
  | .string o => Ahead text (text.drop o.length)
  | .fault _ => True

theorem find_advances (member : Bool) (c : Char) (cs : List Char) :
    (find member c cs).Advances (c :: cs) := by
  unfold find
  split
  · split
    · trivial
    · exact ahead_drop c cs _ (by omega)
  split
  · rename_i o ho
    exact ahead_drop c cs _ (opening?_sound _ o ho).2
  · refine ahead_drop c cs _ ?_
    rw [plainLength_eq]
    exact Nat.succ_pos _

/-! No loop stays where it is. -/

namespace State

def depth (s : State) : Nat :=
  s.loop.depth

variable (s : State)

theorem cut_suffix (kind : Kind) (passed : List Char) (n : Nat) (loop : Loop) :
    (s.cut kind passed n loop).rest <:+ s.rest :=
  List.drop_suffix n s.rest

theorem cut_ahead (kind : Kind) (passed : List Char) (n : Nat) (loop : Loop)
    (hrest : s.rest ≠ []) (hn : 0 < n) : Ahead s.rest (s.cut kind passed n loop).rest := by
  obtain ⟨c, cs, hcs⟩ := List.exists_cons_of_ne_nil hrest
  unfold cut
  dsimp only
  rw [hcs]
  exact ahead_drop c cs n hn

theorem sections_progresses (hs : s.loop = .sections) :
    s.sections.Progresses State.rest depth s := by
  unfold sections
  dsimp only
  generalize hs' : (if htmlLength s.rest = 0 then s
    else s.cut .inlineHtml [] (htmlLength s.rest) .sections) = s'
  have hsuffix : s'.rest <:+ s.rest := by
    rw [← hs']
    split
    · exact List.suffix_rfl
    · exact s.cut_suffix ..
  split
  · trivial
  · rename_i hrest
    refine ⟨.of_suffix hsuffix (s'.cut_ahead _ _ _ _ hrest (openTagLength_pos _)), ?_⟩
    rw [depth, depth, hs]
    rfl

/-- The code of a section ends one loop above. -/
theorem endCode_progresses (s' : State) (hrest : s'.rest <:+ s.rest) (hs : s.depth = 1) :
    s'.endCode.Progresses State.rest depth s := by
  unfold endCode
  split
  · trivial
  · exact ⟨hrest, hs.symm⟩

/-- A brace inside of code moves on by one character. -/
theorem brace_progresses (kind : Kind) (loop : Loop) (hrest : s.rest ≠ [])
    (hloop : loop.depth = s.depth) :
    (Turn.again (s.cut kind [] 1 loop) : Turn State Answer).Progresses State.rest depth s :=
  ⟨s.cut_ahead _ _ _ _ hrest Nat.one_pos, hloop⟩

theorem openBrace_progresses (waiting : List Interruption) (hs : s.loop = .code waiting)
    (hrest : s.rest ≠ []) : (s.openBrace waiting).Progresses State.rest depth s := by
  cases waiting with
  | nil => exact s.brace_progresses _ _ hrest (by rw [depth, hs])
  | cons i waiting => exact s.brace_progresses _ _ hrest (by rw [depth, hs]; rfl)

theorem closeBrace_progresses (waiting : List Interruption) (hs : s.loop = .code waiting)
    (hrest : s.rest ≠ []) : (s.closeBrace waiting).Progresses State.rest depth s := by
  fun_cases closeBrace s waiting with
  | case1 => exact s.brace_progresses _ _ hrest (by rw [depth, hs])
  | case2 closing waiting => exact ⟨s.cut_suffix .., by rw [depth, depth, hs]; rfl⟩
  | case3 closing depth' waiting => exact s.brace_progresses _ _ hrest (by rw [depth, hs]; rfl)

theorem openString_depth (o : Opening) (waiting : List Interruption) :
    (s.openString o waiting).depth = 2 * waiting.length + 2 := by
  unfold openString
  cases o.quoting <;> rfl

theorem code_progresses (waiting : List Interruption) (hs : s.loop = .code waiting) :
    (s.code waiting).Progresses State.rest depth s := by
  have hdepth : s.depth = 2 * waiting.length + 1 := by rw [depth, hs]; rfl
  -- Only the code of a section, which no string waits for, ends by itself.
  have hsection (hw : waiting.isEmpty = true) : s.depth = 1 := by
    rw [hdepth, List.isEmpty_iff.1 hw]
    rfl
  unfold code
  split
  · split
    · exact s.endCode_progresses s List.suffix_rfl (hsection ‹_›)
    · trivial
  rename_i c cs hcs
  have hrest : s.rest ≠ [] := by rw [hcs]; exact List.cons_ne_nil c cs
  split
  · exact s.openBrace_progresses waiting hs hrest
  split
  · exact s.closeBrace_progresses waiting hs hrest
  split
  · split
    · exact s.endCode_progresses _ (s.cut_suffix ..) (hsection ‹_›)
    · trivial
  have hfind := find_advances s.member c cs
  rw [← hcs] at hfind
  split
  · trivial
  · rename_i o ho
    rw [ho] at hfind
    exact ⟨hfind, by rw [openString_depth, hdepth]⟩
  · rename_i kind n hn
    rw [hn] at hfind
    dsimp only
    split
    · rename_i hlast
      simp only [Bool.and_eq_true] at hlast
      exact s.endCode_progresses _ (s.cut_suffix ..) (hsection hlast.1.1)
    · exact ⟨hfind, by rw [hdepth]; rfl⟩

theorem pass_ahead (c : Char) (cs : List Char) (n : Nat) (loop : Loop) (hcs : s.rest = c :: cs)
    (hn : 0 < n) : Ahead s.rest (s.pass n loop).rest := by
  unfold pass
  dsimp only
  rw [hcs]
  exact ahead_drop c cs n hn

theorem single_progresses (passed : List Char) (waiting : List Interruption)
    (hs : s.loop = .single passed waiting) :
    (s.single passed waiting).Progresses State.rest depth s := by
  have hdepth : s.depth = 2 * waiting.length + 2 := by rw [depth, hs]; rfl
  unfold single
  split
  · trivial
  rename_i c cs hcs
  split
  · exact ⟨s.cut_suffix .., hdepth.symm⟩
  split
  · exact ⟨s.pass_ahead c cs 2 _ hcs Nat.two_pos, hdepth.symm⟩
  · exact ⟨s.pass_ahead c cs 1 _ hcs Nat.one_pos, hdepth.symm⟩

theorem nowdoc_progresses (label : List Char) (lineStart : Bool) (passed : List Char)
    (waiting : List Interruption) (hs : s.loop = .nowdoc label lineStart passed waiting) :
    (s.nowdoc label lineStart passed waiting).Progresses State.rest depth s := by
  have hdepth : s.depth = 2 * waiting.length + 2 := by rw [depth, hs]; rfl
  unfold nowdoc
  split
  · exact ⟨s.cut_suffix .., hdepth.symm⟩
  · trivial
  · rename_i c cs _ hcs
    exact ⟨s.pass_ahead c cs 1 _ hcs Nat.one_pos, hdepth.symm⟩

theorem interpolated_progresses (closing : Closing) (lineStart : Bool) (passed : List Char)
    (waiting : List Interruption)
    (hs : s.loop = .interpolated closing lineStart passed waiting) :
    (s.interpolated closing lineStart passed waiting).Progresses State.rest depth s := by
  have hdepth : s.depth = 2 * waiting.length + 2 := by rw [depth, hs]; rfl
  unfold interpolated
  split
  · exact ⟨s.cut_suffix .., hdepth.symm⟩
  · trivial
  rename_i c cs _ hcs
  split
  · dsimp only
    generalize hs' : (if passed = [] then s else s.cut .stringLiteral passed 0 s.loop) = s'
    have hrest : s'.rest = c :: cs := by
      rw [← hcs, ← hs']
      split <;> rfl
    -- The fragment before the interpolation may be empty, but its opening is not.
    have hinside : 2 * (waiting.length + 1) + 1 = s.depth + 1 := by omega
    rw [Turn.Progresses, hcs, ← hrest]
    have hne : s'.rest ≠ [] := by rw [hrest]; exact List.cons_ne_nil c cs
    split
    · exact ⟨s'.cut_ahead _ _ _ _ hne Nat.one_pos, hinside⟩
    · exact ⟨s'.cut_ahead _ _ _ _ hne Nat.two_pos, hinside⟩
  split
  · refine ⟨s.pass_ahead c cs _ _ hcs ?_, hdepth.symm⟩
    split <;> omega
  · exact ⟨s.pass_ahead c cs 1 _ hcs Nat.one_pos, hdepth.symm⟩

theorem turn_progresses : s.turn.Progresses State.rest depth s := by
  unfold turn
  split
  · exact s.sections_progresses ‹_›
  · exact s.code_progresses _ ‹_›
  · exact s.single_progresses _ _ ‹_›
  · exact s.nowdoc_progresses _ _ _ _ ‹_›
  · exact s.interpolated_progresses _ _ _ _ ‹_›

end State

theorem ahead_dropWhile (p : Char → Bool) (c : Char) (cs : List Char) (h : p c = true) :
    Ahead (c :: cs) ((c :: cs).dropWhile p) := by
  rw [← drop_runLength, runLength_cons p c cs h]
  exact ahead_drop c cs _ (Nat.succ_pos _)

theorem triviaTurn_progresses (cs : List Char) :
    (triviaTurn cs).Progresses id (fun _ => 0) cs := by
  unfold triviaTurn
  split
  · rename_i hblank
    obtain ⟨c, hc, hblank⟩ := (Option.any_eq_true _ _).1 hblank
    obtain ⟨cs, rfl⟩ := List.head?_eq_some_iff.1 hc
    exact ⟨ahead_dropWhile isBlank c cs hblank, rfl⟩
  split
  · rename_i hblock
    obtain ⟨rest, rfl⟩ := List.isPrefixOf_iff_prefix.1 hblock
    split
    · exact ⟨ahead_drop '/' _ _ (by omega), rfl⟩
    -- A comment without an end is no trivia, and the search stops before it.
    · trivial
  split
  · rename_i hline
    cases cs with
    | nil => cases hline
    | cons c cs =>
      refine ⟨ahead_dropWhile _ c cs ?_, rfl⟩
      rcases head_of_startsLineComment c cs hline with rfl | rfl <;> rfl
  · trivial

theorem tagTurn_progresses (cs : List Char) : (tagTurn cs).Progresses id (fun _ => 0) cs := by
  unfold tagTurn
  split
  · trivial
  · rename_i n hn
    split
    · trivial
    · cases cs with
      | nil => cases hn
      | cons c cs => exact ⟨ahead_drop c cs _ (by omega), rfl⟩

/-! Loops return to where they were called. -/

/-- The loop as it starts, without what its turns change. -/
def Loop.origin : Loop → Loop
  | .sections => .sections
  | .code [] => .code []
  | .code (i :: waiting) => .code (⟨i.closing, 0⟩ :: waiting)
  | .single _ waiting => .single [] waiting
  | .nowdoc label _ _ waiting => .nowdoc label false [] waiting
  | .interpolated closing _ _ waiting => .interpolated closing false [] waiting

/-- The loop that goes on when this one is left. -/
def Loop.caller : Loop → Loop
  | .sections | .code [] => .sections
  | .code (i :: waiting) => .interpolated i.closing false [] waiting
  | .single _ waiting | .nowdoc _ _ _ waiting | .interpolated _ _ _ waiting => .code waiting

theorem caller_origin (l : Loop) : l.origin.caller = l.caller := by
  fun_cases Loop.origin l <;> rfl

/-- A turn stays in its loop, calls another one from it, or leaves it for its caller. -/
def State.Returns (s : State) : Turn State Answer → Prop
  | .again t => t.loop.origin = s.loop.origin
  | .enter t => t.loop.caller.origin = s.loop.origin
  | .leave t => t.loop = s.loop.caller
  | .finish _ => True

namespace State

variable (s : State)

theorem sections_returns (hs : s.loop = .sections) : s.Returns s.sections := by
  unfold sections
  dsimp only
  generalize (if htmlLength s.rest = 0 then s
    else s.cut .inlineHtml [] (htmlLength s.rest) .sections) = s'
  split
  · trivial
  · rw [Returns, hs]
    rfl

theorem endCode_returns (s' : State) (hs : s.loop = .code []) : s.Returns s'.endCode := by
  unfold endCode
  split
  · trivial
  · rw [Returns, hs]
    rfl

theorem code_returns (waiting : List Interruption) (hs : s.loop = .code waiting) :
    s.Returns (s.code waiting) := by
  have hsection (hw : waiting.isEmpty = true) : s.loop = .code [] := by
    rw [hs, List.isEmpty_iff.1 hw]
  unfold code
  split
  · split
    · exact s.endCode_returns s (hsection ‹_›)
    · trivial
  split
  · cases waiting <;> (rw [openBrace, Returns, hs]; rfl)
  split
  · fun_cases closeBrace s waiting <;> (rw [Returns, hs]; rfl)
  split
  · split
    · exact s.endCode_returns _ (hsection ‹_›)
    · trivial
  split
  · trivial
  · rename_i o _
    rw [Returns, hs, openString]
    cases o.quoting <;> rfl
  · dsimp only
    split
    · rename_i hlast
      simp only [Bool.and_eq_true] at hlast
      exact s.endCode_returns _ (hsection hlast.1.1)
    · rw [Returns, hs]
      rfl

theorem single_returns (passed : List Char) (waiting : List Interruption)
    (hs : s.loop = .single passed waiting) : s.Returns (s.single passed waiting) := by
  unfold single
  split
  · trivial
  split
  · rw [Returns, hs]
    rfl
  split <;> (rw [Returns, hs]; rfl)

theorem nowdoc_returns (label : List Char) (lineStart : Bool) (passed : List Char)
    (waiting : List Interruption) (hs : s.loop = .nowdoc label lineStart passed waiting) :
    s.Returns (s.nowdoc label lineStart passed waiting) := by
  unfold nowdoc
  split
  · rw [Returns, hs]
    rfl
  · trivial
  · rw [Returns, hs]
    rfl

theorem interpolated_returns (closing : Closing) (lineStart : Bool) (passed : List Char)
    (waiting : List Interruption)
    (hs : s.loop = .interpolated closing lineStart passed waiting) :
    s.Returns (s.interpolated closing lineStart passed waiting) := by
  unfold interpolated
  split
  · rw [Returns, hs]
    rfl
  · trivial
  split
  · rw [Returns, hs]
    split <;> rfl
  split <;> (rw [Returns, hs]; rfl)

theorem turn_returns : s.Returns s.turn := by
  unfold turn
  split
  · exact s.sections_returns ‹_›
  · exact s.code_returns _ ‹_›
  · exact s.single_returns _ _ ‹_›
  · exact s.nowdoc_returns _ _ _ _ ‹_›
  · exact s.interpolated_returns _ _ _ _ ‹_›

theorem returns_of_turn {u : Turn State Answer} (h : s.turn = u) : s.Returns u := by
  rw [← h]
  exact s.turn_returns

end State

/-- A loop that is left gives way to its caller. -/
theorem loop_of_left {s t : State} {n : Nat} (h : Runs State.turn s n (.left t)) :
    t.loop = s.loop.caller := by
  generalize he : Ending.left t = e at h
  induction h generalizing t with
  | @leave s _ ht =>
    cases he
    exact s.returns_of_turn ht
  | finish => cases he
  | @again s t' _ _ ht _ ih =>
    have horigin : t'.loop.origin = s.loop.origin := s.returns_of_turn ht
    rw [ih he, ← caller_origin, horigin, caller_origin]
  | @call s t' _ _ _ _ ht _ _ ihinner ihrest =>
    -- The inner loop gives way to this one, which then is left itself.
    have horigin : t'.loop.caller.origin = s.loop.origin := s.returns_of_turn ht
    rw [ihrest he, ihinner rfl, ← caller_origin, horigin, caller_origin]
  | abort => cases he

/-- The next iteration is one of the same loop. -/
theorem loop_of_iterates {s t : State} (h : Iterates State.turn s t) :
    t.loop.origin = s.loop.origin := by
  cases h with
  | again ht => exact s.returns_of_turn ht
  | call ht inner =>
    rw [loop_of_left inner]
    exact s.returns_of_turn ht

theorem loop_of_iterations {s t : State}
    (h : Relation.ReflTransGen (Iterates State.turn) s t) : t.loop.origin = s.loop.origin := by
  induction h with
  | refl => rfl
  | tail _ hi ih => rw [loop_of_iterates hi, ih]

theorem Loop.eq_of_origin (l : Loop) (closing : Closing) (waiting : List Interruption)
    (h : l.origin = .interpolated closing false [] waiting) :
    ∃ lineStart passed, l = .interpolated closing lineStart passed waiting := by
  fun_cases Loop.origin l with
  | case6 closing' lineStart passed waiting' =>
    cases h
    exact ⟨lineStart, passed, rfl⟩
  | _ => cases h

/-- What a string calls is the code of an interpolation, and that code has no brace open. -/
theorem interpolated_enters (s t : State) (closing : Closing) (lineStart : Bool)
    (passed : List Char) (waiting : List Interruption)
    (h : s.interpolated closing lineStart passed waiting = .enter t) :
    t.loop = .code (⟨closing, 0⟩ :: waiting) := by
  unfold State.interpolated at h
  split at h
  · cases h
  · cases h
  split at h
  · cases h
    split <;> rfl
  split at h <;> cases h

theorem code_of_calls {s t : State} {closing : Closing} {lineStart : Bool} {passed : List Char}
    {waiting : List Interruption} (hs : s.loop = .interpolated closing lineStart passed waiting)
    (h : Calls State.turn s t) : t.loop = .code (⟨closing, 0⟩ :: waiting) := by
  obtain ⟨u, hiterations, ht⟩ := h
  have horigin := loop_of_iterations hiterations
  rw [hs] at horigin
  obtain ⟨lineStart', passed', hu⟩ := u.loop.eq_of_origin closing waiting horigin
  rw [State.turn, hu] at ht
  exact interpolated_enters u t closing lineStart' passed' waiting ht

end Redeclaration.Lexer
