import Redeclaration.Proofs.Token.Plain
import Redeclaration.Proofs.Token.Quoting

/-!
Where lexemes end. No lexeme ends between a carriage return and its line feed,
in any mode: its last character is no carriage return, or the next one is no
line feed.
-/

namespace Redeclaration

open Text

/-- Every string that waits or goes on in a mode has an end that an opening
can ask for. -/
def Mode.Sound : Mode → Prop
  | .html | .data => True
  | .code waiting => ∀ i ∈ waiting, i.closing.Sound
  | .string closing waiting => closing.Sound ∧ ∀ i ∈ waiting, i.closing.Sound

namespace Lexer

theorem notMem_label (label : List Char) (h : SoundLabel label) (d : Char)
    (hd : isLabelChar d = false) : d ∉ label := by
  intro hmem
  have hr := h.chars d hmem
  rw [hd] at hr
  cases hr

theorem closing_text (closing : Closing) (h : closing.Sound) :
    closing.text ≠ [] ∧ '\r' ∉ closing.text := by
  cases closing with
  | quote mark =>
    refine ⟨by simp [Closing.text], ?_⟩
    rcases h with rfl | rfl <;> decide
  | heredoc label =>
    exact ⟨SoundLabel.ne_nil h, notMem_label label h '\r' not_labelChar_return⟩

theorem drop_pred (c : Char) (cs : List Char) (n : Nat) (hn : 0 < n) :
    cs.drop (n - 1) = (c :: cs).drop n := by
  obtain ⟨m, rfl⟩ := Nat.exists_eq_succ_of_ne_zero (Nat.ne_of_gt hn)
  rfl

/-- The cut where a search that started at an offset has split the text. -/
theorem cut_of_split (cs : List Char) (offset : Nat) (a m b : List Char)
    (h : cs.drop offset = a ++ (m ++ b)) (hne : m ++ b ≠ []) :
    cs.take (offset + a.length + m.length) = cs.take offset ++ (a ++ m) ∧
      cs.drop (offset + a.length + m.length) = b := by
  have hle : offset ≤ cs.length := by
    by_contra hlt
    rw [List.drop_of_length_le (by omega)] at h
    exact hne (List.append_eq_nil_iff.1 h.symm).2
  rw [Nat.add_assoc, List.take_add, ← List.drop_drop, h, ← List.append_assoc,
    ← List.length_append, List.take_left, List.drop_left]
  exact ⟨rfl, rfl⟩

/-! Tags. -/

theorem longTag_last (cs : List Char) (h : startsLongTag cs = true) :
    (cs.take 5).getLast? ≠ some '\r' := by
  unfold startsLongTag sameWord at h
  simp only [Bool.and_eq_true, beq_iff_eq] at h
  have hword := h.1.2
  intro hlast
  have hsplit : cs.take 5 = cs.take 2 ++ (cs.drop 2).take 3 :=
    List.take_add (i := 2) (j := 3)
  have hne : (cs.drop 2).take 3 ≠ [] := by
    intro hnil
    rw [hnil] at hword
    cases hword
  rw [hsplit, List.getLast?_append_of_ne_nil _ hne] at hlast
  -- The case of letters does not turn another character into a carriage return.
  have hlower := congrArg List.getLast? hword
  rw [List.getLast?_map, hlast] at hlower
  exact absurd hlower (by decide)

theorem openTagLength_pos (cs : List Char) : 0 < openTagLength cs := by
  unfold openTagLength
  split <;> omega

theorem closeTagLength_pos (cs : List Char) : 0 < closeTagLength cs := by
  unfold closeTagLength
  omega

theorem html_cut (c : Char) (cs : List Char) :
    CleanCut (c :: cs.take (html c cs).more) (cs.drop (html c cs).more) := by
  unfold html
  split
  · rename_i htag
    have hpos := openTagLength_pos (c :: cs)
    dsimp only
    rw [take_pred c cs _ hpos, drop_pred c cs _ hpos]
    unfold openTagLength
    split
    · rename_i hecho
      obtain ⟨rest, hrest⟩ := List.isPrefixOf_iff_prefix.1 hecho
      rw [← hrest]
      exact cleanCut_of_last _ _ (by simp)
    · rename_i hecho
      have hlong : startsLongTag (c :: cs) = true := by
        rw [startsOpenTag, Bool.or_eq_true] at htag
        exact htag.resolve_left hecho
      exact cleanCut_break _ _ 5 (longTag_last _ hlong)
  · dsimp only
    apply cleanCut_of_head
    unfold htmlLength
    cases hfind : findSuffix? startsOpenTag cs with
    | none => simp
    | some n =>
      have hstarts := (findSuffix?_eq_some _ cs n hfind).2.1
      intro hhead
      obtain ⟨rest, hrest⟩ := List.head?_eq_some_iff.1 hhead
      rw [Option.getD_some] at hrest
      rw [hrest] at hstarts
      simp [startsOpenTag, startsEchoTag, startsLongTag] at hstarts

theorem closeTag_cut (c : Char) (cs : List Char) (h : startsCloseTag (c :: cs) = true) :
    CleanCut (c :: cs.take (closeTagLength (c :: cs) - 1))
      (cs.drop (closeTagLength (c :: cs) - 1)) := by
  have hpos := closeTagLength_pos (c :: cs)
  rw [take_pred c cs _ hpos, drop_pred c cs _ hpos]
  obtain ⟨rest, hrest⟩ := List.isPrefixOf_iff_prefix.1 h
  apply cleanCut_break
  rw [← hrest]
  simp

/-! Comments and strings. -/

/-- A lexeme that ends with a text without carriage returns is cut cleanly. -/
theorem closed_cut (cs : List Char) (offset n : Nat) (a m b : List Char)
    (h : cs.drop offset = a ++ (m ++ b)) (hn : n = offset + a.length + m.length)
    (hne : m ≠ []) (hm : '\r' ∉ m) : CleanCut (cs.take n) (cs.drop n) := by
  obtain ⟨htake, hdrop⟩ := cut_of_split cs offset a m b h (by simp [hne])
  rw [hn, htake, hdrop, ← List.append_assoc]
  exact cleanCut_append _ _ _ hne (cleanCut_of_notMem _ _ hm)

theorem interpolation_head (b : List Char) (h : startsInterpolation b = true) :
    b.head? ≠ some '\n' := by
  intro hhead
  obtain ⟨rest, rfl⟩ := List.head?_eq_some_iff.1 hhead
  simp [startsInterpolation] at h

/-- So is one that ends before an interpolation. -/
theorem interrupted_cut (cs : List Char) (offset n : Nat) (a b : List Char)
    (h : cs.drop offset = a ++ b) (hn : n = offset + a.length)
    (hb : startsInterpolation b = true) : CleanCut (cs.take n) (cs.drop n) := by
  have hne : b ≠ [] := by
    rintro rfl
    cases hb
  obtain ⟨-, hdrop⟩ := cut_of_split cs offset a [] b h hne
  rw [List.length_nil, Nat.add_zero, ← hn] at hdrop
  rw [hdrop]
  exact cleanCut_of_head _ _ (interpolation_head b hb)

theorem blockComment_cut (waiting : List Interruption) (c : Char) (cs : List Char) (l : Lexeme)
    (h : blockComment waiting cs = .ok l) :
    CleanCut (c :: cs.take l.more) (cs.drop l.more) ∧ l.next = .code waiting := by
  unfold blockComment at h
  cases hfind : findSuffix? ['*', '/'].isPrefixOf (cs.drop 1) with
  | none =>
    rw [hfind] at h
    cases h
  | some n =>
    rw [hfind] at h
    cases h
    refine ⟨?_, rfl⟩
    obtain ⟨rest, hrest⟩ :=
      List.isPrefixOf_iff_prefix.1 (findSuffix?_eq_some _ _ n hfind).2.1
    have hsplit : cs.drop (1 + n) = [] ++ (['*', '/'] ++ rest) := by
      rw [← List.drop_drop, List.nil_append, hrest]
    refine closed_cut (c :: cs) (1 + n + 1) (n + 3 + 1) [] ['*', '/'] rest hsplit ?_
      (by simp) (by simp)
    simp only [List.length_nil, List.length_cons]
    omega

theorem stringStart_cut (waiting : List Interruption) (o : Opening) (c : Char) (cs : List Char)
    (l : Lexeme) (ho : o.quoting.Sound) (hw : ∀ i ∈ waiting, i.closing.Sound)
    (h : stringStart waiting o cs = .ok l) :
    CleanCut (c :: cs.take l.more) (cs.drop l.more) ∧ l.next.Sound := by
  unfold stringStart at h
  cases hq : o.quoting with
  | single =>
    cases hend : singleEnd? (o.length - 1) (cs.drop (o.length - 1)) with
    | none => simp [hq, hend] at h
    | some n =>
      simp only [hq, hend, Except.ok.injEq] at h
      subst h
      obtain ⟨a, b, hsplit, hn⟩ := singleEnd?_split _ _ _ hend
      refine ⟨closed_cut (c :: cs) (o.length - 1 + 1) (n + 1) a ['\''] b hsplit ?_
        (by simp) (by simp), hw⟩
      rw [List.length_singleton]
      omega
  | nowdoc label =>
    rw [hq] at ho
    cases hend : nowdocEnd? label true (o.length - 1) (cs.drop (o.length - 1)) with
    | none => simp [hq, hend] at h
    | some n =>
      simp only [hq, hend, Except.ok.injEq] at h
      subst h
      obtain ⟨a, b, hsplit, hn⟩ := nowdocEnd?_split _ _ _ _ _ hend
      exact ⟨closed_cut (c :: cs) (o.length - 1 + 1) (n + 1) a label b hsplit (by omega)
        (SoundLabel.ne_nil ho) (notMem_label label ho '\r' not_labelChar_return), hw⟩
  | interpolated closing =>
    rw [hq] at ho
    have hsplits := fragmentEnd_splits closing true (o.length - 1) (cs.drop (o.length - 1))
    cases hend : fragmentEnd closing true (o.length - 1) (cs.drop (o.length - 1)) with
    | closed n =>
      simp only [hq, hend, Except.ok.injEq] at h
      subst h
      rw [hend] at hsplits
      obtain ⟨a, b, hsplit, hn⟩ := hsplits
      obtain ⟨hne, hm⟩ := closing_text closing ho
      exact ⟨closed_cut (c :: cs) (o.length - 1 + 1) (n + 1) a closing.text b hsplit (by omega)
        hne hm, hw⟩
    | interrupted n =>
      simp only [hq, hend, Except.ok.injEq] at h
      subst h
      rw [hend] at hsplits
      obtain ⟨a, b, hsplit, hn, hb⟩ := hsplits
      exact ⟨interrupted_cut (c :: cs) (o.length - 1 + 1) (n + 1) a b hsplit (by omega) hb,
        ho, hw⟩
    | missing => simp [hq, hend] at h

theorem stringRest_cut (closing : Closing) (waiting : List Interruption) (c : Char)
    (cs : List Char) (l : Lexeme) (hc : closing.Sound) (hw : ∀ i ∈ waiting, i.closing.Sound)
    (h : stringRest closing waiting c cs = .ok l) :
    CleanCut (c :: cs.take l.more) (cs.drop l.more) ∧ l.next.Sound := by
  have hinside : ∀ i ∈ (⟨closing, 0⟩ : Interruption) :: waiting, i.closing.Sound := by
    intro i hi
    rcases List.mem_cons.1 hi with rfl | hi
    · exact hc
    · exact hw i hi
  unfold stringRest at h
  have hsplits := fragmentEnd_splits closing false 0 (c :: cs)
  cases hend : fragmentEnd closing false 0 (c :: cs) with
  | closed n =>
    simp only [hend, Except.ok.injEq] at h
    subst h
    rw [hend] at hsplits
    obtain ⟨a, b, hsplit, hn⟩ := hsplits
    obtain ⟨hne, hm⟩ := closing_text closing hc
    have hpos : 0 < n := by
      have hlen := List.length_pos_of_ne_nil hne
      omega
    refine ⟨?_, hw⟩
    dsimp only
    rw [take_pred c cs n hpos, drop_pred c cs n hpos]
    exact closed_cut (c :: cs) 0 n a closing.text b hsplit hn hne hm
  | interrupted n =>
    rw [hend] at hsplits
    obtain ⟨a, b, hsplit, hn, hb⟩ := hsplits
    cases n with
    | zero =>
      have hstarts : startsInterpolation (c :: cs) = true := by
        have ha : a = [] := List.eq_nil_of_length_eq_zero (by omega)
        rw [hsplit, ha]
        exact hb
      simp only [hend] at h
      split at h
      · rename_i hbrace
        cases h
        refine ⟨cleanCut_of_last _ _ ?_, hinside⟩
        simp [beq_iff_eq.1 hbrace]
      · rename_i hbrace
        cases h
        refine ⟨cleanCut_of_last _ _ ?_, hinside⟩
        -- What is not a brace here is the dollar sign before one.
        rw [startsInterpolation, Bool.or_eq_true] at hstarts
        rcases hstarts with hs | hs
        · obtain ⟨rest, hrest⟩ := List.isPrefixOf_iff_prefix.1 hs
          cases hrest
          exact absurd rfl hbrace
        · obtain ⟨rest, hrest⟩ := List.isPrefixOf_iff_prefix.1 hs
          cases hrest
          simp
    | succ n =>
      simp only [hend, Except.ok.injEq] at h
      subst h
      exact ⟨interrupted_cut (c :: cs) 0 (n + 1) a b hsplit hn hb, hc, hw⟩
  | missing => simp [hend] at h

/-! All lexemes. -/

theorem enterBrace_sound (waiting : List Interruption)
    (hw : ∀ i ∈ waiting, i.closing.Sound) : (enterBrace waiting).Sound := by
  cases waiting with
  | nil => exact hw
  | cons i rest =>
    intro j hj
    rcases List.mem_cons.1 hj with rfl | hj
    · exact hw i List.mem_cons_self
    · exact hw j (List.mem_cons_of_mem _ hj)

theorem leaveBrace_sound (waiting : List Interruption)
    (hw : ∀ i ∈ waiting, i.closing.Sound) : (leaveBrace waiting).Sound := by
  fun_cases leaveBrace waiting with
  | case1 => exact hw
  | case2 closing rest =>
    exact ⟨hw _ List.mem_cons_self, fun i hi => hw i (List.mem_cons_of_mem _ hi)⟩
  | case3 closing depth rest =>
    intro j hj
    rcases List.mem_cons.1 hj with rfl | hj
    · exact hw ⟨closing, depth + 1⟩ List.mem_cons_self
    · exact hw j (List.mem_cons_of_mem _ hj)

theorem code_cut (r : Reading) (waiting : List Interruption) (c : Char) (cs : List Char)
    (l : Lexeme) (hw : ∀ i ∈ waiting, i.closing.Sound) (h : code r waiting c cs = .ok l) :
    CleanCut (c :: cs.take l.more) (cs.drop l.more) ∧ l.next.Sound := by
  unfold code at h
  split at h
  · rename_i hc
    cases h
    exact ⟨cleanCut_of_last _ _ (by simp [beq_iff_eq.1 hc]), enterBrace_sound waiting hw⟩
  split at h
  · rename_i hc
    cases h
    exact ⟨cleanCut_of_last _ _ (by simp [beq_iff_eq.1 hc]), leaveBrace_sound waiting hw⟩
  split at h
  · rename_i htag
    split at h
    · cases h
      refine ⟨closeTag_cut c cs htag, ?_⟩
      dsimp only
      split <;> trivial
    · cases h
  split at h
  · obtain ⟨hcut, hnext⟩ := blockComment_cut waiting c cs l h
    exact ⟨hcut, by rw [hnext]; exact hw⟩
  split at h
  · rename_i o ho
    exact stringStart_cut waiting o c cs l (opening?_sound _ o ho).1 hw h
  · cases h
    refine ⟨plain_cut r.member c cs, ?_⟩
    dsimp only
    split
    · trivial
    · exact hw

/-- No lexeme ends between a carriage return and its line feed, and none leads
to a string without an end. -/
theorem lexeme_cut (r : Reading) (c : Char) (cs : List Char) (l : Lexeme)
    (hr : r.mode.Sound) (h : lexeme r c cs = .ok l) :
    CleanCut (c :: cs.take l.more) (cs.drop l.more) ∧ l.next.Sound := by
  unfold lexeme at h
  cases hm : r.mode with
  | html =>
    rw [hm] at h
    cases h
    refine ⟨html_cut c cs, ?_⟩
    unfold html
    split
    · intro i hi
      cases hi
    · trivial
  | code waiting =>
    rw [hm] at h hr
    exact code_cut r waiting c cs l hr h
  | string closing waiting =>
    rw [hm] at h hr
    exact stringRest_cut closing waiting c cs l hr.1 hr.2 h
  | data =>
    rw [hm] at h
    cases h
    exact ⟨cleanCut_of_head _ _ (by simp), trivial⟩

end Lexer

end Redeclaration
