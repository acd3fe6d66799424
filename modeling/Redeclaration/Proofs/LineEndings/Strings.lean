import Redeclaration.Proofs.LineEndings.Text
import Redeclaration.Proofs.LineEndings.Words
import Redeclaration.Proofs.Token.Cuts

/-!
Strings in a text with carriage returns. The searches for the end of a string
are followed side by side: the one in the plain text stands at a position `k`,
and the other one at the position that `k` has moved to.
-/

namespace Redeclaration

open Text Lexer

/-! Markers and closings. -/

theorem markerLength?_crlf (label cs : List Char) (h : SoundLabel label) :
    markerLength? label (crlf cs) = (markerLength? label cs).map (widened cs) := by
  have hfeed : '\n' ∉ label := notMem_label label h '\n' (by decide)
  have hreturn : '\r' ∉ label := notMem_label label h '\r' (by decide)
  unfold markerLength?
  simp only [runLength_crlf isIndent cs rfl, drop_widened]
  rw [isPrefixOf_crlf label _ hreturn hfeed]
  by_cases hlabel : label.isPrefixOf (cs.drop (runLength isIndent cs)) = true
  · have hfront := List.isPrefixOf_iff_prefix.1 hlabel
    rw [drop_of_front label _ _ hfront hfeed rfl, next_crlf (Option.any isLabelChar) _ (by decide)]
    split
    · rw [Option.map_some, widened_add, widened_of_front label _ _ hfront hfeed rfl]
    · rfl
  · rw [Bool.not_eq_true] at hlabel
    rw [hlabel]
    rfl

theorem closing_length?_crlf (closing : Closing) (lineStart : Bool) (cs : List Char)
    (h : closing.Sound) :
    closing.length? lineStart (crlf cs) = (closing.length? lineStart cs).map (widened cs) := by
  cases closing with
  | quote mark =>
    have hmark : mark ≠ '\n' := by
      rcases h with rfl | rfl <;> decide
    have hsame : (some '\r' == some mark) = (some '\n' == some mark) := by
      rcases h with rfl | rfl <;> rfl
    rw [Closing.length?, Closing.length?, next_crlf (· == some mark) cs hsame]
    split
    · rename_i hhead
      obtain ⟨rest, rfl⟩ := List.head?_eq_some_iff.1 (beq_iff_eq.1 hhead)
      rw [Option.map_some, widened_cons mark rest 0 hmark, widened_zero]
    · rfl
  | heredoc label =>
    rw [Closing.length?, Closing.length?]
    split
    · exact markerLength?_crlf label cs h
    · rfl

/-- A string does not close between the two characters of a line break. -/
theorem closing_length?_feed (closing : Closing) (cs : List Char) (h : closing.Sound) :
    closing.length? false ('\n' :: cs) = none := by
  cases closing with
  | quote mark =>
    rcases h with rfl | rfl <;> rfl
  | heredoc label => rfl

theorem startsInterpolation_crlf (cs : List Char) :
    startsInterpolation (crlf cs) = startsInterpolation cs := by
  rw [startsInterpolation, startsInterpolation, isPrefixOf_crlf _ cs (by decide) (by decide),
    isPrefixOf_crlf _ cs (by decide) (by decide)]

/-! Ends. -/

theorem drop_next (cs : List Char) (k : Nat) (c : Char) (rest : List Char)
    (h : cs.drop k = c :: rest) : cs.drop (k + 1) = rest := by
  rw [← List.drop_drop, h]
  rfl

theorem singleEnd?_crlf (cs : List Char) (k : Nat) :
    singleEnd? (widened cs k) (crlf (cs.drop k)) =
      (singleEnd? k (cs.drop k)).map (widened cs) := by
  generalize hdrop : cs.drop k = rest
  fun_induction singleEnd? k rest with
  | case1 => rfl
  | case2 k c rest hc =>
    have hfeed : c ≠ '\n' := by
      rintro rfl
      cases hc
    rw [crlf_cons c rest hfeed, Option.map_some, widened_next cs k c rest hdrop hfeed,
      singleEnd?_closed _ c _ hc]
  | case3 k c hc hback =>
    rw [beq_iff_eq] at hback
    rw [hback]
    rfl
  | case4 k c hc hback d rest ih =>
    have hfeed : c ≠ '\n' := by
      rintro rfl
      cases hback
    have hnext := drop_next cs k c _ hdrop
    rw [← ih (drop_next cs (k + 1) d rest hnext), crlf_cons c _ hfeed]
    by_cases hd : d = '\n'
    · -- The backslash takes the carriage return, and the line feed is plain.
      rw [hd] at hnext ⊢
      rw [widened_next_feed cs (k + 1) rest hnext, widened_next cs k c _ hdrop hfeed, crlf_feed,
        singleEnd?_escape _ c _ _ hc hback, singleEnd?_plain _ '\n' _ (by decide) (by decide)]
    · rw [crlf_cons d rest hd, widened_next cs (k + 1) d rest hnext hd,
        widened_next cs k c _ hdrop hfeed, singleEnd?_escape _ c _ _ hc hback]
  | case5 k c rest hc hback ih =>
    rw [← ih (drop_next cs k c rest hdrop)]
    by_cases hfeed : c = '\n'
    · rw [hfeed] at hdrop ⊢
      rw [widened_next_feed cs k rest hdrop, crlf_feed,
        singleEnd?_plain _ '\r' _ (by decide) (by decide),
        singleEnd?_plain _ '\n' _ (by decide) (by decide)]
    · rw [crlf_cons c rest hfeed, widened_next cs k c rest hdrop hfeed,
        singleEnd?_plain _ c _ hc hback]

theorem nowdocEnd?_crlf (label cs : List Char) (lineStart : Bool) (k : Nat)
    (h : SoundLabel label) (hreturn : '\r' ∉ cs) :
    nowdocEnd? label lineStart (widened cs k) (crlf (cs.drop k)) =
      (nowdocEnd? label lineStart k (cs.drop k)).map (widened cs) := by
  have hmarker (lineStart : Bool) (rest : List Char) :
      (if lineStart then markerLength? label (crlf rest) else none) =
        (if lineStart then markerLength? label rest else none).map (widened rest) :=
    closing_length?_crlf (.heredoc label) lineStart rest h
  generalize hdrop : cs.drop k = rest
  fun_induction nowdocEnd? label lineStart k rest with
  | case1 rest lineStart k n hn =>
    have hn' := hmarker lineStart rest
    rw [hn, Option.map_some] at hn'
    rw [nowdocEnd?_closed label lineStart _ _ _ hn']
    simp only [hn, Option.map_some]
    rw [widened_add, hdrop]
  | case2 lineStart k hn =>
    rw [crlf_nil, nowdocEnd?_nil label lineStart _ hn]
    simp only [hn, Option.map_none]
  | case3 lineStart k c rest hn ih =>
    have hn' := hmarker lineStart (c :: rest)
    rw [hn, Option.map_none] at hn'
    simp only [hn]
    rw [← ih (drop_next cs k c rest hdrop)]
    by_cases hfeed : c = '\n'
    · -- No line starts after the carriage return, so no marker is looked for there.
      rw [hfeed] at hdrop hn' ⊢
      rw [crlf_feed] at hn' ⊢
      rw [widened_next_feed cs k rest hdrop, nowdocEnd?_cons label lineStart _ _ _ hn',
        nowdocEnd?_cons label _ _ _ _ rfl]
      rfl
    · have hc : c ≠ '\r' := by
        rintro rfl
        exact hreturn (List.mem_of_mem_drop (hdrop ▸ List.mem_cons_self))
      rw [crlf_cons c rest hfeed] at hn' ⊢
      rw [widened_next cs k c rest hdrop hfeed, nowdocEnd?_cons label lineStart _ _ _ hn',
        endsLine_of_ne c _ hc hfeed, endsLine_of_ne c _ hc hfeed]

theorem fragmentEnd_crlf (closing : Closing) (cs : List Char) (lineStart : Bool) (k : Nat)
    (h : closing.Sound) (hreturn : '\r' ∉ cs) :
    fragmentEnd closing lineStart (widened cs k) (crlf (cs.drop k)) =
      (fragmentEnd closing lineStart k (cs.drop k)).map (widened cs) := by
  have hlength (lineStart : Bool) (rest : List Char) (hn : closing.length? lineStart rest = none) :
      closing.length? lineStart (crlf rest) = none := by
    rw [closing_length?_crlf closing lineStart rest h, hn, Option.map_none]
  have hpasses (rest : List Char) (hstart : ¬ startsInterpolation rest = true) :
      ¬ startsInterpolation (crlf rest) = true := by
    rwa [startsInterpolation_crlf]
  have hnotReturn (k : Nat) (c : Char) (rest : List Char) (hdrop : cs.drop k = c :: rest) :
      c ≠ '\r' := by
    rintro rfl
    exact hreturn (List.mem_of_mem_drop (hdrop ▸ List.mem_cons_self))
  generalize hdrop : cs.drop k = rest
  fun_induction fragmentEnd closing lineStart k rest with
  | case1 lineStart k rest n hn =>
    have hn' := closing_length?_crlf closing lineStart rest h
    rw [hn, Option.map_some] at hn'
    rw [fragmentEnd_closed closing lineStart _ _ _ hn']
    simp only [hn, FragmentEnd.map]
    rw [widened_add, hdrop]
  | case2 lineStart k hn =>
    rw [crlf_nil, fragmentEnd_nil closing lineStart _ hn]
    simp only [hn, FragmentEnd.map]
  | case3 lineStart k c rest hstart hn =>
    have hc : c ≠ '\n' := by
      rintro rfl
      cases hstart
    have hn' := hlength lineStart _ hn
    have hstart' := startsInterpolation_crlf (c :: rest)
    rw [crlf_cons c rest hc] at hn' hstart' ⊢
    rw [hstart] at hstart'
    rw [fragmentEnd_interrupted closing lineStart _ c _ hn' hstart']
    simp only [hn, hstart, if_true, FragmentEnd.map]
  | case4 lineStart k c hback d more hd hstart hn ih =>
    have hc : c ≠ '\n' := by
      rintro rfl
      cases hback
    have hnext := drop_next cs k c _ hdrop
    have hd' : d = '\n' := by
      rw [Bool.or_eq_true, beq_iff_eq, beq_iff_eq] at hd
      exact hd.resolve_right (hnotReturn _ d more hnext)
    have hn' := hlength lineStart _ hn
    have hstart' := hpasses _ hstart
    simp only [hn, hstart, hback, hd, if_true, if_false, Bool.false_eq_true]
    rw [← ih hnext, widened_next cs k c _ hdrop hc]
    -- The backslash takes the line feed as little as the carriage return.
    rw [crlf_cons c _ hc, hd', crlf_feed] at hn' hstart' ⊢
    rw [fragmentEnd_escape closing lineStart _ c _ _ hn' hstart' hback, if_pos (by decide)]
  | case5 lineStart k c hback d more hd hstart hn ih =>
    have hc : c ≠ '\n' := by
      rintro rfl
      cases hback
    have hd' : d ≠ '\n' := by
      rintro rfl
      exact hd rfl
    have hnext := drop_next cs k c _ hdrop
    have hn' := hlength lineStart _ hn
    have hstart' := hpasses _ hstart
    simp only [hn, hstart, hback, hd, if_true, if_false, Bool.false_eq_true]
    rw [← ih (drop_next cs (k + 1) d more hnext), widened_next cs (k + 1) d more hnext hd',
      widened_next cs k c _ hdrop hc]
    rw [crlf_cons c _ hc, crlf_cons d _ hd'] at hn' hstart' ⊢
    rw [fragmentEnd_escape closing lineStart _ c _ _ hn' hstart' hback, if_neg hd]
  | case6 lineStart k c hback hstart hn =>
    have hc : c ≠ '\n' := by
      rintro rfl
      cases hback
    rw [crlf_cons c [] hc, crlf_nil, fragmentEnd_last_escape closing lineStart _ c hn hstart hback]
    simp only [hn, hstart, hback, if_true, if_false, Bool.false_eq_true, FragmentEnd.map]
  | case7 lineStart k c rest hstart hback hn ih =>
    have hn' := hlength lineStart _ hn
    have hstart' := hpasses _ hstart
    simp only [hn, hstart, hback, if_false, Bool.false_eq_true]
    rw [← ih (drop_next cs k c rest hdrop)]
    by_cases hc : c = '\n'
    · rw [hc] at hdrop hn' hstart' ⊢
      rw [crlf_feed] at hn' hstart' ⊢
      have hfeed := fragmentEnd_plain closing false (widened cs k + 1) '\n' (crlf rest)
        (closing_length?_feed closing _ h) (by simp [startsInterpolation]) (by decide)
      rw [widened_next_feed cs k rest hdrop,
        fragmentEnd_plain closing lineStart _ _ _ hn' hstart' (by decide)]
      exact hfeed
    · have hreturn' := hnotReturn k c rest hdrop
      rw [crlf_cons c rest hc] at hn' hstart' ⊢
      rw [widened_next cs k c rest hdrop hc,
        fragmentEnd_plain closing lineStart _ c _ hn' hstart' hback,
        endsLine_of_ne c _ hreturn' hc, endsLine_of_ne c _ hreturn' hc]

/-! Openings. -/

/-- The same opening in the text with carriage returns. -/
def Opening.widen (cs : List Char) (o : Opening) : Opening :=
  { o with length := widened cs o.length }

/-- A character that is chosen at the start of a text is a front of it. -/
theorem toList_filter_head? (p : Char → Bool) (cs : List Char) :
    (cs.head?.filter p).toList <+: cs := by
  cases cs with
  | nil => simp
  | cons c cs =>
    rw [List.head?_cons, Option.filter_some]
    split
    · exact List.prefix_iff_eq_take.2 rfl
    · exact List.nil_prefix

theorem breakLength_crlf_ne_zero (alone : Char → Bool) (cs : List Char) (h : '\r' ∉ cs)
    (hfeed : alone '\n' = true) :
    (breakLength alone (crlf cs) != 0) = (breakLength alone cs != 0) := by
  rw [breakLength_crlf alone cs h hfeed, Bool.eq_iff_iff, bne_iff_ne, bne_iff_ne]
  cases cs with
  | nil => rfl
  | cons c cs => exact not_congr (widened_cons_eq_zero c cs _)

theorem notMem_filter_head? (p : Char → Bool) (cs : List Char) (d : Char) (hd : p d = false) :
    d ∉ (cs.head?.filter p).toList := by
  rw [Option.mem_toList]
  intro hmem
  have hd' := (Option.mem_filter_iff.1 hmem).2
  rw [hd] at hd'
  cases hd'

/-- The quote mark and the label of an opening have no line breaks. -/
theorem widened_label (marks quoted : List Char) (hmarks : marks <+: quoted)
    (hfeed : '\n' ∉ marks) :
    widened quoted (marks.length + ((quoted.drop marks.length).takeWhile isLabelChar).length) =
      marks.length + ((quoted.drop marks.length).takeWhile isLabelChar).length := by
  rw [widened_add, widened_of_front marks quoted _ hmarks hfeed rfl,
    widened_of_front _ (quoted.drop marks.length) _ (List.takeWhile_prefix isLabelChar) ?_ rfl]
  intro hmem
  exact absurd (List.mem_takeWhile_imp hmem) (by decide)

theorem labelOpening?_crlf (cs : List Char) (hreturn : '\r' ∉ cs) :
    labelOpening? (crlf cs) = (labelOpening? cs).map (·.widen cs) := by
  unfold labelOpening?
  by_cases harrows : ['<', '<', '<'].isPrefixOf cs = true
  · have harrows' := List.isPrefixOf_iff_prefix.1 harrows
    simp only [isPrefixOf_crlf ['<', '<', '<'] cs (by decide) (by decide),
      drop_of_front ['<', '<', '<'] cs 3 harrows' (by decide) rfl, runLength_crlf isIndent _ rfl,
      drop_widened, harrows,
      next_crlf (Option.filter fun c => c == '"' || c == '\'') _ rfl]
    generalize runLength isIndent (cs.drop 3) = indent
    generalize hquoted : (cs.drop 3).drop indent = quoted
    have hmarks := toList_filter_head? (fun c => c == '"' || c == '\'') quoted
    have hfeed := notMem_filter_head? (fun c => c == '"' || c == '\'') quoted '\n' rfl
    have hreturn' := notMem_filter_head? (fun c => c == '"' || c == '\'') quoted '\r' rfl
    generalize quoted.head?.filter (fun c => c == '"' || c == '\'') = mark at *
    have hwide := widened_label mark.toList quoted hmarks hfeed
    rw [drop_of_front _ quoted _ hmarks hfeed rfl, takeWhile_crlf isLabelChar _ (by decide),
      crlf_label]
    generalize (quoted.drop mark.toList.length).takeWhile isLabelChar = label at *
    rw [drop_of_widened quoted _ hwide, isPrefixOf_crlf _ _ hreturn' hfeed]
    generalize htail : quoted.drop (mark.toList.length + label.length) = tail
    by_cases hcloses : mark.toList.isPrefixOf tail = true
    · have hcloses' := List.isPrefixOf_iff_prefix.1 hcloses
      have hrest : '\r' ∉ tail.drop mark.toList.length := by
        rw [← htail, ← hquoted, List.drop_drop, List.drop_drop, List.drop_drop]
        exact fun hmem => hreturn (List.mem_of_mem_drop hmem)
      rw [drop_of_front _ tail _ hcloses' hfeed rfl, breakLength_crlf_ne_zero _ _ hrest rfl,
        breakLength_crlf _ _ hrest rfl]
      generalize breakLength (fun c => c == '\n' || c == '\r') (tail.drop mark.toList.length) = eol
      -- The opening is followed from part to part: arrows, indentation, mark and label, mark.
      have hlength : widened cs (3 + indent + 2 * mark.toList.length + label.length + eol) =
          3 + widened (cs.drop 3) indent + 2 * mark.toList.length + label.length +
            widened (tail.drop mark.toList.length) eol := by
        have hparts : 3 + indent + 2 * mark.toList.length + label.length + eol =
            3 + (indent + (mark.toList.length + label.length + (mark.toList.length + eol))) := by
          omega
        rw [hparts, widened_add cs, widened_add (cs.drop 3), hquoted, widened_add quoted, hwide,
          htail, widened_add tail, widened_of_front _ cs 3 harrows' (by decide) rfl,
          widened_of_front _ tail _ hcloses' hfeed rfl]
        omega
      split
      · rw [Option.map_some, Opening.widen, hlength]
      · rfl
    · rw [Bool.not_eq_true] at hcloses
      simp [hcloses]
  · rw [Bool.not_eq_true] at harrows
    simp [isPrefixOf_crlf ['<', '<', '<'] cs (by decide) (by decide), harrows]

theorem plainOpening?_crlf (cs : List Char) (hreturn : '\r' ∉ cs) :
    plainOpening? (crlf cs) = (plainOpening? cs).map (·.widen cs) := by
  cases cs with
  | nil => rfl
  | cons c cs =>
    have hlabel := labelOpening?_crlf (c :: cs) hreturn
    by_cases hc : c = '\n'
    · rw [hc] at hlabel ⊢
      exact hlabel
    · have hone : widened (c :: cs) 1 = 1 := by rw [widened_cons c cs 0 hc, widened_zero]
      rw [crlf_cons c cs hc] at hlabel ⊢
      rw [plainOpening?, plainOpening?, hlabel]
      split
      · rw [Option.map_some, Opening.widen, hone]
      split
      · rw [Option.map_some, Opening.widen, hone]
      · rfl

theorem opening?_crlf (cs : List Char) (hreturn : '\r' ∉ cs) :
    opening? (crlf cs) = (opening? cs).map (·.widen cs) := by
  cases cs with
  | nil => rfl
  | cons c cs =>
    have hplain := plainOpening?_crlf (c :: cs) hreturn
    by_cases hc : c = '\n'
    · rw [hc] at hplain ⊢
      exact hplain
    · have hreturn' : '\r' ∉ cs := fun hmem => hreturn (List.mem_cons_of_mem c hmem)
      rw [crlf_cons c cs hc] at hplain ⊢
      rw [opening?, opening?, hplain, plainOpening?_crlf cs hreturn', Option.map_map]
      split
      · rw [Option.map_map]
        congr 1
        funext o
        simp only [Function.comp_apply, Opening.widen, widened_cons c cs _ hc]
      split
      · rw [Option.map_some, Opening.widen, widened_cons c cs 0 hc, widened_zero]
      · rfl

end Redeclaration
