import Redeclaration.Proofs.Token.Trivia

/-!
Comments, single-quoted strings and nowdocs, whose text is not looked into. Main
statement: where one of them starts in code, it is one token that ends at the first
place where it can end, and a source is refused for it exactly if there is no such place.
-/

namespace Redeclaration

open Text

/-- The parts of code that hold no code. -/
inductive Region where
  | lineComment
  | blockComment
  | single
  | nowdoc (label : List Char) (sound : SoundLabel label)

namespace Region

/-- The kinds of token that a region may be. -/
def kinds : Region → List Kind
  | lineComment => [.comment]
  | blockComment => [.comment, .docComment]
  | single | nowdoc _ _ => [.stringLiteral]

/-- The fault of a region that does not end. The end of the text ends a line comment. -/
def fault? : Region → Option Fault
  | lineComment => none
  | blockComment => some .unterminatedComment
  | single => some .unterminatedString
  | nowdoc label _ => some (.unterminatedNowdoc (String.ofList label))

/-- What may stand before a string: nothing, or the letter b. -/
def IsLetter (letter : List Char) : Prop :=
  letter = [] ∨ letter = ['b'] ∨ letter = ['B']

/-- A line break in front of a text. A carriage return takes a line feed with it. -/
inductive IsBreak : List Char → List Char → Prop
  | feed (body : List Char) : IsBreak ['\n'] body
  | both (body : List Char) : IsBreak ['\r', '\n'] body
  | carriage {body : List Char} (alone : body.head? ≠ some '\n') : IsBreak ['\r'] body

/-- The opening line of a nowdoc, without a letter before it. -/
def nowdocOpening (indent label eol : List Char) : List Char :=
  ['<', '<', '<'] ++ indent ++ ['\''] ++ label ++ ['\''] ++ eol

/-- The opening of a region, and the text that follows it. -/
inductive Opens : Region → List Char → List Char → Prop
  | slashes (body : List Char) : Opens lineComment ['/', '/'] body
  | hash {body : List Char} (hbracket : body.head? ≠ some '[') : Opens lineComment ['#'] body
  | block (body : List Char) : Opens blockComment ['/', '*'] body
  | quote {letter : List Char} (hletter : IsLetter letter) (body : List Char) :
      Opens single (letter ++ ['\'']) body
  | label {letter indent label eol body : List Char} (hletter : IsLetter letter)
      (hindent : ∀ c ∈ indent, isIndent c = true) (hlabel : SoundLabel label)
      (heol : IsBreak eol body) :
      Opens (nowdoc label hlabel) (letter ++ nowdocOpening indent label eol) body

/-- The number of backslashes with which a text ends. -/
def backslashes (cs : List Char) : Nat :=
  (cs.reverse.takeWhile (· == '\\')).length

/-- Between two parts of a text a line starts: right at the front, after a line feed, or
after a carriage return that no line feed follows. -/
def LineStart (inside rest : List Char) : Prop :=
  inside = [] ∨ ∃ before c, inside = before ++ [c] ∧
    (c = '\n' ∨ c = '\r' ∧ rest.head? ≠ some '\n')

/-- A place where a region can end: the text in it, the terminator that belongs to it, and
the text after it. -/
inductive Ends : Region → List Char → List Char → List Char → Prop
  | text (inside : List Char) : Ends lineComment inside [] []
  | lineBreak {c : Char} (inside after : List Char) (hc : c = '\n' ∨ c = '\r') :
      Ends lineComment inside [] (c :: after)
  | tag (inside after : List Char) : Ends lineComment inside [] ('?' :: '>' :: after)
  | block (inside after : List Char) : Ends blockComment inside ['*', '/'] after
  | quote {inside : List Char} (heven : Even (backslashes inside)) (after : List Char) :
      Ends single inside ['\''] after
  | label {label inside indent after : List Char} {hlabel : SoundLabel label}
      (hstart : LineStart inside (indent ++ label ++ after))
      (hindent : ∀ c ∈ indent, isIndent c = true)
      (hafter : ∀ c ∈ after.head?, isLabelChar c = false) :
      Ends (nowdoc label hlabel) inside (indent ++ label) after

/-- The first end of a region in the text after its opening. -/
structure FirstEnd (region : Region) (body inside closing after : List Char) : Prop where
  split : body = inside ++ closing ++ after
  ends : region.Ends inside closing after
  first : ∀ inside' closing' after', body = inside' ++ closing' ++ after' →
    region.Ends inside' closing' after' → inside.length ≤ inside'.length

/-- A region can end nowhere in the text after its opening. -/
def Endless (region : Region) (body : List Char) : Prop :=
  ∀ inside closing after, body = inside ++ closing ++ after → ¬ region.Ends inside closing after

/-! A search for the end. -/

/-- The invariant of a search: it has passed over `pre`, and there is no end before `rest`. -/
structure Passed (region : Region) (body pre rest : List Char) : Prop where
  split : body = pre ++ rest
  before : ∀ inside closing after, body = inside ++ closing ++ after →
    region.Ends inside closing after → pre.length ≤ inside.length

/-- What a search has to find: the first end, counted from `opened`. -/
def Found (region : Region) (opened : Nat) (body : List Char) : Option Nat → Prop
  | none => region.Endless body
  | some n => ∃ inside closing after, region.FirstEnd body inside closing after ∧
      n = opened + inside.length + closing.length

variable {region : Region} {body pre rest closing after : List Char}

theorem passed_nil (body : List Char) : region.Passed body [] body :=
  ⟨rfl, fun _ _ _ _ _ => Nat.zero_le _⟩

/-- A search goes on over a character where the region does not end. -/
theorem Passed.step {c : Char} (h : region.Passed body pre (c :: rest))
    (hnot : ∀ closing after, c :: rest = closing ++ after → ¬ region.Ends pre closing after) :
    region.Passed body (pre ++ [c]) rest := by
  refine ⟨by rw [h.split, List.append_cons], ?_⟩
  intro inside closing after hsplit hends
  have hle := h.before inside closing after hsplit hends
  rw [List.length_append, List.length_singleton]
  by_contra hlt
  have hsame : pre ++ c :: rest = inside ++ (closing ++ after) := by
    rw [← h.split, hsplit, List.append_assoc]
  obtain ⟨rfl, hrest⟩ := List.append_inj hsame (by omega)
  exact hnot closing after hrest hends

theorem Passed.found (h : region.Passed body pre rest) (hends : region.Ends pre closing after)
    (hsplit : rest = closing ++ after) (opened : Nat) :
    region.Found opened body (some (opened + pre.length + closing.length)) := by
  have hfirst : region.FirstEnd body pre closing after :=
    ⟨by rw [h.split, hsplit, List.append_assoc], hends, h.before⟩
  exact ⟨pre, closing, after, hfirst, rfl⟩

theorem Passed.endless (h : region.Passed body pre []) (hnot : ¬ region.Ends pre [] [])
    (opened : Nat) : region.Found opened body none := by
  intro inside closing after hsplit hends
  have hle := h.before inside closing after hsplit hends
  have hsame : inside ++ (closing ++ after) = pre := by
    rw [← List.append_assoc, ← hsplit, h.split, List.append_nil]
  have hnil : closing ++ after = [] := by
    apply List.eq_nil_of_length_eq_zero
    have hlength := congrArg List.length hsame
    rw [List.length_append] at hlength
    omega
  obtain ⟨rfl, rfl⟩ := List.append_eq_nil_iff.1 hnil
  rw [List.append_nil, List.append_nil] at hsame
  exact hnot (hsame ▸ hends)

/-! Comments. -/

/-- Whether a line comment ends before a text. -/
def endsLineComment (cs : List Char) : Bool :=
  cs.head?.any (fun c => c == '\n' || c == '\r') || startsCloseTag cs

theorem ends_of_endsLineComment (h : endsLineComment rest = true) :
    lineComment.Ends pre [] rest := by
  unfold endsLineComment at h
  rw [Bool.or_eq_true, Option.any_eq_true] at h
  rcases h with ⟨c, hhead, hc⟩ | htag
  · obtain ⟨cs, rfl⟩ := List.head?_eq_some_iff.1 hhead
    rw [Bool.or_eq_true, beq_iff_eq, beq_iff_eq] at hc
    exact .lineBreak pre cs hc
  · obtain ⟨cs, rfl⟩ := List.isPrefixOf_iff_prefix.1 htag
    exact .tag pre cs

theorem endsLineComment_of_ends {c : Char} (h : lineComment.Ends pre closing after)
    (hsplit : c :: rest = closing ++ after) : endsLineComment (c :: rest) = true := by
  rw [hsplit]
  cases h with
  | text => cases hsplit
  | lineBreak _ _ hc => rcases hc with rfl | rfl <;> rfl
  | tag => rfl

theorem found_lineComment (opened passed : Nat) (h : lineComment.Passed body pre rest)
    (hpassed : passed = opened + pre.length) :
    lineComment.Found opened body
      (some ((findSuffixFrom? endsLineComment passed rest).getD (passed + rest.length))) := by
  induction rest generalizing pre passed with
  | nil =>
    subst hpassed
    exact h.found (.text pre) rfl opened
  | cons c rest ih =>
    unfold findSuffixFrom?
    split
    · rename_i hends
      subst hpassed
      exact h.found (ends_of_endsLineComment hends) rfl opened
    · rename_i hends
      have hstep := h.step fun closing after hsplit hclose =>
        hends (endsLineComment_of_ends hclose hsplit)
      rw [List.length_cons, Nat.add_comm rest.length 1, ← Nat.add_assoc]
      exact ih (passed + 1) hstep (by simp [hpassed, Nat.add_assoc])

theorem found_blockComment (opened passed : Nat) (h : blockComment.Passed body pre rest)
    (hpassed : passed = opened + pre.length) :
    blockComment.Found opened body
      ((findSuffixFrom? ['*', '/'].isPrefixOf passed rest).map (· + 2)) := by
  induction rest generalizing pre passed with
  | nil => exact h.endless (fun hends => by cases hends) opened
  | cons c rest ih =>
    unfold findSuffixFrom?
    split
    · rename_i hends
      obtain ⟨cs, hcs⟩ := List.isPrefixOf_iff_prefix.1 hends
      subst hpassed
      exact h.found (.block pre cs) hcs.symm opened
    · rename_i hends
      have hstep := h.step fun closing after hsplit hclose => by
        cases hclose
        exact hends (List.isPrefixOf_iff_prefix.2 ⟨after, hsplit.symm⟩)
      exact ih (passed + 1) hstep (by simp [hpassed, Nat.add_assoc])

/-! Strings. -/

theorem backslashes_snoc (cs : List Char) (c : Char) :
    backslashes (cs ++ [c]) = if c = '\\' then backslashes cs + 1 else 0 := by
  unfold backslashes
  rw [List.reverse_append, List.reverse_singleton, List.singleton_append, List.takeWhile_cons]
  by_cases hc : c = '\\' <;> simp [hc]

theorem head_of_single {c : Char} (h : single.Ends pre closing after)
    (hsplit : c :: rest = closing ++ after) : c = '\'' ∧ Even (backslashes pre) := by
  cases h with
  | quote heven =>
    cases hsplit
    exact ⟨rfl, heven⟩

/-- Whatever a string has passed over ends with an even number of backslashes, since each
that escapes has taken a character with it. -/
theorem found_single (opened passed : Nat) (h : single.Passed body pre rest)
    (hpassed : passed = opened + pre.length) (heven : Even (backslashes pre)) :
    single.Found opened body (singleEnd? passed rest) := by
  fun_induction singleEnd? passed rest generalizing pre with
  | case1 passed => exact h.endless (fun hends => by cases hends) opened
  | case2 passed c cs hc =>
    rw [beq_iff_eq] at hc
    subst hpassed hc
    exact h.found (.quote heven cs) rfl opened
  | case3 passed c hc hback =>
    have hstep := h.step fun closing after hsplit hends =>
      hc (beq_iff_eq.2 (head_of_single hends hsplit).1)
    exact hstep.endless (fun hends => by cases hends) opened
  | case4 passed c hc hback d cs ih =>
    have hescape := h.step fun closing after hsplit hends =>
      hc (beq_iff_eq.2 (head_of_single hends hsplit).1)
    have hcount : backslashes (pre ++ [c]) = backslashes pre + 1 := by
      rw [backslashes_snoc, if_pos (beq_iff_eq.1 hback)]
    -- An apostrophe after the backslash has an odd number of them before it.
    have hstep := hescape.step fun closing after hsplit hends => by
      have hodd := (head_of_single hends hsplit).2
      rw [hcount] at hodd
      exact (Nat.even_add_one.1 hodd) heven
    have heven' : Even (backslashes (pre ++ [c] ++ [d])) := by
      rw [backslashes_snoc, hcount]
      split
      · exact heven.add even_two
      · exact Even.zero
    exact ih hstep (by simp [hpassed, Nat.add_assoc]) heven'
  | case5 passed c cs hc hback ih =>
    have hstep := h.step fun closing after hsplit hends =>
      hc (beq_iff_eq.2 (head_of_single hends hsplit).1)
    have heven' : Even (backslashes (pre ++ [c])) := by
      rw [backslashes_snoc, if_neg (mt beq_iff_eq.2 hback)]
      exact Even.zero
    exact ih hstep (by simp [hpassed, Nat.add_assoc]) heven'

/-- A label does not start with the blanks that may stand before it. -/
theorem isIndent_of_isLabelStart (c : Char) (h : isLabelStart c = true) : isIndent c = false := by
  rw [Bool.eq_false_iff]
  intro hindent
  rw [isIndent, Bool.or_eq_true, beq_iff_eq, beq_iff_eq] at hindent
  rcases hindent with rfl | rfl <;> cases h

/-- The front of a text whose characters have a property and which another text follows. -/
theorem takeWhile_front (p : Char → Bool) (front back : List Char)
    (hfront : ∀ c ∈ front, p c = true) (hback : ∀ c ∈ back.head?, p c = false) :
    (front ++ back).takeWhile p = front := by
  rw [List.takeWhile_append_of_pos hfront]
  cases back with
  | nil => simp
  | cons c back => simp [hback c rfl]

theorem takeWhile_indent {label : List Char} (h : SoundLabel label)
    (indent after : List Char) (hindent : ∀ c ∈ indent, isIndent c = true) :
    (indent ++ (label ++ after)).takeWhile isIndent = indent := by
  apply takeWhile_front isIndent indent _ hindent
  intro c hc
  cases label with
  | nil => cases h.starts
  | cons d ds =>
    cases hc
    exact isIndent_of_isLabelStart c h.starts

/-- The end of a nowdoc at the start of a text. -/
theorem markerLength?_eq_some_iff {label : List Char} (h : SoundLabel label) (cs : List Char)
    (n : Nat) :
    markerLength? label cs = some n ↔
      ∃ indent after, cs = indent ++ label ++ after ∧ (∀ c ∈ indent, isIndent c = true) ∧
        (∀ c ∈ after.head?, isLabelChar c = false) ∧ n = (indent ++ label).length := by
  constructor
  · intro hmarker
    unfold markerLength? at hmarker
    simp only [drop_runLength] at hmarker
    split at hmarker
    · rename_i hfollows
      rw [Bool.and_eq_true, List.isPrefixOf_iff_prefix, Bool.not_eq_true', Option.any_eq_false]
        at hfollows
      obtain ⟨⟨after, hafter⟩, hlabel⟩ := hfollows
      rw [← hafter, List.drop_left] at hlabel
      cases hmarker
      refine ⟨cs.takeWhile isIndent, after, ?_, fun c hc => List.mem_takeWhile_imp hc, ?_, ?_⟩
      · rw [List.append_assoc, hafter, List.takeWhile_append_dropWhile]
      · simpa using hlabel
      · rw [List.length_append, runLength]
    · cases hmarker
  · rintro ⟨indent, after, rfl, hindent, hafter, rfl⟩
    have hrun : runLength isIndent (indent ++ (label ++ after)) = indent.length := by
      rw [runLength, takeWhile_indent h indent after hindent]
    have hnext : after.head?.any isLabelChar = false := by
      rw [Option.any_eq_false]
      simpa using hafter
    simp [markerLength?, hrun, hnext]

/-- A line that starts with the marker is where a nowdoc can end. -/
theorem marker_eq_some_iff {label : List Char} (hlabel : SoundLabel label) {lineStart : Bool}
    (hstart : lineStart = true ↔ LineStart pre rest) (n : Nat) :
    (if lineStart then markerLength? label rest else none) = some n ↔
      ∃ closing after, rest = closing ++ after ∧ (nowdoc label hlabel).Ends pre closing after ∧
        n = closing.length := by
  rw [Option.ite_none_right_eq_some, hstart, markerLength?_eq_some_iff hlabel]
  constructor
  · rintro ⟨hline, indent, after, rfl, hindent, hafter, rfl⟩
    exact ⟨indent ++ label, after, rfl, .label hline hindent hafter, rfl⟩
  · rintro ⟨closing, after, rfl, hends, rfl⟩
    cases hends with
    | @label _ _ indent _ _ hline hindent hafter =>
      exact ⟨hline, indent, after, rfl, hindent, hafter, rfl⟩

theorem lineStart_snoc_iff (c : Char) : LineStart (pre ++ [c]) rest ↔ endsLine c rest = true := by
  simp [LineStart, endsLine]

/-- A search for the end of a nowdoc knows whether a line starts where it has come to. -/
theorem found_nowdoc {label : List Char} (hlabel : SoundLabel label) (opened passed : Nat)
    (lineStart : Bool) (h : (nowdoc label hlabel).Passed body pre rest)
    (hpassed : passed = opened + pre.length)
    (hstart : lineStart = true ↔ LineStart pre rest) :
    (nowdoc label hlabel).Found opened body (nowdocEnd? label lineStart passed rest) := by
  fun_induction nowdocEnd? label lineStart passed rest generalizing pre with
  | case1 cs lineStart passed n hn =>
    simp only [hn]
    obtain ⟨closing, after, hsplit, hends, rfl⟩ := (marker_eq_some_iff hlabel hstart n).1 hn
    subst hpassed
    exact h.found hends hsplit opened
  | case2 lineStart passed hn =>
    simp only [hn]
    refine h.endless (fun hends => ?_) opened
    have hsome := (marker_eq_some_iff hlabel hstart 0).2 ⟨[], [], rfl, hends, rfl⟩
    rw [hn] at hsome
    cases hsome
  | case3 lineStart passed c rest hn ih =>
    simp only [hn]
    have hstep := h.step fun closing after hsplit hends => by
      have hsome := (marker_eq_some_iff hlabel hstart closing.length).2
        ⟨closing, after, hsplit, hends, rfl⟩
      rw [hn] at hsome
      cases hsome
    exact ih hstep (by simp [hpassed, Nat.add_assoc]) (lineStart_snoc_iff c).symm

/-! Openings. -/

theorem breakLength_of_isBreak {eol : List Char} (h : IsBreak eol body) :
    breakLength (fun c => c == '\n' || c == '\r') (eol ++ body) = eol.length := by
  cases h with
  | feed => rfl
  | both => rfl
  | carriage halone => simp [breakLength, halone]

theorem plainOpening?_nowdoc {indent label eol : List Char}
    (hindent : ∀ c ∈ indent, isIndent c = true) (hlabel : SoundLabel label)
    (heol : IsBreak eol body) :
    plainOpening? (nowdocOpening indent label eol ++ body) =
      some ⟨(nowdocOpening indent label eol).length, .nowdoc label⟩ := by
  have htext : nowdocOpening indent label eol ++ body =
      '<' :: '<' :: '<' :: (indent ++ '\'' :: (label ++ '\'' :: (eol ++ body))) := by
    simp [nowdocOpening]
  have hlabelled (cs : List Char) : plainOpening? ('<' :: cs) = labelOpening? ('<' :: cs) := rfl
  have hrun : runLength isIndent (indent ++ '\'' :: (label ++ '\'' :: (eol ++ body))) =
      indent.length := by
    rw [runLength, takeWhile_front isIndent indent _ hindent (by simp [isIndent])]
  have htake : (label ++ '\'' :: (eol ++ body)).takeWhile isLabelChar = label :=
    takeWhile_front isLabelChar label _ hlabel.chars fun c hc => by cases hc; rfl
  have hmark : (some '\'').filter (fun c => c == '"' || c == '\'') = some '\'' := rfl
  have htail : ('\'' :: (label ++ '\'' :: (eol ++ body))).drop (1 + label.length) =
      '\'' :: (eol ++ body) := by
    rw [Nat.add_comm, List.drop_succ_cons, List.drop_left]
  have hbreak := breakLength_of_isBreak heol
  have hne : eol.length ≠ 0 := by cases heol <;> simp
  rw [htext, hlabelled]
  unfold labelOpening?
  simp only [List.drop_succ_cons, List.drop_zero, hrun, List.drop_left, List.head?_cons, hmark,
    Option.toList_some, List.length_singleton, htake, htail, hbreak, hlabel.starts]
  simp [hne, nowdocOpening]
  omega

theorem opening?_letter {letter cs : List Char} {o : Opening} (hletter : IsLetter letter)
    (h : plainOpening? cs = some o) :
    opening? (letter ++ cs) = some { o with length := letter.length + o.length } := by
  cases cs with
  | nil => cases h
  | cons c cs =>
    rcases hletter with rfl | rfl | rfl
    · rcases Lexer.plainOpening?_head c cs o h with rfl | rfl | rfl <;> simpa [opening?] using h
    · simp [opening?, h, Nat.add_comm]
    · simp [opening?, h, Nat.add_comm]

/-! Lexemes. -/

/-- What the lexer makes of a region: one lexeme up to the end that was found, or the
fault of the region. -/
inductive Reads (region : Region) (waiting : List Interruption) :
    Option Nat → Except Fault Lexeme → Prop
  | token {kind : Kind} (n : Nat) (hkind : kind ∈ region.kinds) :
      Reads region waiting (some n) (.ok ⟨kind, n, .code waiting⟩)
  | fault {fault : Fault} (hfault : region.fault? = some fault) :
      Reads region waiting none (.error fault)

open Lexer

variable (r : Reading) (waiting : List Interruption)

theorem code_lineComment {c : Char} {cs : List Char} (h : startsLineComment (c :: cs) = true) :
    code r waiting c cs = .ok ⟨.comment, lineCommentRest cs, .code waiting⟩ := by
  have hstarts := h
  simp only [startsLineComment, Bool.or_eq_true, Bool.and_eq_true,
    List.isPrefixOf_iff_prefix] at hstarts
  rcases hstarts with ⟨rest, hrest⟩ | ⟨⟨rest, hrest⟩, -⟩ <;>
    (simp only [List.cons_append, List.nil_append, List.cons.injEq] at hrest
     obtain ⟨rfl, rfl⟩ := hrest
     simp [code, startsCloseTag, opening?, plainOpening?, labelOpening?, plain, isBlank, h])

theorem code_string {c : Char} {cs : List Char} {o : Opening}
    (h : opening? (c :: cs) = some o) : code r waiting c cs = stringStart waiting o cs := by
  rcases opening?_cases c cs o h with ⟨rfl | rfl, -⟩ | rfl | rfl | rfl | rfl <;>
    simp [code, startsCloseTag, h]

/-- A string that opens is read from the end of its opening on. -/
theorem code_opening {opening : List Char} {quoting : Quoting}
    (h : opening? (opening ++ body) = some ⟨opening.length, quoting⟩) :
    ∃ c cs, opening = c :: cs ∧ code r waiting c (cs ++ body) =
      stringStart waiting ⟨cs.length + 1, quoting⟩ (cs ++ body) := by
  cases opening with
  | nil => exact absurd (opening?_sound _ _ h).2 (Nat.lt_irrefl 0)
  | cons c cs => exact ⟨c, cs, rfl, code_string r waiting h⟩

/-- Where a region opens in code, the lexer looks for its first end. -/
theorem code_region {opening : List Char} (h : region.Opens opening body) :
    ∃ c cs found, opening = c :: cs ∧ region.Found cs.length body found ∧
      region.Reads waiting found (code r waiting c (cs ++ body)) := by
  cases h with
  | slashes =>
    have hfound := found_lineComment 1 1 (passed_nil body) rfl
    have hrest : lineCommentRest ('/' :: body) =
        (findSuffixFrom? endsLineComment 1 body).getD (1 + body.length) := by
      rw [Nat.add_comm]
      rfl
    refine ⟨'/', ['/'], _, rfl, hfound, ?_⟩
    rw [← hrest, List.singleton_append, code_lineComment r waiting rfl]
    exact .token _ List.mem_cons_self
  | hash hbracket =>
    have hfound := found_lineComment 0 0 (passed_nil body) rfl
    have hrest : lineCommentRest body =
        (findSuffixFrom? endsLineComment 0 body).getD (0 + body.length) := by
      rw [Nat.zero_add]
      rfl
    have hstarts : startsLineComment ('#' :: body) = true := by
      cases body with
      | nil => rfl
      | cons d ds =>
        have hd : '[' ≠ d := by
          rintro rfl
          exact hbracket rfl
        simp [startsLineComment, startsAttribute, List.isPrefixOf, hd]
    refine ⟨'#', [], _, rfl, hfound, ?_⟩
    rw [← hrest, List.nil_append, code_lineComment r waiting hstarts]
    exact .token _ List.mem_cons_self
  | block =>
    have hfound := found_blockComment 1 1 (passed_nil body) rfl
    refine ⟨'/', ['*'], _, rfl, hfound, ?_⟩
    have hcode : code r waiting '/' ('*' :: body) =
        Lexer.blockComment waiting ('*' :: body) := rfl
    rw [List.singleton_append, hcode, findSuffixFrom?_eq]
    unfold Lexer.blockComment
    rw [List.drop_succ_cons, List.drop_zero]
    cases findSuffix? ['*', '/'].isPrefixOf body with
    | none => exact .fault rfl
    | some n =>
      have hmore : 1 + n + 2 = n + 3 := by omega
      simp only [Option.map_some, hmore]
      refine .token _ ?_
      split <;> simp [kinds]
  | @quote letter hletter =>
    have hopening : opening? (letter ++ ['\''] ++ body) =
        some ⟨(letter ++ ['\'']).length, .single⟩ := by
      have hplain : plainOpening? (['\''] ++ body) = some ⟨1, .single⟩ := rfl
      rw [List.append_assoc, List.length_append]
      exact opening?_letter hletter hplain
    obtain ⟨c, cs, hcs, hcode⟩ := code_opening r waiting hopening
    have hfound := found_single cs.length cs.length (passed_nil body) rfl Even.zero
    refine ⟨c, cs, _, hcs, hfound, ?_⟩
    rw [hcode]
    simp only [stringStart, Nat.add_sub_cancel, List.drop_left]
    cases singleEnd? cs.length body with
    | none => exact .fault rfl
    | some n => exact .token n List.mem_cons_self
  | @label letter indent label eol _ hletter hindent hlabel heol =>
    have hopening := opening?_letter hletter (plainOpening?_nowdoc hindent hlabel heol)
    rw [← List.append_assoc, ← List.length_append] at hopening
    obtain ⟨c, cs, hcs, hcode⟩ := code_opening r waiting hopening
    have hfound := found_nowdoc hlabel cs.length cs.length true (passed_nil body) rfl
      (iff_of_true rfl (.inl rfl))
    refine ⟨c, cs, _, hcs, hfound, ?_⟩
    rw [hcode]
    simp only [stringStart, Nat.add_sub_cancel, List.drop_left]
    cases nowdocEnd? label true cs.length body with
    | none => exact .fault rfl
    | some n => exact .token n List.mem_cons_self

end Region

namespace Lexer

/-- One step of a run, over a lexeme whose text is known. -/
theorem reaches_front (source : List Char) (ts : List Token) (r : Reading) (c : Char)
    (front after : List Char) (kind : Kind) (next : Mode)
    (h : Reaches source ts r (c :: (front ++ after)))
    (hl : lexeme r c (front ++ after) = .ok ⟨kind, front.length, next⟩) :
    Reaches source (ts ++ [⟨kind, String.ofList (c :: front), r.line⟩])
      (advance r ⟨kind, String.ofList (c :: front), r.line⟩ next) after := by
  have hstep := h.step hl
  simp only [cut, List.take_left, List.drop_left] at hstep
  exact hstep

/-- A lexeme that cannot be read is the end of the run and the error of the source. -/
theorem tokenize_of_lexeme_error (source : String) (ts : List Token) (r : Reading) (c : Char)
    (cs : List Char) (fault : Fault) (h : Reaches source.toList ts r (c :: cs))
    (hl : lexeme r c cs = .error fault) :
    tokenize source = .error ⟨fault, r.line⟩ ∧
      ∀ t r' rest, ¬ Reaches source.toList (ts ++ [t]) r' rest := by
  constructor
  · rw [tokenize, tokens_eq_of_reaches _ ts r _ h, tokens_step_error r c cs fault hl]
    rfl
  · intro t r' rest h'
    obtain ⟨s, d, ds, l, hs, hl', -, -, -⟩ := reaches_snoc _ ts t r' rest h'
    obtain ⟨rfl, hrest⟩ := reaches_unique _ ts r s _ _ h hs
    cases hrest
    rw [hl] at hl'
    cases hl'

theorem isPrefix_of_reaches (source : String) (ts us : List Token) (r : Reading)
    (rest : List Char) (h : Reaches source.toList ts r rest) (hok : tokenize source = .ok us) :
    ts <+: us := by
  have htokens := tokens_of_tokenize source us hok
  rw [tokens_eq_of_reaches _ ts r rest h] at htokens
  cases hrest : tokens r rest with
  | error e =>
    rw [hrest] at htokens
    cases htokens
  | ok post =>
    rw [hrest] at htokens
    cases htokens
    exact List.prefix_append ts post

end Lexer

namespace Region

variable {region : Region} {body inside closing after inside' closing' after' : List Char}

theorem Ends.closing_unique (h : region.Ends inside closing after)
    (h' : region.Ends inside closing' after') (hrest : closing ++ after = closing' ++ after') :
    closing = closing' := by
  cases h with
  | text | lineBreak | tag | block | quote => cases h' <;> rfl
  | @label label _ indent _ hlabel _ hindent hafter =>
    cases h' with
    | @label _ _ indent' _ _ _ hindent' hafter' =>
      have hmarker := (markerLength?_eq_some_iff hlabel _ _).2
        ⟨indent, after, rfl, hindent, hafter, rfl⟩
      have hmarker' := (markerLength?_eq_some_iff hlabel _ _).2
        ⟨indent', after', rfl, hindent', hafter', rfl⟩
      rw [hrest, hmarker'] at hmarker
      exact (List.append_inj hrest (Option.some.inj hmarker).symm).1

/-- A region has one first end. -/
theorem FirstEnd.unique (h : region.FirstEnd body inside closing after)
    (h' : region.FirstEnd body inside' closing' after') :
    inside = inside' ∧ closing = closing' ∧ after = after' := by
  have hlength : inside.length = inside'.length :=
    Nat.le_antisymm (h.first _ _ _ h'.split h'.ends) (h'.first _ _ _ h.split h.ends)
  have hsplit := h.split.symm.trans h'.split
  rw [List.append_assoc, List.append_assoc] at hsplit
  obtain ⟨rfl, hrest⟩ := List.append_inj hsplit hlength
  obtain rfl := h.ends.closing_unique h'.ends hrest
  exact ⟨rfl, rfl, List.append_cancel_left hrest⟩

end Region

open Lexer Region

/-- Where a region opens in code, either it ends at its first end, as one token after which
the same code goes on, or it has no end and the source is refused for it, on its line. -/
theorem tokenize_regions (source : String) (ts : List Token) (r : Reading)
    (waiting : List Interruption) (region : Region) (opening body : List Char)
    (hr : Reaches source.toList ts r (opening ++ body)) (hmode : r.mode = .code waiting)
    (hopens : region.Opens opening body) :
    (region.Endless body ∨ ∃ inside closing after, region.FirstEnd body inside closing after) ∧
    (∀ inside closing after, region.FirstEnd body inside closing after →
      ∃ t r', Reaches source.toList (ts ++ [t]) r' after ∧ r'.mode = .code waiting ∧
        t.text = String.ofList (opening ++ inside ++ closing) ∧ t.kind ∈ region.kinds ∧
        t.line = r.line ∧ ∀ us, tokenize source = .ok us → ts ++ [t] <+: us) ∧
    (region.Endless body ↔
      ∃ fault, region.fault? = some fault ∧ tokenize source = .error ⟨fault, r.line⟩ ∧
        ∀ t r' rest, ¬ Reaches source.toList (ts ++ [t]) r' rest) := by
  obtain ⟨c, cs, found, rfl, hfound, hreads⟩ := code_region r waiting hopens
  have hlexeme : lexeme r c (cs ++ body) = code r waiting c (cs ++ body) := by
    rw [lexeme, hmode]
  rw [← hlexeme] at hreads
  generalize hl : lexeme r c (cs ++ body) = outcome at hreads
  cases hreads with
  | @token kind n hkind =>
    obtain ⟨inside, closing, after, hfirst, rfl⟩ := hfound
    have hsplit : cs ++ body = (cs ++ inside ++ closing) ++ after := by
      rw [hfirst.split]
      simp only [List.append_assoc]
    have hlength : cs.length + inside.length + closing.length =
        (cs ++ inside ++ closing).length := by
      simp only [List.length_append]
    rw [List.cons_append, hsplit] at hr
    rw [hsplit, hlength] at hl
    have hstep := reaches_front source.toList ts r c _ after kind _ hr hl
    refine ⟨.inr ⟨inside, closing, after, hfirst⟩, ?_, ?_⟩
    · intro inside' closing' after' hfirst'
      obtain ⟨rfl, rfl, rfl⟩ := hfirst.unique hfirst'
      exact ⟨_, _, hstep, rfl, rfl, hkind, rfl,
        fun us hus => isPrefix_of_reaches source _ us _ _ hstep hus⟩
    · constructor
      · intro hendless
        exact absurd hfirst.ends (hendless _ _ _ hfirst.split)
      · rintro ⟨fault, -, -, hno⟩
        exact absurd hstep (hno _ _ _)
  | @fault fault hfault =>
    refine ⟨.inl hfound, ?_, ?_⟩
    · intro inside closing after hfirst
      exact absurd hfirst.ends (hfound _ _ _ hfirst.split)
    · exact iff_of_true hfound
        ⟨fault, hfault, tokenize_of_lexeme_error source ts r c _ fault hr hl⟩

theorem tokenize_regions_nowdoc :
    ∃ t r', Reaches "<?php b<<< 'E'\r\n'\x7b$x?> */\r E1\n\tE;".toList
        [⟨.openTag, "<?php ", 1⟩, t] r' [';'] ∧ r'.mode = .code [] ∧
      t.text = "b<<< 'E'\r\n'\x7b$x?> */\r E1\n\tE" ∧ t.kind = .stringLiteral ∧ t.line = 1 := by
  have hlabel : SoundLabel ['E'] := ⟨rfl, by simp [isLabelChar, isLabelStart]⟩
  have hopens : (nowdoc ['E'] hlabel).Opens "b<<< 'E'\r\n".toList
      "'\x7b$x?> */\r E1\n\tE;".toList :=
    @Opens.label ['b'] [' '] ['E'] ['\r', '\n'] _ (.inr (.inl rfl)) (by simp [isIndent]) hlabel
      (.both _)
  have hr := reaches_front "<?php b<<< 'E'\r\n'\x7b$x?> */\r E1\n\tE;".toList [] {} '<'
    "?php ".toList ("b<<< 'E'\r\n".toList ++ "'\x7b$x?> */\r E1\n\tE;".toList) .openTag
    (.code []) .start rfl
  have hends : nowdocEnd? ['E'] true 0 "'\x7b$x?> */\r E1\n\tE;".toList = some 16 := rfl
  have hfound := found_nowdoc hlabel 0 0 true (passed_nil "'\x7b$x?> */\r E1\n\tE;".toList) rfl
    (iff_of_true rfl (.inl rfl))
  rw [hends] at hfound
  obtain ⟨inside, closing, after, hfirst, hn⟩ := hfound
  obtain ⟨t, r', hreaches, hmode, htext, hkind, hline, -⟩ :=
    (tokenize_regions _ _ _ [] _ _ _ hr rfl hopens).2.1 inside closing after hfirst
  have hsplit : inside ++ closing ++ after =
      "'\x7b$x?> */\r E1\n\tE".toList ++ [';'] := hfirst.split.symm
  have hlength : (inside ++ closing).length = 16 := by
    rw [List.length_append]
    omega
  obtain ⟨hcovered, rfl⟩ := List.append_inj hsplit hlength
  rw [List.append_assoc, hcovered] at htext
  exact ⟨t, r', hreaches, hmode, htext, List.mem_singleton.1 hkind, hline⟩

end Redeclaration
