import Redeclaration.Proofs.Token.Trivia

/-!
What the word enum sees of the text behind it. It looks over trivia by rules of its
own, before the lexer cuts that text into tokens. Main statement: the word is a keyword
exactly if trivia and another label follow it, unless a line comment is cut short.
-/

namespace Redeclaration

open Text

/-- A text starts with a label that may name an enumeration: it is neither of the words
that go on with the head of a class. -/
def startsTypeName (cs : List Char) : Bool :=
  startsLabel cs && !sameWord (cs.takeWhile isLabelChar) "extends".toList &&
    !sameWord (cs.takeWhile isLabelChar) "implements".toList

def Token.isLineComment (t : Token) : Bool :=
  t.kind == .comment && startsLineComment t.text.toList

/-- Trivia follows, and then a token that starts with the name of an enumeration. -/
def NamesEnum (ts : List Token) : Prop :=
  ∃ gap v rest, ts = gap ++ v :: rest ∧ gap ≠ [] ∧ (∀ u ∈ gap, u.isTrivia = true) ∧
    startsTypeName v.text.toList = true

/-- A line comment ends at the next token, which does not start with a line feed: it is
a closing tag, or starts with a carriage return alone. -/
def cutsShort (u v : Token) : Bool :=
  u.isLineComment && (v.kind == .closeTag ||
    v.text.toList.head? == some '\r' && v.text.toList.tail.head? != some '\n')

/-- What follows the first line comment that is cut short, if the trivia at the start of
a list has one. -/
def afterCut? : List Token → Option (List Token)
  | u :: v :: ts =>
    if !u.isTrivia then none
    else if cutsShort u v then some (v :: ts)
    else afterCut? (v :: ts)
  | _ => none

namespace Lexer

/-! What the word sees of a run of trivia. -/

/-- A token of trivia is a line comment exactly if one starts at its place in the text. -/
theorem cut_isLineComment (r : Reading) (l : Lexeme) (c : Char) (cs : List Char)
    (h : ReadsTrivia c cs l) :
    (cut r l c cs).isLineComment = startsLineComment (c :: cs) := by
  unfold Token.isLineComment
  rw [cut_text]
  cases h with
  | blanks hblank hkind =>
    rw [startsLineComment_blank c cs hblank, cut, hkind]
    rfl
  | line hline hkind hmore =>
    rw [hline, hmore, startsLineComment_take c cs hline, cut, hkind]
    rfl
  | block n hblock _ hmore =>
    obtain ⟨rest, hrest⟩ := List.isPrefixOf_iff_prefix.1 hblock
    cases hrest
    rw [hmore]
    simp [startsLineComment, List.isPrefixOf]

theorem kind_closeTag (r : Reading) (waiting : List Interruption) (c : Char) (cs : List Char)
    (l : Lexeme) (h : code r waiting c cs = .ok l) (htag : startsCloseTag (c :: cs) = true) :
    l.kind = .closeTag := by
  obtain ⟨rest, hrest⟩ := List.isPrefixOf_iff_prefix.1 htag
  cases hrest
  cases code_reads r waiting _ _ l h with
  | openBrace hc | closeBrace hc => cases hc
  | closeTag _ hkind => exact hkind
  | block hblock => cases hblock
  | string o ho => cases ho
  | plain hnone =>
    rw [htag] at hnone
    cases hnone

/-- The tokens are what the lexer cuts their text into, if it starts in code. -/
def CodeRun (waiting : List Interruption) (ts : List Token) : Prop :=
  ∃ r, r.mode = .code waiting ∧ tokens r (textOf ts) = .ok ts

theorem codeRun_cons (waiting : List Interruption) (u : Token) (ts : List Token)
    (h : CodeRun waiting (u :: ts)) :
    ∃ r c cs l, textOf (u :: ts) = c :: cs ∧ code r waiting c cs = .ok l ∧ u = cut r l c cs ∧
      textOf ts = cs.drop l.more ∧ (l.next = .code waiting → CodeRun waiting ts) := by
  obtain ⟨r, hm, hrun⟩ := h
  obtain ⟨c, cs, l, hcs, hl, hu, hrest⟩ := tokens_cons r _ u ts hrun
  have htext := textOf_tokens _ _ ts hrest
  rw [lexeme, hm] at hl
  refine ⟨r, c, cs, l, hcs, hl, hu, htext, ?_⟩
  intro hnext
  rw [← htext] at hrest
  exact ⟨_, hnext, hrest⟩

/-- Where a line comment is not cut short, the word may as well end it where the lexer
does. -/
theorem dropTrivia_line (waiting : List Interruption) (u v : Token) (ts : List Token)
    (cs : List Char) (h : CodeRun waiting (v :: ts))
    (hcs : textOf (v :: ts) = cs.drop (lineCommentRest cs)) (hu : u.isLineComment = true)
    (hcut : cutsShort u v = false) :
    dropTrivia ((textOf (v :: ts)).dropWhile (· != '\n')) = dropTrivia (textOf (v :: ts)) := by
  obtain ⟨r, d, ds, l, hds, hl, rfl, -⟩ := codeRun_cons waiting v ts h
  rw [cutsShort, hu, Bool.true_and, Bool.or_eq_false_iff, cut_text] at hcut
  have hstop := lineComment_stop cs
  rw [← hcs, hds] at hstop
  rw [hds]
  rcases hstop with hstop | ⟨d', ds', hstop, rfl | rfl⟩ | hstop
  · cases hstop
  · cases hstop
    rfl
  · -- A line feed comes next in the same token, and the return before it is a blank.
    cases hstop
    have hfeed : (ds.take l.more).head? = some '\n' := by simpa using hcut.2
    obtain ⟨es, hes⟩ := List.head?_eq_some_iff.1 hfeed
    have hsplit : ds = '\n' :: (es ++ ds.drop l.more) := by
      rw [← List.cons_append, ← hes, List.take_append_drop]
    rw [hsplit]
    exact (dropTrivia_blank '\r' _ rfl).symm
  · have hkind := kind_closeTag r waiting d ds l hl hstop
    rw [cut, hkind] at hcut
    cases hcut.1

/-- One token at the start of a run in code: trivia, after which the run goes on in code,
or nothing that the word goes over. -/
theorem codeRun_trivia (waiting : List Interruption) (u : Token) (ts : List Token)
    (h : CodeRun waiting (u :: ts)) :
    u.isTrivia = false ∧ triviaLength (textOf (u :: ts)) = 0 ∨
      u.isTrivia = true ∧ CodeRun waiting ts ∧ ∃ c cs l, textOf (u :: ts) = c :: cs ∧
        textOf ts = cs.drop l.more ∧ u.isLineComment = startsLineComment (c :: cs) ∧
        ReadsTrivia c cs l := by
  obtain ⟨r, c, cs, l, hcs, hl, rfl, htext, hrest⟩ := codeRun_cons waiting u ts h
  rcases code_trivia r waiting c cs l hl with ⟨hkind, hnext, hreads⟩ | ⟨hkind, hzero⟩
  · right
    exact ⟨hkind, hrest hnext, c, cs, l, hcs, htext, cut_isLineComment r l c cs hreads, hreads⟩
  · left
    rw [hcs]
    exact ⟨hkind, hzero⟩

theorem afterCut?_of_not_trivia (u : Token) (ts : List Token) (h : u.isTrivia = false) :
    afterCut? (u :: ts) = none := by
  cases ts with
  | nil => rfl
  | cons v ts => simp [afterCut?, h]

/-- The word sees what follows the trivia of the lexer, unless a line comment is cut short.
In that case it sees what follows the trivia after the next line feed. -/
theorem dropTrivia_tokens (waiting : List Interruption) (ts : List Token)
    (h : CodeRun waiting ts) :
    dropTrivia (textOf ts) = match afterCut? ts with
      | none => textOf (ts.dropWhile (·.isTrivia))
      | some rest => dropTrivia ((textOf rest).dropWhile (· != '\n')) := by
  induction ts with
  | nil => exact dropTrivia_of_zero [] rfl
  | cons u ts ih =>
    rcases codeRun_trivia waiting u ts h with
      ⟨hu, hzero⟩ | ⟨hu, hrest, c, cs, l, hcs, hts, hline, hreads⟩
    · rw [afterCut?_of_not_trivia u ts hu, dropTrivia_of_zero _ hzero,
        List.dropWhile_cons_of_neg (by rw [hu]; exact Bool.false_ne_true)]
    rw [hcs, List.dropWhile_cons_of_pos hu]
    have ih := ih hrest
    cases hcomment : startsLineComment (c :: cs) with
    | false =>
      -- Blanks and block comments end at the same place for both.
      rw [hcomment] at hline
      rw [dropTrivia_of_not_line c cs l hreads hcomment, ← hts, ih]
      cases ts with
      | nil => rfl
      | cons v ts => simp [afterCut?, hu, cutsShort, hline]
    | true =>
      rw [hcomment] at hline
      rw [more_of_line c cs l hreads hcomment] at hts
      rw [dropTrivia_lineComment c cs hcomment, ← hts]
      cases ts with
      | nil => exact ih
      | cons v ts =>
        cases hcut : cutsShort u v with
        | true => simp [afterCut?, hu, hcut]
        | false =>
          rw [dropTrivia_line waiting u v ts cs hrest hts hline hcut, ih]
          simp [afterCut?, hu, hcut]

/-- After trivia a run is still in code. -/
theorem codeRun_after_trivia (waiting : List Interruption) (gap rest : List Token)
    (h : CodeRun waiting (gap ++ rest)) (hgap : ∀ u ∈ gap, u.isTrivia = true) :
    CodeRun waiting rest := by
  induction gap with
  | nil => exact h
  | cons u gap ih =>
    rcases codeRun_trivia waiting u (gap ++ rest) h with ⟨hu, -⟩ | ⟨-, hrest, -⟩
    · rw [hgap u List.mem_cons_self] at hu
      cases hu
    · exact ih hrest (fun v hv => hgap v (List.mem_cons_of_mem u hv))

/-! The label behind the trivia. -/

theorem runLength_label_le (cs : List Char) : runLength isLabelChar cs ≤ nameEnd 0 cs := by
  induction cs with
  | nil => exact Nat.le_refl 0
  | cons c cs ih =>
    by_cases hc : isLabelChar c = true
    · rw [runLength, List.takeWhile_cons_of_pos hc, List.length_cons, nameEnd,
        if_pos (by rw [hc]; rfl), nameEnd_eq]
      unfold runLength at ih
      omega
    · rw [runLength, List.takeWhile_cons_of_neg hc]
      exact Nat.zero_le _

theorem not_digit_of_labelStart (c : Char) (h : isLabelStart c = true) : c.isDigit = false := by
  rw [← Bool.not_eq_true]
  intro hdigit
  have hle : c.toNat ≤ 57 := by
    rw [Char.isDigit, Bool.and_eq_true, decide_eq_true_iff, decide_eq_true_iff] at hdigit
    exact hdigit.2
  simp only [isLabelStart, Char.isAlpha, Char.isUpper, Char.isLower, Bool.or_eq_true,
    Bool.and_eq_true, decide_eq_true_iff, beq_iff_eq] at h
  rcases h with (rfl | ⟨hc, -⟩ | ⟨hc, -⟩) | hc
  · cases hdigit
  · have hge : 65 ≤ c.toNat := hc
    omega
  · have hge : 97 ≤ c.toNat := hc
    omega
  · omega

theorem ne_of_labelStart (c d : Char) (hc : isLabelStart c = true) (hd : isLabelStart d = false) :
    c ≠ d := by
  rintro rfl
  rw [hc] at hd
  cases hd

theorem plain_of_labelStart (member : Bool) (c : Char) (cs : List Char)
    (h : isLabelStart c = true) : (plain member c cs).2 = nameEnd 0 cs := by
  have hne (d : Char) (hd : isLabelStart d = false) := ne_of_labelStart c d h hd
  have hblank : isBlank c = false := by
    simp [isBlank, hne ' ' rfl, hne '\t' rfl, hne '\n' rfl, hne '\r' rfl]
  have hcomment : startsLineComment (c :: cs) = false := by
    simp [startsLineComment, List.isPrefixOf, (hne '/' rfl).symm, (hne '#' rfl).symm]
  unfold plain
  simp [hblank, hcomment, not_digit_of_labelStart c h, hne '$' rfl, hne '.' rfl, hne '\\' rfl, h]

/-- A lexeme of code that starts with a label holds the whole of it. -/
theorem label_le_more (r : Reading) (waiting : List Interruption) (c : Char) (cs : List Char)
    (l : Lexeme) (h : code r waiting c cs = .ok l) (hc : isLabelStart c = true) :
    runLength isLabelChar cs ≤ l.more := by
  cases code_reads r waiting c cs l h with
  | openBrace hbrace | closeBrace hbrace =>
    rw [hbrace] at hc
    cases hc
  | closeTag hstarts | block hstarts =>
    obtain ⟨rest, hrest⟩ := List.isPrefixOf_iff_prefix.1 hstarts
    cases hrest
    cases hc
  | string o ho =>
    -- Only the letter before a string is a label, and the mark of the string ends it.
    rcases opening?_cases c cs o ho with ⟨-, d, ds, rfl, hd⟩ | rfl | rfl | rfl | rfl
    · have hmark : isLabelChar d = false := by rcases hd with rfl | rfl | rfl <;> rfl
      rw [runLength, List.takeWhile_cons_of_neg (by rw [hmark]; exact Bool.false_ne_true)]
      exact Nat.zero_le _
    all_goals cases hc
  | plain _ _ _ hmore =>
    rw [hmore, plain_of_labelStart r.member c cs hc]
    exact runLength_label_le cs

/-- Whether a token starts with the name of an enumeration can be told from the text that
starts with it. -/
theorem startsTypeName_textOf (waiting : List Interruption) (v : Token) (rest : List Token)
    (h : CodeRun waiting (v :: rest)) :
    startsTypeName (textOf (v :: rest)) = startsTypeName v.text.toList := by
  obtain ⟨r, c, cs, l, hcs, hl, rfl, -⟩ := codeRun_cons waiting v rest h
  rw [hcs, cut_text]
  by_cases hc : isLabelStart c = true
  · have hle := label_le_more r waiting c cs l hl hc
    have hlabel : (cs.take l.more).takeWhile isLabelChar = cs.takeWhile isLabelChar := by
      rw [← List.take_takeWhile]
      exact List.take_of_length_le hle
    simp only [startsTypeName, startsLabel, List.head?_cons, List.takeWhile_cons, hlabel]
  · simp [startsTypeName, startsLabel, hc]

theorem enumFollows_eq (cs : List Char) :
    enumFollows cs = (triviaLength cs != 0 && startsTypeName (dropTrivia cs)) := by
  simp only [enumFollows, startsTypeName, Bool.and_assoc]

theorem triviaLength_tokens (waiting : List Interruption) (u : Token) (ts : List Token)
    (h : CodeRun waiting (u :: ts)) :
    triviaLength (textOf (u :: ts)) ≠ 0 ↔ u.isTrivia = true := by
  rcases codeRun_trivia waiting u ts h with ⟨hu, hzero⟩ | ⟨hu, -, c, cs, l, hcs, -, -, hreads⟩
  · simp [hu, hzero]
  · rw [hcs]
    exact iff_of_true (triviaLength_of_readsTrivia c cs l hreads) hu

theorem not_trivia_of_startsTypeName (waiting : List Interruption) (v : Token)
    (rest : List Token) (h : CodeRun waiting (v :: rest))
    (hv : startsTypeName (textOf (v :: rest)) = true) : v.isTrivia = false := by
  rw [← Bool.not_eq_true, ← triviaLength_tokens waiting v rest h, not_not]
  cases hcs : textOf (v :: rest) with
  | nil => rfl
  | cons c cs =>
    rw [hcs, startsTypeName, Bool.and_eq_true, Bool.and_eq_true] at hv
    have hstart : isLabelStart c = true := hv.1.1
    apply triviaLength_other
    have hne (d : Char) (hd : isLabelStart d = false) := ne_of_labelStart c d hstart hd
    simp [hne ' ' rfl, hne '\t' rfl, hne '\n' rfl, hne '\r' rfl, hne '/' rfl, hne '#' rfl]

/-- The word finds a name behind the trivia of the lexer exactly if there is one. -/
theorem namesEnum_iff (waiting : List Interruption) (ts : List Token) (h : CodeRun waiting ts) :
    NamesEnum ts ↔ triviaLength (textOf ts) ≠ 0 ∧
      startsTypeName (textOf (ts.dropWhile (·.isTrivia))) = true := by
  constructor
  · rintro ⟨gap, v, rest, rfl, hne, hgap, hname⟩
    have hrest := codeRun_after_trivia waiting gap (v :: rest) h hgap
    rw [← startsTypeName_textOf waiting v rest hrest] at hname
    have hv := not_trivia_of_startsTypeName waiting v rest hrest hname
    rw [List.dropWhile_append_of_pos hgap,
      List.dropWhile_cons_of_neg (by rw [hv]; exact Bool.false_ne_true)]
    refine ⟨?_, hname⟩
    cases gap with
    | nil => exact absurd rfl hne
    | cons u gap => exact (triviaLength_tokens waiting u _ h).2 (hgap u List.mem_cons_self)
  · rintro ⟨htrivia, hname⟩
    have hsplit : ts.takeWhile (·.isTrivia) ++ ts.dropWhile (·.isTrivia) = ts :=
      List.takeWhile_append_dropWhile
    have hgap (u : Token) (hu : u ∈ ts.takeWhile (·.isTrivia)) : u.isTrivia = true :=
      List.mem_takeWhile_imp hu
    have hrest : CodeRun waiting (ts.dropWhile (·.isTrivia)) := by
      apply codeRun_after_trivia waiting _ _ _ hgap
      rwa [hsplit]
    cases hv : ts.dropWhile (·.isTrivia) with
    | nil =>
      rw [hv] at hname
      cases hname
    | cons v rest =>
      rw [hv] at hname hrest hsplit
      rw [startsTypeName_textOf waiting v rest hrest] at hname
      refine ⟨_, v, rest, hsplit.symm, ?_, hgap, hname⟩
      cases ts with
      | nil => cases hv
      | cons u ts =>
        rw [triviaLength_tokens waiting u ts h] at htrivia
        simp [htrivia]

/-- Where no line comment is cut short, the word and the lexer see the same name. -/
theorem enumFollows_of_none (waiting : List Interruption) (ts : List Token)
    (h : CodeRun waiting ts) (hcut : afterCut? ts = none) :
    enumFollows (textOf ts) = true ↔ NamesEnum ts := by
  have hdrop := dropTrivia_tokens waiting ts h
  simp only [hcut] at hdrop
  rw [enumFollows_eq, hdrop, Bool.and_eq_true, bne_iff_ne, namesEnum_iff waiting ts h]

/-- Behind a line comment that is cut short, the word sees the text from the next line
feed on. -/
theorem enumFollows_of_some (waiting : List Interruption) (ts rest : List Token)
    (h : CodeRun waiting ts) (hcut : afterCut? ts = some rest) :
    enumFollows (textOf ts) = enumFollows ((textOf rest).dropWhile (· != '\n')) := by
  have htrivia : triviaLength (textOf ts) ≠ 0 := by
    cases ts with
    | nil => cases hcut
    | cons u ts =>
      rw [triviaLength_tokens waiting u ts h, ← Bool.not_eq_false]
      intro hu
      rw [afterCut?_of_not_trivia u ts hu] at hcut
      cases hcut
  have hdrop := dropTrivia_tokens waiting ts h
  simp only [hcut] at hdrop
  rw [enumFollows_eq, enumFollows_eq, hdrop, bne_iff_ne.2 htrivia, Bool.true_and]
  cases hline : (textOf rest).dropWhile (· != '\n') with
  | nil =>
    rw [dropTrivia_of_zero [] rfl]
    rfl
  | cons c cs =>
    -- The line feed is trivia itself.
    have hfeed := List.head?_dropWhile_not (· != '\n') (textOf rest)
    rw [hline, List.head?_cons] at hfeed
    have hc : c = '\n' := by simpa using hfeed
    have hblank : isBlank c = true := by rw [hc]; rfl
    rw [triviaLength_blank c cs hblank]
    rfl

end Lexer

/-- The word enum is a keyword or a name. It is a keyword exactly if trivia and then the
name of an enumeration follow it, as long as no line comment of the trivia is cut short.
Otherwise the text behind the comment, up to its next line feed, is lost on the word. -/
theorem tokenize_enum (source : String) (pre post : List Token) (t : Token)
    (h : tokenize source = .ok (pre ++ t :: post)) (ht : t.kind.isLabel = true)
    (hword : t.word = "enum") (hmember : ¬ AfterMember pre) :
    (t.kind = .keyword .enumKw ∨ t.kind = .name) ∧
    (afterCut? post = none → (t.kind = .keyword .enumKw ↔ NamesEnum post)) ∧
    (∀ rest, afterCut? post = some rest → (t.kind = .keyword .enumKw ↔
      enumFollows ((Lexer.textOf rest).dropWhile (· != '\n')) = true)) := by
  obtain ⟨r, c, cs, l, waiting, hpre, hl, rfl, hlabel⟩ :=
    Lexer.label_of_tokenize source pre post t h ht
  -- The run goes on in code after the word.
  have hrun := Lexer.tokens_of_tokenize source _ h
  rw [List.append_cons] at hrun
  have hpost := Lexer.tokens_of_reaches _ _ post _ _ (hpre.step hl) hrun
  have htext := Lexer.textOf_tokens _ _ post hpost
  rw [← htext] at hpost
  have hcode : Lexer.CodeRun waiting post := ⟨_, hlabel.next, hpost⟩
  have hkind : (Lexer.cut r l c cs).kind =
      if enumFollows (Lexer.textOf post) then .keyword .enumKw else .name := by
    have hno : ¬ r.member = true := fun htrue =>
      hmember ((Lexer.reaches_member _ pre r _ hpre).1 htrue)
    have hkind : (Lexer.cut r l c cs).kind = _ := hlabel.kind
    rw [hkind, if_neg hno, htext]
    apply wordKind_enum
    rw [← hword, Token.word, Lexer.cut_text]
  have hiff : (Lexer.cut r l c cs).kind = .keyword .enumKw ↔
      enumFollows (Lexer.textOf post) = true := by
    rw [hkind]
    cases enumFollows (Lexer.textOf post) <;> simp
  refine ⟨?_, ?_, ?_⟩
  · rw [hkind]
    split
    · exact .inl rfl
    · exact .inr rfl
  · intro hcut
    rw [hiff, Lexer.enumFollows_of_none waiting post hcode hcut]
  · intro rest hcut
    rw [hiff, Lexer.enumFollows_of_some waiting post rest hcode hcut]

theorem tokenize_enum_gap :
    ∃ pre t post, tokenize "<?php\nENUM # a\r\n/*b*/Suit: int\x7b\x7d" = .ok (pre ++ t :: post) ∧
      t.kind.isLabel = true ∧ t.word = "enum" ∧ ¬ AfterMember pre ∧ afterCut? post = none ∧
      t.kind = .keyword .enumKw ∧ NamesEnum post := by
  have h : tokenize "<?php\nENUM # a\r\n/*b*/Suit: int\x7b\x7d" = .ok
      ([⟨.openTag, "<?php\n", 1⟩] ++ ⟨.keyword .enumKw, "ENUM", 2⟩ ::
        [⟨.whitespace, " ", 2⟩, ⟨.comment, "# a", 2⟩, ⟨.whitespace, "\r\n", 2⟩,
          ⟨.comment, "/*b*/", 3⟩, ⟨.name, "Suit", 3⟩, ⟨.punct, ":", 3⟩, ⟨.whitespace, " ", 3⟩,
          ⟨.name, "int", 3⟩, ⟨.openBrace, "\x7b", 3⟩, ⟨.closeBrace, "\x7d", 3⟩]) :=
    tokenize_eq_ok _ _ (by decide +kernel)
  have hno : ¬ AfterMember [⟨.openTag, "<?php\n", 1⟩] := by
    rw [← List.nil_append [_], afterMember_snoc, if_neg (by decide)]
    decide
  have hnames := ((tokenize_enum _ _ _ _ h rfl (by decide) hno).2.1 (by decide +kernel)).1 rfl
  exact ⟨_, _, _, h, rfl, by decide, hno, by decide +kernel, rfl, hnames⟩

/-- A line comment that ends with a carriage return alone hides the name from the word. -/
theorem return_hides_enum :
    ∃ pre t post, tokenize "<?php enum //x\rSuit\x7b\x7d" = .ok (pre ++ t :: post) ∧
      t.kind.isLabel = true ∧ t.word = "enum" ∧ ¬ AfterMember pre ∧ NamesEnum post ∧
      t.kind = .name := by
  have h : tokenize "<?php enum //x\rSuit\x7b\x7d" = .ok
      ([⟨.openTag, "<?php ", 1⟩] ++ ⟨.name, "enum", 1⟩ ::
        ([⟨.whitespace, " ", 1⟩, ⟨.comment, "//x", 1⟩, ⟨.whitespace, "\r", 1⟩] ++
          ⟨.name, "Suit", 2⟩ :: [⟨.openBrace, "\x7b", 2⟩, ⟨.closeBrace, "\x7d", 2⟩])) :=
    tokenize_eq_ok _ _ (by decide +kernel)
  have hno : ¬ AfterMember [⟨.openTag, "<?php ", 1⟩] := by
    rw [← List.nil_append [_], afterMember_snoc, if_neg (by decide)]
    decide
  refine ⟨_, _, _, h, rfl, by decide, hno, ?_, rfl⟩
  exact ⟨_, _, _, rfl, by decide, by decide, by decide +kernel⟩

end Redeclaration
