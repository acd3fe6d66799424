import Redeclaration.Proofs.Text.Search
import Redeclaration.Proofs.Token.Interpolation

/-!
The sections of a source: text outside of the tags, an opening tag, code and a
closing tag, over and over. Only the word that halts the code breaks this order,
since the rest of the source is data then. Main statement: the tokens stand in
sections, up to that word and what it asks for, and no text before it hides an
opening tag.
-/

namespace Redeclaration

open Text

/-- Text outside of the tags, and the tags themselves. -/
def Kind.isFrame : Kind → Bool
  | inlineHtml | openTag | closeTag => true
  | _ => false

theorem Kind.isFrame_of_isPlain (k : Kind) (h : k.isPlain = true) : k.isFrame = false := by
  cases k <;> first | rfl | cases h

/-- A section up to its code: text if there is some, an opening tag, and tokens that
are neither text nor tags. -/
def OpenSection (ks : List Kind) : Prop :=
  ∃ text code, ks = text ++ .openTag :: code ∧ (text = [] ∨ text = [.inlineHtml]) ∧
    ∀ k ∈ code, k.isFrame = false

/-- Sections that all have their closing tag. -/
def ClosedSections (sections : List (List Kind)) : Prop :=
  ∀ s ∈ sections, ∃ front, OpenSection front ∧ s = front ++ [.closeTag]

/-- Sections of which the last one goes on. -/
def OpenSections (ks : List Kind) : Prop :=
  ∃ closed last, ks = closed.flatten ++ last ∧ ClosedSections closed ∧ OpenSection last

/-- A list of kinds in sections, of which only the last one may lack its closing tag,
or end with the text before its opening tag. -/
def InSections (ks : List Kind) : Prop :=
  ∃ closed last, ks = closed.flatten ++ last ∧ ClosedSections closed ∧
    (last = [] ∨ last = [.inlineHtml] ∨ OpenSection last)

/-- The place between two parts of a token list is inside of an interpolation: a brace
that starts one stands before the place, and the partner of that brace after it. -/
def Interpolated (pre post : List Token) : Prop :=
  ∃ before o inner later c after, pre = before ++ o :: inner ∧ post = later ++ c :: after ∧
    o.kind.opensInterpolation = true ∧ Partners o (inner ++ later) c

/-- A token at which code ends once that is asked for: a closing tag, or a semicolon
outside of interpolations. -/
def EndsCode (pre : List Token) (t : Token) (post : List Token) : Prop :=
  t.kind = .closeTag ∨ t.kind = .punct ∧ t.text = ";" ∧ ¬ Interpolated pre (t :: post)

/-- The first token `e` at which code ends after the word `w` that asks for it, with
`between` between the two. -/
structure Halts (before : List Token) (w : Token) (between : List Token) (e : Token)
    (post : List Token) : Prop where
  word : Lexer.requestsHalt w = true
  ends : EndsCode (before ++ w :: between) e post
  first : ∀ sooner u later, between = sooner ++ u :: later →
    ¬ EndsCode (before ++ w :: sooner) u (later ++ e :: post)

/-- An opening tag starts at an offset: the short one, or the letters of the long one
in any case with a blank, a form feed or the end of the source after them. -/
def OpenTagAt (source : List Char) (o : Nat) : Prop :=
  ['<', '?', '='] <+: source.drop o ∨
    ∃ word rest, source.drop o = ['<', '?'] ++ (word ++ rest) ∧
      sameWord word ['p', 'h', 'p'] = true ∧ ∀ c ∈ rest.head?, isAsciiSpace c = true

theorem length_of_sameWord (a b : List Char) (h : sameWord a b = true) : a.length = b.length := by
  have hlower := congrArg List.length (beq_iff_eq.1 h)
  simpa using hlower

theorem startsOpenTag_iff (source : List Char) (o : Nat) :
    startsOpenTag (source.drop o) = true ↔ OpenTagAt source o := by
  unfold OpenTagAt
  generalize source.drop o = cs
  rw [startsOpenTag, Bool.or_eq_true, startsEchoTag, List.isPrefixOf_iff_prefix]
  apply or_congr_right
  simp only [startsLongTag, Bool.and_eq_true, List.isPrefixOf_iff_prefix]
  constructor
  · rintro ⟨⟨⟨rest, rfl⟩, hword⟩, hspace⟩
    refine ⟨rest.take 3, rest.drop 3, by simp, hword, ?_⟩
    simpa [Option.all_eq_true] using hspace
  · rintro ⟨word, rest, rfl, hword, hspace⟩
    have hlength : word.length = 3 := length_of_sameWord word _ hword
    have htake : (['<', '?'] ++ (word ++ rest)).drop 2 = word ++ rest := rfl
    have hdrop : (['<', '?'] ++ (word ++ rest)).drop 5 = (word ++ rest).drop 3 := rfl
    rw [htake, hdrop, List.take_left' hlength, List.drop_left' hlength]
    exact ⟨⟨⟨word ++ rest, rfl⟩, hword⟩, (Option.all_eq_true _ _).2 hspace⟩

namespace Mode

/-- Code, or a string in code. -/
def inCode : Mode → Bool
  | code _ | string _ _ => true
  | html | data => false

end Mode

namespace Lexer

/-! From one part of a section to the next. -/

/-- What the next lexeme does to the section that is being read. -/
inductive Crossing (r : Reading) (c : Char) (cs : List Char) (l : Lexeme) : Prop
  /-- Text without an opening tag in it, up to one or to the end. -/
  | text (mode : r.mode = .html) (kind : l.kind = .inlineHtml) (next : l.next = .html)
      (clear : ∀ k ≤ l.more, startsOpenTag ((c :: cs).drop k) = false)
      (stop : cs.drop l.more = [] ∨ startsOpenTag (cs.drop l.more) = true)
  | opens (mode : r.mode = .html) (kind : l.kind = .openTag) (next : l.next = .code [])
  | closes (mode : r.mode = .code []) (kind : l.kind = .closeTag)
      (next : l.next = if r.halting then .data else .html)
  /-- The semicolon that ends code for good. -/
  | halts (mode : r.mode = .code []) (halting : r.halting = true) (kind : l.kind = .punct)
      (text : (cut r l c cs).text = ";") (next : l.next = .data)
  | inside (mode : r.mode.inCode = true) (kind : l.kind.isFrame = false)
      (next : l.next.inCode = true)
      (goesOn : r.halting = true → r.mode.waiting = [] → l.kind = .punct →
        (cut r l c cs).text ≠ ";")
  | data (mode : r.mode = .data) (kind : l.kind = .inlineHtml) (next : l.next = .data)
      (all : cs.drop l.more = [])

theorem html_crossing (r : Reading) (c : Char) (cs : List Char) (hm : r.mode = .html) :
    Crossing r c cs (html c cs) := by
  unfold html
  split
  · exact .opens hm rfl rfl
  · rename_i hclosed
    refine .text hm rfl rfl ?_ ?_
    · intro k hk
      cases k with
      | zero => simpa using hclosed
      | succ k => exact findSuffix?_passed startsOpenTag cs k hk
    · cases hfind : findSuffix? startsOpenTag cs with
      | none => exact .inl (by simp [htmlLength, hfind])
      | some n =>
        right
        simpa [htmlLength, hfind] using (findSuffix?_eq_some _ cs n hfind).2.1

theorem enterBrace_inCode (waiting : List Interruption) : (enterBrace waiting).inCode = true := by
  cases waiting <;> rfl

theorem leaveBrace_inCode (waiting : List Interruption) : (leaveBrace waiting).inCode = true := by
  unfold leaveBrace
  split <;> rfl

/-- The first character of a semicolon is the semicolon. -/
theorem head_of_semicolon (r : Reading) (l : Lexeme) (c : Char) (cs : List Char)
    (h : (cut r l c cs).text = ";") : c = ';' := by
  have htext := cut_text r l c cs
  rw [h] at htext
  exact (List.cons.inj htext).1.symm

theorem code_crossing (r : Reading) (waiting : List Interruption) (c : Char) (cs : List Char)
    (l : Lexeme) (hm : r.mode = .code waiting) (h : code r waiting c cs = .ok l) :
    Crossing r c cs l := by
  have hmode : r.mode.inCode = true := by rw [hm]; rfl
  -- All but the last lexemes of code stay in it, and are no semicolons.
  have hinside (hkind : l.kind.isFrame = false) (hnext : l.next.inCode = true)
      (hpunct : l.kind ≠ .punct) : Crossing r c cs l :=
    .inside hmode hkind hnext fun _ _ hk => absurd hk hpunct
  unfold code at h
  split at h
  · cases h
    exact hinside rfl (enterBrace_inCode waiting) (by simp)
  split at h
  · cases h
    exact hinside rfl (leaveBrace_inCode waiting) (by simp)
  split at h
  · split at h
    · rename_i hempty
      cases h
      rw [List.isEmpty_iff.1 hempty] at hm
      exact .closes hm rfl rfl
    · cases h
  split at h
  · obtain ⟨hkind, hnext⟩ := blockComment_cases waiting cs l h
    apply hinside
    · rcases hkind with hkind | hkind <;> simp [hkind, Kind.isFrame]
    · rw [hnext]
      rfl
    · rcases hkind with hkind | hkind <;> simp [hkind]
  split at h
  · obtain ⟨hkind, hnext⟩ := stringStart_cases waiting _ cs l h
    apply hinside
    · simp [hkind, Kind.isFrame]
    · rcases hnext with hnext | ⟨closing, hnext⟩
      · rw [hnext]
        rfl
      · rw [hnext]
        rfl
    · simp [hkind]
  · have hplain := Kind.isFrame_of_isPlain _ (plain_isPlain r.member c cs)
    simp only [Except.ok.injEq] at h
    by_cases hlast : (r.halting && waiting.isEmpty && c == ';') = true
    · rw [if_pos hlast] at h
      simp only [Bool.and_eq_true, List.isEmpty_iff, beq_iff_eq] at hlast
      obtain ⟨⟨hhalting, rfl⟩, rfl⟩ := hlast
      have hpunct : plain r.member ';' cs = (.punct, 0) := by
        simp [plain, isBlank, startsLineComment, isLabelStart, operatorRest, startsAttribute]
      subst h
      exact .halts hm hhalting (by rw [hpunct]) (by simp [cut, hpunct]) rfl
    · rw [if_neg hlast] at h
      subst h
      refine .inside hmode hplain rfl ?_
      intro hhalting hwaiting _ htext
      rw [hm] at hwaiting
      rw [head_of_semicolon r _ c cs htext, hhalting, show waiting = [] from hwaiting] at hlast
      exact hlast rfl

theorem lexeme_crossing (r : Reading) (c : Char) (cs : List Char) (l : Lexeme)
    (h : lexeme r c cs = .ok l) : Crossing r c cs l := by
  unfold lexeme at h
  cases hm : r.mode with
  | html =>
    rw [hm] at h
    cases h
    exact html_crossing r c cs hm
  | code waiting =>
    rw [hm] at h
    exact code_crossing r waiting c cs l hm h
  | string closing waiting =>
    rw [hm] at h
    have hmode : r.mode.inCode = true := by rw [hm]; rfl
    rcases stringRest_cases closing waiting c cs l h with ⟨hkind, hnext⟩ | ⟨hkind, hnext⟩
    · refine .inside hmode (by rw [hkind]; rfl) ?_ fun _ _ hk => ?_
      · rcases hnext with hnext | hnext
        · rw [hnext]
          rfl
        · rw [hnext]
          rfl
      · rw [hkind] at hk
        cases hk
    · refine .inside hmode ?_ (by rw [hnext]; rfl) fun _ _ hk => ?_
      · cases hk : l.kind <;> simp_all [Kind.isFrame, Kind.opensInterpolation]
      · rw [hk] at hkind
        cases hkind
  | data =>
    rw [hm] at h
    cases h
    exact .data hm rfl rfl (List.drop_length ..)

/-! Interpolations, seen from the strings that wait. -/

theorem interpolated_extend (pre as bs post : List Token) (h : Interpolated as bs) :
    Interpolated (pre ++ as) (bs ++ post) := by
  obtain ⟨before, o, inner, later, c, after, rfl, rfl, ho, hpair⟩ := h
  exact ⟨pre ++ before, o, inner, later, c, after ++ post, by simp, by simp, ho, hpair⟩

/-- As many strings wait at a place in a paired list as before the list, unless the
place is inside of an interpolation. -/
theorem waiting_of_split (ts as bs : List Token) (m m' : Mode) (hts : Paired ts)
    (hsplit : ts = as ++ bs) (h : Follows m as m') :
    m'.waiting.length = m.waiting.length ∨ Interpolated as bs := by
  induction hts generalizing as bs m with
  | nil =>
    have has : as = [] := (List.append_eq_nil_iff.1 hsplit.symm).1
    subst has
    cases h
    exact .inl rfl
  | @other t ts opens closes _ ih =>
    cases h with
    | nil => exact .inl rfl
    | cons shift rest =>
      cases hsplit
      rw [← shift_other _ _ _ opens closes shift]
      apply (ih _ bs _ rfl rest).imp_right
      intro hinside
      simpa using interpolated_extend [_] _ _ [] hinside
  | @pair o c b inner rest opens closes inside _ ihinside ihafter =>
    cases h with
    | nil => exact .inl rfl
    | @cons _ m₁ _ _ as hopen hrest =>
      rw [List.cons_append, List.cons_append, List.cons.injEq] at hsplit
      obtain ⟨rfl, hsplit⟩ := hsplit
      have hopening : o.kind.opensInterpolation = true ∨
          m₁.waiting.length = m.waiting.length := by
        rcases shift_opening o b _ _ opens hopen with
          ⟨-, ho, -⟩ | ⟨-, -, waiting, rfl, rfl⟩ | ⟨-, hsame⟩
        · exact .inl ho
        · exact .inr (length_enterBrace waiting)
        · exact .inr (by rw [hsame])
      -- A place between the two brackets.
      have hbetween (more : List Token) (hinner : inner = as ++ more)
          (hbs : bs = more ++ c :: rest) :
          m'.waiting.length = m.waiting.length ∨ Interpolated (o :: as) bs := by
        rcases hopening with ho | hsame
        · subst hinner
          exact .inr ⟨[], o, as, more, c, rest, rfl, hbs, ho, ⟨b, opens, closes⟩, inside⟩
        · rw [← hsame]
          apply (ihinside as more _ hinner hrest).imp_right
          intro hdeep
          simpa [hbs] using interpolated_extend [o] _ _ (c :: rest) hdeep
      rcases List.append_eq_append_iff.1 hsplit with ⟨later, rfl, hlater⟩ | ⟨more, hmore, hbs⟩
      · obtain ⟨m₂, hinner, hafter⟩ := (follows_append _ _ _ _).1 hrest
        have hsame := follows_paired inner _ _ inside hinner
        cases hafter with
        | nil => exact hbetween [] (by simp) hlater.symm
        | @cons _ _ _ _ later hclose hlast =>
          -- Past the closing bracket, the list after the pair is entered.
          cases hlater
          rw [← (shift_pair o c b _ _ _ _ opens closes hopen hsame hclose).1]
          apply (ihafter later bs _ rfl hlast).imp_right
          intro hdeep
          simpa using interpolated_extend (o :: inner ++ [c]) _ _ [] hdeep
      · exact hbetween more hmore hbs

/-- No string waits exactly at the places outside of interpolations. -/
theorem waiting_eq_nil_iff (source : List Char) (pre post : List Token) (m m' : Mode)
    (hpaired : Paired (pre ++ post)) (hpre : ModeAfter source pre m)
    (hall : ModeAfter source (pre ++ post) m') :
    m.waiting = [] ↔ ¬ Interpolated pre post := by
  constructor
  · rintro hwaiting ⟨before, o, inner, later, c, after, rfl, rfl, ho, hpair⟩
    have hc : c.kind = .closeBrace := by
      obtain ⟨b, hb, hcloses⟩ := hpair.bracket
      rw [opens?_of_opensInterpolation o ho] at hb
      cases hb
      exact kind_of_closes? c hcloses
    have hall : ModeAfter source (before ++ (o :: (inner ++ later) ++ [c]) ++ after) m' := by
      simpa using hall
    obtain ⟨-, waiting, -, hinside, -⟩ := resumes_of_partners source _ _ o c _ _ ho hpair hc hall
    obtain ⟨m₁, hm₁, hlength⟩ := hinside inner (List.prefix_append _ _)
    rw [modeAfter_unique source _ _ _ hm₁ hpre, hwaiting] at hlength
    exact Nat.not_lt_zero _ hlength
  · intro houtside
    have hstart : ModeAfter source [] .html := ⟨{}, source, .start, rfl⟩
    have hfollows := follows_of_modeAfter source [] pre _ _ hstart hpre
    have hlength := (waiting_of_split _ pre post _ _ hpaired rfl hfollows).resolve_right houtside
    exact List.length_eq_zero_iff.1 hlength

/-! Where the code ends for good. -/

theorem reaches_halting (source : List Char) (ts : List Token) (r : Reading) (rest : List Char)
    (h : Reaches source ts r rest) : r.halting = ts.any requestsHalt := by
  induction h with
  | start => rfl
  | step _ _ ih => simp [advance, ih]

/-- Data goes on to the end of the source, as one token. -/
theorem after_data (source : List Char) (pre post : List Token) (r : Reading)
    (rest : List Char) (hpre : ModeAfter source pre .data)
    (h : Reaches source (pre ++ post) r rest) :
    r.mode = .data ∧ (post = [] ∨ rest = [] ∧ ∃ t, post = [t] ∧ t.kind = .inlineHtml) := by
  induction post using List.reverseRecOn generalizing r rest with
  | nil =>
    rw [List.append_nil] at h
    exact ⟨modeAfter_unique source pre _ _ ⟨r, rest, h, rfl⟩ hpre, .inl rfl⟩
  | append_singleton post t ih =>
    rw [← List.append_assoc] at h
    obtain ⟨r', c, cs, l, hr', hl, rfl, rfl, rfl⟩ := reaches_snoc source _ t r rest h
    obtain ⟨hdata, hpost⟩ := ih r' (c :: cs) hr'
    have hnil : post = [] := by
      rcases hpost with hpost | ⟨hrest, -⟩
      · exact hpost
      · cases hrest
    subst hnil
    cases lexeme_crossing r' c cs l hl with
    | data _ kind next all => exact ⟨next, .inr ⟨all, _, rfl, kind⟩⟩
    | text mode | opens mode | closes mode | halts mode | inside mode =>
      rw [hdata] at mode
      cases mode

/-- Once the end of the code is asked for, data starts after the next token at which
code ends. -/
theorem data_of_endsCode (source : List Char) (pre post : List Token) (t : Token) (r : Reading)
    (rest : List Char) (hpaired : Paired (pre ++ t :: post))
    (h : Reaches source (pre ++ t :: post) r rest) (hhalt : pre.any requestsHalt = true)
    (hends : EndsCode pre t post) : ModeAfter source (pre ++ [t]) .data := by
  obtain ⟨r', c, cs, l, hr', hl, rfl⟩ := reaches_at source _ r rest h pre post t rfl
  have hhalting : r'.halting = true := (reaches_halting source pre r' _ hr').trans hhalt
  refine ⟨_, _, hr'.step hl, ?_⟩
  show l.next = .data
  have hkind : l.kind = .closeTag ∨ l.kind = .punct := hends.imp_right And.left
  cases lexeme_crossing r' c cs l hl with
  | closes _ _ next => rw [next, if_pos hhalting]
  | halts _ _ _ _ next => exact next
  | inside _ kind _ goesOn =>
    rcases hends with hclose | ⟨hpunct, htext, houtside⟩
    · rw [show l.kind = .closeTag from hclose] at kind
      cases kind
    · -- Outside of interpolations no string waits, so the semicolon is the last one.
      have hwaiting := (waiting_eq_nil_iff source pre _ _ _ hpaired ⟨r', _, hr', rfl⟩
        ⟨r, rest, h, rfl⟩).2 houtside
      exact absurd htext (goesOn hhalting hwaiting hpunct)
  | text _ kind | opens _ kind | data _ kind =>
    rw [kind] at hkind
    simp at hkind

/-- Text outside of data has no opening tag in it. -/
theorem text_clear (source : List Char) (pre post : List Token) (t : Token) (r : Reading)
    (rest : List Char) (h : Reaches source (pre ++ t :: post) r rest) (hmode : r.mode ≠ .data)
    (ht : t.kind = .inlineHtml) (k : Nat) (hk : k < t.text.toList.length) :
    ¬ OpenTagAt source ((textOf pre).length + k) := by
  obtain ⟨r', c, cs, l, hr', hl, rfl⟩ := reaches_at source _ r rest h pre post t rfl
  have hat : source.drop ((textOf pre).length + k) = (c :: cs).drop k := by
    rw [reaches_text source pre r' _ hr', List.drop_length_add_append]
  have hmore : k ≤ l.more := by
    rw [cut_text, List.length_cons, List.length_take] at hk
    omega
  rw [← startsOpenTag_iff, hat, Bool.not_eq_true]
  have hkind : l.kind = .inlineHtml := ht
  cases lexeme_crossing r' c cs l hl with
  | text _ _ _ clear => exact clear k hmore
  | data mode => exact absurd (after_data source pre _ r rest ⟨r', _, hr', mode⟩ h).1 hmode
  | opens _ kind | closes _ kind | halts _ _ kind =>
    rw [hkind] at kind
    cases kind
  | inside _ kind =>
    rw [hkind] at kind
    cases kind

/-! The sections of a run. -/

theorem openSections_snoc (ks : List Kind) (k : Kind) (h : OpenSections ks)
    (hk : k.isFrame = false) : OpenSections (ks ++ [k]) := by
  obtain ⟨closed, last, rfl, hclosed, text, code, rfl, htext, hcode⟩ := h
  refine ⟨closed, text ++ .openTag :: (code ++ [k]), by simp, hclosed, text, _, rfl, htext, ?_⟩
  intro k' hk'
  rcases List.mem_append.1 hk' with hk' | hk'
  · exact hcode k' hk'
  · rwa [List.mem_singleton.1 hk']

theorem openSections_close (ks : List Kind) (h : OpenSections ks) :
    ∃ closed, ks ++ [.closeTag] = closed.flatten ∧ ClosedSections closed := by
  obtain ⟨closed, last, rfl, hclosed, hlast⟩ := h
  refine ⟨closed ++ [last ++ [.closeTag]], by simp, ?_⟩
  intro s hs
  rcases List.mem_append.1 hs with hs | hs
  · exact hclosed s hs
  · exact ⟨last, hlast, List.mem_singleton.1 hs⟩

/-- The code ends for good at a token. -/
structure Last (source : List Char) (pre : List Token) (e : Token) : Prop where
  asked : pre.any requestsHalt = true
  before : ModeAfter source pre (.code [])
  ends : e.kind = .closeTag ∨ e.kind = .punct ∧ e.text = ";"
  after : ModeAfter source (pre ++ [e]) .data

/-- What a mode says about the sections of the tokens before it. -/
def Sectioned (source : List Char) (ts : List Token) (rest : List Char) : Mode → Prop
  | .html => ∃ closed last, ts.map (·.kind) = closed.flatten ++ last ∧ ClosedSections closed ∧
      (last = [] ∨ last = [.inlineHtml] ∧ (rest = [] ∨ startsOpenTag rest = true))
  | .code _ | .string _ _ => OpenSections (ts.map (·.kind))
  | .data => ∃ pre e tail, ts = pre ++ e :: tail ∧ InSections ((pre ++ [e]).map (·.kind)) ∧
      Last source pre e

theorem sectioned_inCode (source : List Char) (ts : List Token) (rest : List Char) (m : Mode)
    (hm : m.inCode = true) : Sectioned source ts rest m ↔ OpenSections (ts.map (·.kind)) := by
  cases m with
  | code | string => rfl
  | html | data => cases hm

theorem sectioned_step (source : List Char) (ts : List Token) (r : Reading) (c : Char)
    (cs : List Char) (l : Lexeme) (hr : Reaches source ts r (c :: cs))
    (hl : lexeme r c cs = .ok l) (h : Sectioned source ts (c :: cs) r.mode) :
    Sectioned source (ts ++ [cut r l c cs]) (cs.drop l.more) l.next := by
  have hkinds : (ts ++ [cut r l c cs]).map (·.kind) = ts.map (·.kind) ++ [l.kind] := by
    simp [cut]
  have hafter : ModeAfter source (ts ++ [cut r l c cs]) l.next := ⟨_, _, hr.step hl, rfl⟩
  have hasked := reaches_halting source ts r _ hr
  cases lexeme_crossing r c cs l hl with
  | text mode kind next clear stop =>
    rw [mode] at h
    rw [next]
    obtain ⟨closed, last, hts, hclosed, hlast⟩ := h
    -- Text that is at its end has an opening tag next.
    have hnil : last = [] := by
      rcases hlast with hlast | ⟨-, hend | htag⟩
      · exact hlast
      · cases hend
      · rw [show startsOpenTag (c :: cs) = false from clear 0 (Nat.zero_le _)] at htag
        cases htag
    refine ⟨closed, [.inlineHtml], ?_, hclosed, .inr ⟨rfl, stop⟩⟩
    rw [hkinds, hts, hnil, kind, List.append_nil]
  | opens mode kind next =>
    rw [mode] at h
    rw [next]
    obtain ⟨closed, last, hts, hclosed, hlast⟩ := h
    -- The text before the tag, if there is some, belongs to the section that it opens.
    refine ⟨closed, last ++ [.openTag], ?_, hclosed, last, [], rfl, ?_, by simp⟩
    · rw [hkinds, hts, kind, List.append_assoc]
    · exact hlast.imp_right And.left
  | closes mode kind next =>
    rw [mode] at h
    obtain ⟨closed, hts, hclosed⟩ := openSections_close _ h
    have hclosing : (ts ++ [cut r l c cs]).map (·.kind) = closed.flatten ++ [] := by
      rw [hkinds, kind, hts, List.append_nil]
    cases hhalting : r.halting with
    | false =>
      rw [next, hhalting]
      exact ⟨closed, [], hclosing, hclosed, .inl rfl⟩
    | true =>
      rw [next, hhalting] at hafter ⊢
      exact ⟨ts, _, [], rfl, ⟨closed, [], hclosing, hclosed, .inl rfl⟩,
        hasked.symm.trans hhalting, ⟨r, _, hr, mode⟩, .inl kind, hafter⟩
  | halts mode halting kind text next =>
    rw [mode] at h
    rw [next] at hafter ⊢
    have hopen := openSections_snoc _ .punct h rfl
    obtain ⟨closed, last, hts, hclosed, hlast⟩ := hopen
    refine ⟨ts, _, [], rfl, ⟨closed, last, ?_, hclosed, .inr (.inr hlast)⟩,
      hasked.symm.trans halting, ⟨r, _, hr, mode⟩, .inr ⟨kind, text⟩, hafter⟩
    rw [hkinds, kind, hts]
  | inside mode kind next =>
    rw [sectioned_inCode _ _ _ _ mode] at h
    rw [sectioned_inCode _ _ _ _ next, hkinds]
    exact openSections_snoc _ _ h kind
  | data mode kind next =>
    rw [mode] at h
    rw [next]
    obtain ⟨pre, e, tail, rfl, hpre⟩ := h
    exact ⟨pre, e, tail ++ [cut r l c cs], by simp, hpre⟩

theorem reaches_sectioned (source : List Char) (ts : List Token) (r : Reading)
    (rest : List Char) (h : Reaches source ts r rest) : Sectioned source ts rest r.mode := by
  induction h with
  | start => exact ⟨[], [], rfl, by simp [ClosedSections], .inl rfl⟩
  | step before hl ih => exact sectioned_step source _ _ _ _ _ before hl ih

theorem inSections_of_sectioned (source : List Char) (ts : List Token) (rest : List Char)
    (m : Mode) (hm : m ≠ .data) (h : Sectioned source ts rest m) :
    InSections (ts.map (·.kind)) := by
  cases m with
  | html =>
    obtain ⟨closed, last, hts, hclosed, hlast⟩ := h
    refine ⟨closed, last, hts, hclosed, ?_⟩
    exact hlast.imp_right fun htext => .inl htext.1
  | code | string =>
    obtain ⟨closed, last, hts, hclosed, hlast⟩ := h
    exact ⟨closed, last, hts, hclosed, .inr (.inr hlast)⟩
  | data => exact absurd rfl hm

theorem text_clear_of_last (source : List Char) (pre : List Token) (e : Token)
    (hlast : Last source pre e) (pre' : List Token) (t : Token) (post : List Token)
    (hsplit : pre ++ [e] = pre' ++ t :: post) (ht : t.kind = .inlineHtml) (k : Nat)
    (hk : k < t.text.toList.length) : ¬ OpenTagAt source ((textOf pre').length + k) := by
  rcases List.eq_nil_or_concat post with rfl | ⟨post, u, rfl⟩
  · obtain ⟨-, hte⟩ := List.append_inj' hsplit rfl
    cases hte
    have hends := hlast.ends
    simp [ht] at hends
  · -- The text stands before `e`, where the lexer is still in code.
    rw [List.concat_eq_append, ← List.cons_append, ← List.append_assoc] at hsplit
    obtain ⟨rfl, -⟩ := List.append_inj' hsplit rfl
    obtain ⟨r, rest, hr, hcode⟩ := hlast.before
    exact text_clear _ pre' post t r rest hr (by simp [hcode]) ht k hk

/-- The token at which code ends for good is the first one after the word that asks
for the end. -/
theorem halts_of_last (source : List Char) (pre tail : List Token) (e : Token) (r : Reading)
    (rest : List Char) (hpaired : Paired (pre ++ e :: tail))
    (h : Reaches source (pre ++ e :: tail) r rest) (hlast : Last source pre e) :
    ∃ before w between, pre = before ++ w :: between ∧ Halts before w between e tail := by
  obtain ⟨w, hw, hword⟩ := List.any_eq_true.1 hlast.asked
  obtain ⟨before, between, rfl⟩ := List.append_of_mem hw
  refine ⟨before, w, between, rfl, hword, ?_, ?_⟩
  · refine hlast.ends.imp_right fun ⟨hpunct, htext⟩ => ⟨hpunct, htext, ?_⟩
    exact (waiting_eq_nil_iff source _ _ _ _ hpaired hlast.before ⟨r, rest, h, rfl⟩).1 rfl
  · rintro sooner u later rfl hends
    -- Otherwise data starts sooner, and the code before `e` is none.
    have hsplit : before ++ w :: (sooner ++ u :: later) ++ e :: tail =
        (before ++ w :: sooner) ++ u :: (later ++ e :: tail) := by simp
    rw [hsplit] at hpaired h
    have hasked : (before ++ w :: sooner).any requestsHalt = true := by simp [hword]
    have hdata := data_of_endsCode source _ _ u r rest hpaired h hasked hends
    obtain ⟨r', rest', hr', hmode⟩ := hlast.before
    have hlater : Reaches source (before ++ w :: sooner ++ [u] ++ later) r' rest' := by
      simpa using hr'
    rw [(after_data source _ later r' rest' hdata hlater).1] at hmode
    cases hmode

/-- Without interpolations, code ends at the first semicolon or closing tag after the
word that asks for it. -/
theorem halts_without_interpolations (before between post : List Token) (w e : Token)
    (hword : requestsHalt w = true)
    (hplain : ∀ t ∈ before ++ w :: between, t.kind.opensInterpolation = false)
    (hkind : e.kind = .punct) (htext : e.text = ";")
    (hfirst : ∀ u ∈ between, u.kind ≠ .closeTag ∧ u.text ≠ ";") :
    Halts before w between e post := by
  refine ⟨hword, .inr ⟨hkind, htext, ?_⟩, ?_⟩
  · rintro ⟨before', o, inner, -, -, -, hpre, -, ho, -⟩
    have hmem : o ∈ before ++ w :: between := by simp [hpre]
    rw [hplain o hmem] at ho
    cases ho
  · rintro sooner u later rfl hends
    obtain ⟨hclose, hsemicolon⟩ := hfirst u (by simp)
    rcases hends with hk | ⟨-, hu, -⟩
    · exact hclose hk
    · exact hsemicolon hu

end Lexer

open Lexer

/-- The tokens of a source stand in sections, and no text in them hides an opening tag,
up to the token at which code ends after the word that asks for it. After that token
stands nothing or one token of text, which goes on to the end of the source. -/
theorem tokenize_sections (source : String) (ts : List Token) (h : tokenize source = .ok ts) :
    (∃ body tail, ts = body ++ tail ∧ InSections (body.map (·.kind)) ∧
      (∀ pre t post, body = pre ++ t :: post → t.kind = .inlineHtml →
        ∀ k < t.text.toList.length, ¬ OpenTagAt source.toList ((textOf pre).length + k)) ∧
      (tail = [] ∨ ∃ t before w between e, tail = [t] ∧ t.kind = .inlineHtml ∧
        body = before ++ w :: (between ++ [e]) ∧ Halts before w between e tail)) ∧
    (∀ before w between e post, ts = before ++ w :: (between ++ e :: post) →
      Halts before w between e post →
      post = [] ∨ ∃ t, post = [t] ∧ t.kind = .inlineHtml ∧
        source.toList = textOf (before ++ w :: (between ++ [e])) ++ t.text.toList) := by
  have hpaired := paired_of_tokenize source ts h
  obtain ⟨r, hr⟩ := reaches_of_tokenize source ts h
  constructor
  · have hsections := reaches_sectioned _ ts r [] hr
    by_cases hmode : r.mode = .data
    · rw [hmode] at hsections
      obtain ⟨pre, e, tail, rfl, hin, hlast⟩ := hsections
      refine ⟨pre ++ [e], tail, by simp, hin, ?_, ?_⟩
      · exact text_clear_of_last _ pre e hlast
      · obtain ⟨before, w, between, rfl, hhalts⟩ := halts_of_last _ _ tail e r [] hpaired hr hlast
        have hsplit : before ++ w :: between ++ e :: tail =
            before ++ w :: between ++ [e] ++ tail := by simp
        rw [hsplit] at hr
        rcases (after_data _ _ tail r [] hlast.after hr).2 with htail | ⟨-, t, htail, ht⟩
        · exact .inl htail
        · exact .inr ⟨t, before, w, between, e, htail, ht, by simp, hhalts⟩
    · refine ⟨ts, [], by simp, ?_, ?_, .inl rfl⟩
      · exact inSections_of_sectioned _ ts [] r.mode hmode hsections
      · intro pre t post hsplit ht
        subst hsplit
        exact text_clear _ pre post t r [] hr hmode ht
  · rintro before w between e post rfl hhalts
    have hsplit : before ++ w :: (between ++ e :: post) =
        before ++ w :: between ++ e :: post := by simp
    rw [hsplit] at hpaired hr
    have hdata := data_of_endsCode _ _ post e r [] hpaired hr (by simp [hhalts.word]) hhalts.ends
    have hafter : Reaches source.toList (before ++ w :: between ++ [e] ++ post) r [] := by
      simpa using hr
    rcases (after_data _ _ post r [] hdata hafter).2 with hpost | ⟨-, t, rfl, ht⟩
    · exact .inl hpost
    · refine .inr ⟨t, rfl, ht, ?_⟩
      have htext := reaches_text _ _ r [] hafter
      rw [List.append_nil, textOf_snoc] at htext
      simpa using htext

theorem tokenize_sections_halted :
    ∃ before w between e t, tokenize "a<?= 1 ?>b<?php __HALT_compiler();<?php c" =
        .ok (before ++ w :: (between ++ e :: [t])) ∧ t.text = "<?php c" ∧
      Halts before w between e [t] ∧
      (∃ body tail, before ++ w :: (between ++ e :: [t]) = body ++ tail ∧
        InSections (body.map (·.kind))) ∧
      "a<?= 1 ?>b<?php __HALT_compiler();<?php c".toList =
        textOf (before ++ w :: (between ++ [e])) ++ t.text.toList := by
  have h : tokenize "a<?= 1 ?>b<?php __HALT_compiler();<?php c" = .ok
      ([⟨.inlineHtml, "a", 1⟩, ⟨.openTag, "<?=", 1⟩, ⟨.whitespace, " ", 1⟩, ⟨.number, "1", 1⟩,
        ⟨.whitespace, " ", 1⟩, ⟨.closeTag, "?>", 1⟩, ⟨.inlineHtml, "b", 1⟩,
        ⟨.openTag, "<?php ", 1⟩] ++ ⟨.reserved, "__HALT_compiler", 1⟩ ::
        ([⟨.punct, "(", 1⟩, ⟨.punct, ")", 1⟩] ++ ⟨.punct, ";", 1⟩ ::
          [⟨.inlineHtml, "<?php c", 1⟩])) :=
    tokenize_eq_ok _ _ (by decide +kernel)
  have hhalts := halts_without_interpolations
    [⟨.inlineHtml, "a", 1⟩, ⟨.openTag, "<?=", 1⟩, ⟨.whitespace, " ", 1⟩, ⟨.number, "1", 1⟩,
      ⟨.whitespace, " ", 1⟩, ⟨.closeTag, "?>", 1⟩, ⟨.inlineHtml, "b", 1⟩,
      ⟨.openTag, "<?php ", 1⟩] [⟨.punct, "(", 1⟩, ⟨.punct, ")", 1⟩]
    [⟨.inlineHtml, "<?php c", 1⟩] ⟨.reserved, "__HALT_compiler", 1⟩ ⟨.punct, ";", 1⟩
    (by decide +kernel) (by decide) rfl rfl (by decide)
  obtain ⟨⟨body, tail, hsplit, hin, -⟩, hafter⟩ := tokenize_sections _ _ h
  refine ⟨_, _, _, _, _, h, rfl, hhalts, ⟨body, tail, hsplit, hin⟩, ?_⟩
  rcases hafter _ _ _ _ _ rfl hhalts with hnil | ⟨t, ht, -, htext⟩
  · cases hnil
  · cases ht
    exact htext

end Redeclaration
