import Redeclaration.Proofs.Token.Brackets
import Redeclaration.Proofs.Token.Run

/-!
The nesting of strings and brackets. The lexer counts the braces of each
interpolation by themselves, the check of the brackets keeps one stack for all
of them. Main statement: both agree on where an interpolation ends.
-/

namespace Redeclaration

namespace Kind

/-- The kinds of the lexemes of code that always end and leave the mode as it is. -/
def isPlain : Kind → Bool
  | whitespace | comment | variableName | number | fullyQualifiedName | relativeName => true
  | name | qualifiedName | keyword _ | reserved | punct => true
  | _ => false

theorem isBrace_of_isPlain (k : Kind) (h : k.isPlain = true) : k.isBrace = false := by
  cases k <;> first | rfl | cases h

end Kind

namespace Mode

/-- The strings that wait for the end of an interpolation. -/
def waiting : Mode → List Interruption
  | html | data => []
  | code waiting | string _ waiting => waiting

def inString : Mode → Bool
  | string _ _ => true
  | _ => false

end Mode

namespace Lexer

/-- What a token of a kind does to the mode. -/
inductive Shift : Mode → Kind → Mode → Prop
  | enter (waiting : List Interruption) : Shift (.code waiting) .openBrace (enterBrace waiting)
  | leave (waiting : List Interruption) : Shift (.code waiting) .closeBrace (leaveBrace waiting)
  | interrupt {k : Kind} (closing : Closing) (waiting : List Interruption)
      (opens : k.opensInterpolation = true) :
      Shift (.string closing waiting) k (.code (⟨closing, 0⟩ :: waiting))
  /-- A string, or one of its fragments. -/
  | literal {m m' : Mode} (same : m'.waiting = m.waiting) : Shift m .stringLiteral m'
  | other {m m' : Mode} {k : Kind} (same : m'.waiting = m.waiting) (plain : k.isBrace = false)
      (before : m.inString = false) (after : m'.inString = false) : Shift m k m'

/-- What a list of tokens does to the mode. -/
inductive Follows : Mode → List Token → Mode → Prop
  | nil (m : Mode) : Follows m [] m
  | cons {m m' m'' : Mode} {t : Token} {ts : List Token} (shift : Shift m t.kind m')
      (rest : Follows m' ts m'') : Follows m (t :: ts) m''

/-! Each lexeme is one shift of the mode. -/

theorem wordKind_isPlain (label rest : List Char) : (wordKind label rest).isPlain = true := by
  unfold wordKind
  dsimp only
  split
  · rfl
  split
  · rfl
  split <;> rfl

theorem nameKind_isPlain (member : Bool) (text rest : List Char) :
    (nameKind member text rest).isPlain = true := by
  unfold nameKind
  split
  · split <;> rfl
  split
  · rfl
  · exact wordKind_isPlain text rest

theorem plain_isPlain (member : Bool) (c : Char) (cs : List Char) :
    (plain member c cs).1.isPlain = true := by
  unfold plain
  split
  · rfl
  split
  · rfl
  split
  · rfl
  split
  · rfl
  split
  · rfl
  split
  · exact nameKind_isPlain member _ _
  · rfl

theorem blockComment_cases (waiting : List Interruption) (cs : List Char) (l : Lexeme)
    (h : blockComment waiting cs = .ok l) :
    (l.kind = .comment ∨ l.kind = .docComment) ∧ l.next = .code waiting := by
  unfold blockComment at h
  split at h
  · cases h
  · cases h
    refine ⟨?_, rfl⟩
    dsimp only
    split
    · exact .inr rfl
    · exact .inl rfl

theorem stringStart_cases (waiting : List Interruption) (o : Opening) (cs : List Char)
    (l : Lexeme) (h : stringStart waiting o cs = .ok l) :
    l.kind = .stringLiteral ∧
      (l.next = .code waiting ∨ ∃ closing, l.next = .string closing waiting) := by
  unfold stringStart at h
  dsimp only at h
  split at h
  · split at h
    · cases h
      exact ⟨rfl, .inl rfl⟩
    · cases h
  · split at h
    · cases h
      exact ⟨rfl, .inl rfl⟩
    · cases h
  · split at h
    · cases h
      exact ⟨rfl, .inl rfl⟩
    · cases h
      exact ⟨rfl, .inr ⟨_, rfl⟩⟩
    · cases h

theorem stringRest_cases (closing : Closing) (waiting : List Interruption) (c : Char)
    (cs : List Char) (l : Lexeme) (h : stringRest closing waiting c cs = .ok l) :
    (l.kind = .stringLiteral ∧ (l.next = .code waiting ∨ l.next = .string closing waiting)) ∨
      (l.kind.opensInterpolation = true ∧ l.next = .code (⟨closing, 0⟩ :: waiting)) := by
  unfold stringRest at h
  split at h
  · cases h
    exact .inl ⟨rfl, .inl rfl⟩
  · dsimp only at h
    split at h
    · cases h
      exact .inr ⟨rfl, rfl⟩
    · cases h
      exact .inr ⟨rfl, rfl⟩
  · cases h
    exact .inl ⟨rfl, .inr rfl⟩
  · cases h

theorem blockComment_shift (waiting : List Interruption) (cs : List Char) (l : Lexeme)
    (h : blockComment waiting cs = .ok l) : Shift (.code waiting) l.kind l.next := by
  obtain ⟨hkind, hnext⟩ := blockComment_cases waiting cs l h
  rw [hnext]
  refine .other rfl ?_ rfl rfl
  rcases hkind with hkind | hkind
  · rw [hkind]
    rfl
  · rw [hkind]
    rfl

theorem stringStart_shift (waiting : List Interruption) (o : Opening) (cs : List Char)
    (l : Lexeme) (h : stringStart waiting o cs = .ok l) :
    Shift (.code waiting) l.kind l.next := by
  obtain ⟨hkind, hnext⟩ := stringStart_cases waiting o cs l h
  rw [hkind]
  apply Shift.literal
  rcases hnext with hnext | ⟨closing, hnext⟩
  · rw [hnext]
  · rw [hnext]
    rfl

theorem stringRest_shift (closing : Closing) (waiting : List Interruption) (c : Char)
    (cs : List Char) (l : Lexeme) (h : stringRest closing waiting c cs = .ok l) :
    Shift (.string closing waiting) l.kind l.next := by
  rcases stringRest_cases closing waiting c cs l h with ⟨hkind, hnext⟩ | ⟨hkind, hnext⟩
  · rw [hkind]
    apply Shift.literal
    rcases hnext with hnext | hnext
    · rw [hnext]
      rfl
    · rw [hnext]
  · rw [hnext]
    exact .interrupt closing waiting hkind

theorem code_shift (r : Reading) (waiting : List Interruption) (c : Char) (cs : List Char)
    (l : Lexeme) (h : code r waiting c cs = .ok l) : Shift (.code waiting) l.kind l.next := by
  unfold code at h
  split at h
  · cases h
    exact .enter waiting
  split at h
  · cases h
    exact .leave waiting
  split at h
  · -- A tag ends the code only if no string waits for it.
    split at h
    · rename_i hempty
      cases h
      have hwaiting : waiting = [] := List.isEmpty_iff.1 hempty
      subst hwaiting
      dsimp only
      split <;> exact .other rfl rfl rfl rfl
    · cases h
  split at h
  · exact blockComment_shift waiting cs l h
  split at h
  · exact stringStart_shift waiting _ cs l h
  · have hplain := Kind.isBrace_of_isPlain _ (plain_isPlain r.member c cs)
    simp only [Except.ok.injEq] at h
    subst h
    by_cases hlast : (r.halting && waiting.isEmpty && c == ';') = true
    · -- So does the last statement before data.
      have hwaiting : waiting = [] := by
        simp only [Bool.and_eq_true, List.isEmpty_iff] at hlast
        exact hlast.1.2
      rw [if_pos hlast]
      exact .other (by rw [hwaiting]; rfl) hplain rfl rfl
    · rw [if_neg hlast]
      exact .other rfl hplain rfl rfl

theorem lexeme_shift (r : Reading) (c : Char) (cs : List Char) (l : Lexeme)
    (h : lexeme r c cs = .ok l) : Shift r.mode l.kind l.next := by
  unfold lexeme at h
  cases hm : r.mode with
  | html =>
    rw [hm] at h
    cases h
    unfold html
    split
    · exact .other rfl rfl rfl rfl
    · exact .other rfl rfl rfl rfl
  | code waiting =>
    rw [hm] at h
    exact code_shift r waiting c cs l h
  | string closing waiting =>
    rw [hm] at h
    exact stringRest_shift closing waiting c cs l h
  | data =>
    rw [hm] at h
    cases h
    exact .other rfl rfl rfl rfl

/-! Paired lists, seen from the strings that wait. -/

theorem follows_append (m m'' : Mode) (as bs : List Token) :
    Follows m (as ++ bs) m'' ↔ ∃ m', Follows m as m' ∧ Follows m' bs m'' := by
  induction as generalizing m with
  | nil =>
    constructor
    · intro h
      exact ⟨m, .nil m, h⟩
    · rintro ⟨m', hnil, h⟩
      cases hnil
      exact h
  | cons t as ih =>
    constructor
    · intro h
      cases h with
      | cons shift rest =>
        obtain ⟨m', has, hbs⟩ := (ih _).1 rest
        exact ⟨m', .cons shift has, hbs⟩
    · rintro ⟨m', hcons, h⟩
      cases hcons with
      | cons shift rest => exact .cons shift ((ih _).2 ⟨m', rest, h⟩)

theorem shift_of_follows (m m' : Mode) (t : Token) (h : Follows m [t] m') :
    Shift m t.kind m' := by
  cases h with
  | cons shift rest =>
    cases rest
    exact shift

theorem shift_other (t : Token) (m m' : Mode) (hopen : t.opens? = none)
    (hclose : t.closes? = none) (h : Shift m t.kind m') : m'.waiting = m.waiting := by
  generalize hk : t.kind = k at h
  cases h with
  | enter => simp [Token.opens?, hk] at hopen
  | leave => simp [Token.closes?, hk] at hclose
  | interrupt _ _ opens => cases k <;> simp_all [Token.opens?, Kind.opensInterpolation]
  | literal same => exact same
  | other same => exact same

theorem opens?_of_opensInterpolation (t : Token) (h : t.kind.opensInterpolation = true) :
    t.opens? = some .brace := by
  unfold Token.opens?
  cases hk : t.kind <;> simp_all [Kind.opensInterpolation]

/-- A brace opens in a string if it starts an interpolation, and in code
otherwise; other brackets leave the strings alone. -/
theorem shift_opening (o : Token) (b : Bracket) (m m' : Mode) (ho : o.opens? = some b)
    (h : Shift m o.kind m') :
    (b = .brace ∧ o.kind.opensInterpolation = true ∧ ∃ closing waiting,
        m = .string closing waiting ∧ m' = .code (⟨closing, 0⟩ :: waiting)) ∨
      (b = .brace ∧ o.kind.opensInterpolation = false ∧ ∃ waiting,
        m = .code waiting ∧ m' = enterBrace waiting) ∨
      (b ≠ .brace ∧ m'.waiting = m.waiting) := by
  generalize hk : o.kind = k at h
  cases h with
  | enter waiting =>
    simp only [Token.opens?, hk, Option.some.injEq] at ho
    exact .inr (.inl ⟨ho.symm, rfl, waiting, rfl, rfl⟩)
  | leave => simp [Token.opens?, hk] at ho
  | interrupt closing waiting opens =>
    refine .inl ⟨?_, opens, closing, waiting, rfl, rfl⟩
    cases k <;> simp_all [Token.opens?, Kind.opensInterpolation]
  | literal => simp [Token.opens?, hk] at ho
  | other same plain =>
    refine .inr (.inr ⟨?_, same⟩)
    rintro rfl
    rw [← hk, isBrace_of_opens? o ho] at plain
    cases plain

theorem shift_closing (c : Token) (b : Bracket) (m m' : Mode) (hc : c.closes? = some b)
    (h : Shift m c.kind m') :
    (b = .brace ∧ ∃ waiting, m = .code waiting ∧ m' = leaveBrace waiting) ∨
      (b ≠ .brace ∧ m'.waiting = m.waiting) := by
  generalize hk : c.kind = k at h
  cases h with
  | enter => simp [Token.closes?, hk] at hc
  | leave waiting =>
    simp only [Token.closes?, hk, Option.some.injEq] at hc
    exact .inl ⟨hc.symm, waiting, rfl, rfl⟩
  | interrupt _ _ opens => cases k <;> simp_all [Token.closes?, Kind.opensInterpolation]
  | literal => simp [Token.closes?, hk] at hc
  | other same plain =>
    refine .inr ⟨?_, same⟩
    rintro rfl
    rw [← hk, kind_of_closes? c hc] at plain
    cases plain

theorem leaveBrace_enterBrace (waiting : List Interruption) :
    leaveBrace (enterBrace waiting).waiting = .code waiting := by
  cases waiting <;> rfl

/-- A pair of brackets leads back to the strings that waited before it, and a pair
of braces to the very mode, if that holds of what stands between. -/
theorem shift_pair (o c : Token) (b : Bracket) (m m₁ m₂ m' : Mode) (ho : o.opens? = some b)
    (hc : c.closes? = some b) (hopen : Shift m o.kind m₁) (hsame : m₂.waiting = m₁.waiting)
    (hclose : Shift m₂ c.kind m') : m'.waiting = m.waiting ∧ (b = .brace → m' = m) := by
  rcases shift_closing c b m₂ m' hc hclose with ⟨rfl, w, rfl, rfl⟩ | ⟨hb, hlast⟩
  · have hback : leaveBrace w = m := by
      rcases shift_opening o .brace m m₁ ho hopen with
        ⟨-, -, closing, waiting, rfl, rfl⟩ | ⟨-, -, waiting, rfl, rfl⟩ | ⟨hb, -⟩
      · rw [show w = ⟨closing, 0⟩ :: waiting from hsame]
        rfl
      · rw [show w = (enterBrace waiting).waiting from hsame, leaveBrace_enterBrace]
      · exact absurd rfl hb
    rw [hback]
    exact ⟨rfl, fun _ => rfl⟩
  · rcases shift_opening o b m m₁ ho hopen with ⟨hbrace, -⟩ | ⟨hbrace, -⟩ | ⟨-, hfirst⟩
    · exact absurd hbrace hb
    · exact absurd hbrace hb
    · exact ⟨hlast.trans (hsame.trans hfirst), fun hbrace => absurd hbrace hb⟩

/-- After a paired list, the same strings wait as before it. -/
theorem follows_paired (ts : List Token) (m m' : Mode) (hts : Paired ts)
    (h : Follows m ts m') : m'.waiting = m.waiting := by
  induction hts generalizing m m' with
  | nil =>
    cases h
    rfl
  | @other t ts opens closes _ ih =>
    cases h with
    | cons shift rest => rw [ih _ _ rest, shift_other t _ _ opens closes shift]
  | @pair o c b inner rest opens closes _ _ ihinside ihafter =>
    rw [List.cons_append] at h
    cases h with
    | cons hopen hinner =>
      obtain ⟨m₂, hinner, hclosing⟩ := (follows_append _ _ _ _).1 hinner
      cases hclosing with
      | cons hclose hrest =>
        rw [ihafter _ _ hrest]
        exact (shift_pair o c b _ _ _ _ opens closes hopen (ihinside _ _ hinner) hclose).1

theorem follows_partners (o c : Token) (inner : List Token) (m m' : Mode)
    (hpair : Partners o inner c) (h : Follows m (o :: inner ++ [c]) m') :
    m'.waiting = m.waiting ∧ (c.kind = .closeBrace → m' = m) := by
  obtain ⟨⟨b, ho, hc⟩, hinside⟩ := hpair
  rw [List.cons_append] at h
  cases h with
  | cons hopen hrest =>
    obtain ⟨m₂, hinner, hlast⟩ := (follows_append _ _ _ _).1 hrest
    have hclose := shift_of_follows _ _ _ hlast
    have hsame := follows_paired inner _ _ hinside hinner
    obtain ⟨hwaiting, hmode⟩ := shift_pair o c b _ _ _ _ ho hc hopen hsame hclose
    refine ⟨hwaiting, fun hk => hmode ?_⟩
    simpa [Token.closes?, hk] using hc.symm

theorem length_enterBrace (waiting : List Interruption) :
    (enterBrace waiting).waiting.length = waiting.length := by
  cases waiting <;> rfl

/-- Inside of a paired list, no string that waited before it goes on. -/
theorem length_waiting_le (ts as bs : List Token) (m m' : Mode) (hts : Paired ts)
    (hsplit : ts = as ++ bs) (h : Follows m as m') : m.waiting.length ≤ m'.waiting.length := by
  induction hts generalizing as bs m with
  | nil =>
    have has : as = [] := (List.append_eq_nil_iff.1 hsplit.symm).1
    subst has
    cases h
    exact le_rfl
  | @other t ts opens closes _ ih =>
    cases h with
    | nil => exact le_rfl
    | cons shift rest =>
      cases hsplit
      rw [← shift_other _ _ _ opens closes shift]
      exact ih _ bs _ rfl rest
  | @pair o c b inner rest opens closes inside _ ihinside ihafter =>
    cases h with
    | nil => exact le_rfl
    | @cons _ m₁ _ _ as hopen hrest =>
      rw [List.cons_append, List.cons_append, List.cons.injEq] at hsplit
      obtain ⟨rfl, hsplit⟩ := hsplit
      have hdeeper : m.waiting.length ≤ m₁.waiting.length := by
        rcases shift_opening o b _ _ opens hopen with
          ⟨-, -, closing, waiting, rfl, rfl⟩ | ⟨-, -, waiting, rfl, rfl⟩ | ⟨-, hsame⟩
        · exact Nat.le_succ _
        · exact (length_enterBrace waiting).ge
        · rw [hsame]
      rcases List.append_eq_append_iff.1 hsplit with ⟨later, rfl, hlater⟩ | ⟨more, hmore, -⟩
      · obtain ⟨m₂, hinner, hafter⟩ := (follows_append _ _ _ _).1 hrest
        have hsame := follows_paired inner _ _ inside hinner
        cases hafter with
        | nil => rwa [hsame]
        | cons hclose hlast =>
          -- Past the closing bracket, the list after the pair is entered.
          cases hlater
          rw [← (shift_pair o c b _ _ _ _ opens closes hopen hsame hclose).1]
          exact ihafter _ bs _ rfl hlast
      · exact hdeeper.trans (ihinside as more _ hmore hrest)

/-! The modes of a run. -/

/-- The lexer is in a mode after it has cut some tokens off a text. -/
def ModeAfter (source : List Char) (ts : List Token) (m : Mode) : Prop :=
  ∃ r rest, Reaches source ts r rest ∧ r.mode = m

theorem reaches_nil (source : List Char) (r : Reading) (rest : List Char)
    (h : Reaches source [] r rest) : r = {} ∧ rest = source := by
  generalize hts : ([] : List Token) = ts at h
  cases h with
  | start => exact ⟨rfl, rfl⟩
  | step => simp at hts

theorem reaches_snoc (source : List Char) (ts : List Token) (t : Token) (r : Reading)
    (rest : List Char) (h : Reaches source (ts ++ [t]) r rest) :
    ∃ r' c cs l, Reaches source ts r' (c :: cs) ∧ lexeme r' c cs = .ok l ∧ t = cut r' l c cs ∧
      r = advance r' t l.next ∧ rest = cs.drop l.more := by
  generalize hts : ts ++ [t] = us at h
  cases h with
  | start => simp at hts
  | step before hl =>
    obtain ⟨rfl, ht⟩ := List.append_inj' hts rfl
    cases ht
    exact ⟨_, _, _, _, before, hl, rfl, rfl, rfl⟩

/-- A text and a number of tokens fix the state of the lexer. -/
theorem reaches_unique (source : List Char) (ts : List Token) (r r' : Reading)
    (rest rest' : List Char) (h : Reaches source ts r rest) (h' : Reaches source ts r' rest') :
    r = r' ∧ rest = rest' := by
  induction ts using List.reverseRecOn generalizing r r' rest rest' with
  | nil =>
    obtain ⟨hr, hrest⟩ := reaches_nil source r rest h
    obtain ⟨hr', hrest'⟩ := reaches_nil source r' rest' h'
    exact ⟨hr.trans hr'.symm, hrest.trans hrest'.symm⟩
  | append_singleton ts t ih =>
    obtain ⟨s, c, cs, l, hs, hl, -, rfl, rfl⟩ := reaches_snoc source ts t r rest h
    obtain ⟨s', c', cs', l', hs', hl', -, rfl, rfl⟩ := reaches_snoc source ts t r' rest' h'
    obtain ⟨rfl, hrest⟩ := ih s s' _ _ hs hs'
    cases hrest
    rw [hl] at hl'
    cases hl'
    exact ⟨rfl, rfl⟩

theorem modeAfter_unique (source : List Char) (ts : List Token) (m m' : Mode)
    (h : ModeAfter source ts m) (h' : ModeAfter source ts m') : m = m' := by
  obtain ⟨r, rest, hr, rfl⟩ := h
  obtain ⟨r', rest', hr', rfl⟩ := h'
  rw [(reaches_unique source ts r r' rest rest' hr hr').1]

/-- A run goes through a mode after each part of its tokens. -/
theorem modeAfter_split (source : List Char) (pre post : List Token) (m : Mode)
    (h : ModeAfter source (pre ++ post) m) :
    ∃ m', ModeAfter source pre m' ∧ Follows m' post m := by
  induction post using List.reverseRecOn generalizing m with
  | nil => exact ⟨m, by simpa using h, .nil m⟩
  | append_singleton post t ih =>
    obtain ⟨r, rest, hr, rfl⟩ := h
    rw [← List.append_assoc] at hr
    obtain ⟨r', c, cs, l, hr', hl, ht, rfl, -⟩ := reaches_snoc source _ t r rest hr
    obtain ⟨m', hm', hfollows⟩ := ih r'.mode ⟨r', _, hr', rfl⟩
    refine ⟨m', hm', (follows_append _ _ _ _).2 ⟨r'.mode, hfollows, .cons ?_ (.nil _)⟩⟩
    rw [ht]
    exact lexeme_shift r' c cs l hl

theorem follows_of_modeAfter (source : List Char) (pre post : List Token) (m m' : Mode)
    (h : ModeAfter source pre m) (h' : ModeAfter source (pre ++ post) m') :
    Follows m post m' := by
  obtain ⟨m₀, hm₀, hfollows⟩ := modeAfter_split source pre post m' h'
  rwa [modeAfter_unique source pre m m₀ h hm₀]

/-- The lexer leaves a string at `o`, stays with the code of its interpolation
over `inner`, and goes back to the string at `c`. -/
def Resumes (source : List Char) (pre : List Token) (o : Token) (inner : List Token)
    (c : Token) : Prop :=
  ∃ closing waiting, ModeAfter source pre (.string closing waiting) ∧
    (∀ part, part <+: inner → ∃ m, ModeAfter source (pre ++ o :: part) m ∧
      waiting.length < m.waiting.length) ∧
    ModeAfter source (pre ++ (o :: inner ++ [c])) (.string closing waiting)

/-- An interpolation starts in a string. -/
theorem string_of_interpolation (o : Token) (m m' : Mode) (ts : List Token)
    (ho : o.kind.opensInterpolation = true) (h : Follows m (o :: ts) m') :
    ∃ closing waiting, m = .string closing waiting ∧
      Follows (.code (⟨closing, 0⟩ :: waiting)) ts m' := by
  cases h with
  | cons shift rest =>
    have hopens := opens?_of_opensInterpolation o ho
    rcases shift_opening o .brace _ _ hopens shift with
      ⟨-, -, closing, waiting, rfl, rfl⟩ | ⟨-, hno, -⟩ | ⟨hb, -⟩
    · exact ⟨closing, waiting, rfl, rest⟩
    · rw [ho] at hno
      cases hno
    · exact absurd rfl hb

/-- What stands right before a place inside of a string is one of its fragments, or
the brace that ends an interpolation. -/
theorem before_string (t : Token) (m : Mode) (closing : Closing) (waiting : List Interruption)
    (h : Shift m t.kind (.string closing waiting)) :
    t.kind = .stringLiteral ∨ t.kind = .closeBrace := by
  generalize hm : Mode.string closing waiting = m' at h
  generalize t.kind = k at h ⊢
  cases h with
  | enter w => cases w <;> cases hm
  | leave => exact .inr rfl
  | interrupt => cases hm
  | literal => exact .inl rfl
  | other _ _ _ after =>
    subst hm
    cases after

theorem after_string (t : Token) (m : Mode) (closing : Closing) (waiting : List Interruption)
    (h : Shift (.string closing waiting) t.kind m) :
    t.kind = .stringLiteral ∨ t.kind.opensInterpolation = true := by
  generalize hm : Mode.string closing waiting = m' at h
  generalize t.kind = k at h ⊢
  cases h with
  | enter => cases hm
  | leave => cases hm
  | interrupt _ _ opens => exact .inr opens
  | literal => exact .inl rfl
  | other _ _ before =>
    subst hm
    cases before

theorem resumes_of_partners (source : List Char) (pre rest : List Token) (o c : Token)
    (inner : List Token) (m : Mode) (ho : o.kind.opensInterpolation = true)
    (hpair : Partners o inner c) (hc : c.kind = .closeBrace)
    (h : ModeAfter source (pre ++ (o :: inner ++ [c]) ++ rest) m) :
    Resumes source pre o inner c := by
  obtain ⟨mc, hmc, -⟩ := modeAfter_split source _ _ m h
  obtain ⟨mo, hmo, hfollows⟩ := modeAfter_split source _ _ mc hmc
  obtain ⟨closing, waiting, rfl, -⟩ := string_of_interpolation o _ _ _ ho hfollows
  have hback := (follows_partners o c inner _ _ hpair hfollows).2 hc
  rw [hback] at hmc
  refine ⟨closing, waiting, hmo, ?_, hmc⟩
  rintro part ⟨more, rfl⟩
  have hpart : ModeAfter source (pre ++ o :: part ++ (more ++ [c])) (.string closing waiting) := by
    simpa using hmc
  obtain ⟨mp, hmp, -⟩ := modeAfter_split source _ _ _ hpart
  obtain ⟨_, _, heq, hinside⟩ :=
    string_of_interpolation o _ _ _ ho (follows_of_modeAfter source pre (o :: part) _ _ hmo hmp)
  cases heq
  exact ⟨mp, hmp, length_waiting_le _ part more _ _ hpair.inside rfl hinside⟩

/-- A string that goes on has a fragment or an interpolation next. -/
theorem next_of_resumes (source : List Char) (pre rest : List Token) (o c : Token)
    (inner : List Token) (m : Mode) (hresumes : Resumes source pre o inner c)
    (h : ModeAfter source (pre ++ (o :: inner ++ [c]) ++ rest) m) (hend : faultAtEnd? m = none) :
    ∃ next later, rest = next :: later ∧
      (next.kind = .stringLiteral ∨ next.kind.opensInterpolation = true) := by
  obtain ⟨closing, waiting, -, -, hafter⟩ := hresumes
  cases rest with
  | nil =>
    -- The source would end inside of the string.
    rw [List.append_nil] at h
    rw [← modeAfter_unique _ _ _ _ hafter h] at hend
    cases hend
  | cons next later =>
    have hfollows := follows_of_modeAfter _ _ _ _ _ hafter h
    cases hfollows with
    | cons shift _ => exact ⟨next, later, rfl, after_string next _ closing waiting shift⟩

/-- Right before an interpolation stands a fragment of its string, or the brace that
ends another interpolation. -/
theorem last_before_interpolation (source : List Char) (pre post : List Token) (o : Token)
    (m : Mode) (ho : o.kind.opensInterpolation = true) (hpaired : Paired (pre ++ o :: post))
    (h : ModeAfter source (pre ++ o :: post) m) :
    ∃ earlier last, pre = earlier ++ [last] ∧
      (last.kind = .stringLiteral ∨ last.kind = .closeBrace ∧
        ∃ before o' inner, earlier = before ++ o' :: inner ∧
          o'.kind.opensInterpolation = true ∧ Partners o' inner last) := by
  obtain ⟨mo, hmo, hfollows⟩ := modeAfter_split _ _ _ _ h
  obtain ⟨closing, waiting, rfl, -⟩ := string_of_interpolation o _ _ _ ho hfollows
  rcases List.eq_nil_or_concat pre with rfl | ⟨earlier, last, rfl⟩
  · -- The lexer does not start in a string.
    obtain ⟨r, rest, hr, hm⟩ := hmo
    rw [(reaches_nil _ r rest hr).1] at hm
    cases hm
  rw [List.concat_eq_append] at hmo hpaired ⊢
  refine ⟨earlier, last, rfl, ?_⟩
  obtain ⟨ml, -, hlast⟩ := modeAfter_split _ _ _ _ hmo
  rcases before_string last _ _ _ (shift_of_follows _ _ _ hlast) with hk | hk
  · exact .inl hk
  have hcloses : last.closes? = some .brace := by simp [Token.closes?, hk]
  obtain ⟨before, o', inner, rfl, hpair⟩ :=
    (hpaired.partner earlier (o :: post) last (by simp) .brace).2 hcloses
  refine .inr ⟨hk, before, o', inner, rfl, ?_, hpair⟩
  -- The brace leads back to where its partner stands, so that is in a string too.
  rw [List.append_assoc] at hmo
  obtain ⟨mb, -, hback⟩ := modeAfter_split _ _ _ _ hmo
  have hsame := (follows_partners o' last inner _ _ hpair hback).2 hk
  rw [← hsame] at hback
  cases hback with
  | cons shift _ =>
    rcases after_string o' _ _ _ shift with hliteral | hopens
    · obtain ⟨b, hb, -⟩ := hpair.bracket
      simp [Token.opens?, hliteral] at hb
    · exact hopens

end Lexer

open Lexer

/-- The partner of a brace that starts an interpolation is the brace at which the
lexer goes back to the string, which then goes on with a fragment or with its next
interpolation. Right before an interpolation stands a fragment of its string, or the
brace that ends another interpolation. -/
theorem tokenize_interpolations (source : String) (pre post : List Token) (o : Token)
    (h : tokenize source = .ok (pre ++ o :: post)) (ho : o.kind.opensInterpolation = true) :
    (∃ inner c rest, post = inner ++ c :: rest ∧ Partners o inner c) ∧
    (∀ inner c rest, post = inner ++ c :: rest → Partners o inner c →
      c.kind = .closeBrace ∧ Resumes source.toList pre o inner c ∧
        ∃ next later, rest = next :: later ∧
          (next.kind = .stringLiteral ∨ next.kind.opensInterpolation = true)) ∧
    ∃ earlier last, pre = earlier ++ [last] ∧
      (last.kind = .stringLiteral ∨ last.kind = .closeBrace ∧
        ∃ before o' inner, earlier = before ++ o' :: inner ∧
          o'.kind.opensInterpolation = true ∧ Partners o' inner last) := by
  have hpaired := paired_of_tokenize source _ h
  have hopens := opens?_of_opensInterpolation o ho
  obtain ⟨r, hr, hend⟩ := tokens_ok_reaches source.toList {} source.toList [] _ .start
    (tokens_of_tokenize source _ h)
  have hmode : ModeAfter source.toList (pre ++ o :: post) r.mode := ⟨r, [], hr, rfl⟩
  refine ⟨(hpaired.partner pre post o rfl .brace).1 hopens, ?_,
    last_before_interpolation _ pre post o _ ho hpaired hmode⟩
  intro inner c rest hpost hpair
  have hc : c.kind = .closeBrace := by
    obtain ⟨b, hb, hcloses⟩ := hpair.bracket
    rw [hopens] at hb
    cases hb
    exact kind_of_closes? c hcloses
  rw [hpost, show pre ++ o :: (inner ++ c :: rest) = pre ++ (o :: inner ++ [c]) ++ rest by simp]
    at hmode
  have hresumes := resumes_of_partners _ pre rest o c inner _ ho hpair hc hmode
  exact ⟨hc, hresumes, next_of_resumes _ pre rest o c inner _ hresumes hmode hend⟩

theorem tokenize_interpolations_nested :
    ∃ pre o post,
      tokenize "<?php \"\x7b$a[\"$\x7bb\x7d\"]\x7d$\x7bc\x7d\"" = .ok (pre ++ o :: post) ∧
      o.kind = .curlyOpen ∧ o.kind.opensInterpolation = true ∧
      (∃ inner c rest, post = inner ++ c :: rest ∧ inner.length = 8 ∧ Partners o inner c ∧
        c.kind = .closeBrace ∧
        Resumes "<?php \"\x7b$a[\"$\x7bb\x7d\"]\x7d$\x7bc\x7d\"".toList pre o inner c) ∧
      ∃ earlier last, pre = earlier ++ [last] ∧ last.kind = .stringLiteral := by
  have h : tokenize "<?php \"\x7b$a[\"$\x7bb\x7d\"]\x7d$\x7bc\x7d\"" = .ok
      ([⟨.openTag, "<?php ", 1⟩, ⟨.stringLiteral, "\"", 1⟩] ++ ⟨.curlyOpen, "\x7b", 1⟩ ::
        [⟨.variableName, "$a", 1⟩, ⟨.punct, "[", 1⟩, ⟨.stringLiteral, "\"", 1⟩,
          ⟨.dollarOpen, "$\x7b", 1⟩, ⟨.name, "b", 1⟩, ⟨.closeBrace, "\x7d", 1⟩,
          ⟨.stringLiteral, "\"", 1⟩, ⟨.punct, "]", 1⟩, ⟨.closeBrace, "\x7d", 1⟩,
          ⟨.dollarOpen, "$\x7b", 1⟩, ⟨.name, "c", 1⟩, ⟨.closeBrace, "\x7d", 1⟩,
          ⟨.stringLiteral, "\"", 1⟩]) :=
    tokenize_eq_ok _ _ (by decide +kernel)
  obtain ⟨-, hpartner, -⟩ := tokenize_interpolations _ _ _ _ h rfl
  have hpair : Partners ⟨.curlyOpen, "\x7b", 1⟩
      [⟨.variableName, "$a", 1⟩, ⟨.punct, "[", 1⟩, ⟨.stringLiteral, "\"", 1⟩,
        ⟨.dollarOpen, "$\x7b", 1⟩, ⟨.name, "b", 1⟩, ⟨.closeBrace, "\x7d", 1⟩,
        ⟨.stringLiteral, "\"", 1⟩, ⟨.punct, "]", 1⟩] ⟨.closeBrace, "\x7d", 1⟩ :=
    ⟨⟨.brace, rfl, rfl⟩, (checkBrackets_eq_ok_iff 1 _).1 (by decide)⟩
  obtain ⟨hc, hresumes, -⟩ := hpartner _ _ _ rfl hpair
  exact ⟨_, _, _, h, rfl, rfl, ⟨_, _, _, rfl, rfl, hpair, hc, hresumes⟩,
    [⟨.openTag, "<?php ", 1⟩], ⟨.stringLiteral, "\"", 1⟩, rfl, rfl⟩

end Redeclaration
