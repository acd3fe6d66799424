import Mathlib.Data.List.Basic
import Redeclaration.Token.Lexer

/-!
Brackets that pair up, told without a stack of open ones: a bracket stands around
a list whose own brackets pair up, and is closed by one of its kind. Main
statement: the check accepts exactly the lists with such a reading.
-/

namespace Redeclaration

/-- A list of tokens in which every bracket has its partner. -/
inductive Paired : List Token → Prop
  | nil : Paired []
  | other {t : Token} {ts : List Token} (opens : t.opens? = none) (closes : t.closes? = none)
      (rest : Paired ts) : Paired (t :: ts)
  | pair {o c : Token} {b : Bracket} {inner rest : List Token} (opens : o.opens? = some b)
      (closes : c.closes? = some b) (inside : Paired inner) (after : Paired rest) :
      Paired (o :: inner ++ c :: rest)

/-- The bracket that `o` opens is closed by `c`, with `inner` between the two. -/
structure Partners (o : Token) (inner : List Token) (c : Token) : Prop where
  bracket : ∃ b, o.opens? = some b ∧ c.closes? = some b
  inside : Paired inner

/-- Whether a token of this kind opens or closes a brace. -/
def Kind.isBrace : Kind → Bool
  | openBrace | closeBrace | curlyOpen | dollarOpen => true
  | _ => false

theorem isBrace_of_opens? (t : Token) (h : t.opens? = some .brace) : t.kind.isBrace = true := by
  unfold Token.opens? at h
  split at h
  · simp_all [Kind.isBrace]
  · simp_all [Kind.isBrace]
  · simp_all [Kind.isBrace]
  · -- The brackets among the punctuation are round or square.
    split at h
    · cases h
    split at h <;> cases h
  · cases h

theorem kind_of_closes? (t : Token) (h : t.closes? = some .brace) : t.kind = .closeBrace := by
  unfold Token.closes? at h
  split at h
  · assumption
  · split at h
    · cases h
    split at h <;> cases h
  · cases h

theorem closes?_of_opens? (t : Token) (b : Bracket) (h : t.opens? = some b) :
    t.closes? = none := by
  cases hk : t.kind with
  | punct =>
    -- The opening and the closing brackets are different texts.
    simp only [Token.opens?, hk] at h
    simp only [Token.closes?, hk]
    split at h
    · rename_i htext
      rw [beq_iff_eq.1 htext]
      decide
    · split at h
      · rename_i htext
        simp only [Bool.or_eq_true, beq_iff_eq] at htext
        rcases htext with htext | htext <;> rw [htext] <;> decide
      · cases h
  | _ => simp_all [Token.opens?, Token.closes?]

theorem opens?_of_closes? (t : Token) (b : Bracket) (h : t.closes? = some b) :
    t.opens? = none := by
  by_contra hne
  obtain ⟨b', hb'⟩ := Option.ne_none_iff_exists'.1 hne
  rw [closes?_of_opens? t b' hb'] at h
  cases h

theorem Paired.append {as bs : List Token} (ha : Paired as) (hb : Paired bs) :
    Paired (as ++ bs) := by
  induction ha with
  | nil => exact hb
  | other opens closes _ ih => exact .other opens closes ih
  | @pair o c b inner rest opens closes inside _ _ ih =>
    have hsplit : (o :: inner ++ c :: rest) ++ bs = o :: inner ++ c :: (rest ++ bs) := by simp
    rw [hsplit]
    exact .pair opens closes inside ih

/-- A list of tokens that closes some open brackets, the innermost first, and is
paired apart from that. -/
def Unwinds : List Bracket → List Token → Prop
  | [], ts => Paired ts
  | b :: pending, ts =>
    ∃ inner c rest, ts = inner ++ c :: rest ∧ Paired inner ∧ c.closes? = some b ∧
      Unwinds pending rest

theorem unwinds_append (pending : List Bracket) (as bs : List Token) (ha : Paired as)
    (hb : Unwinds pending bs) : Unwinds pending (as ++ bs) := by
  cases pending with
  | nil => exact ha.append hb
  | cons b pending =>
    obtain ⟨inner, c, rest, rfl, hinner, hc, hrest⟩ := hb
    exact ⟨as ++ inner, c, rest, by rw [List.append_assoc], ha.append hinner, hc, hrest⟩

theorem unwinds_of_checkBrackets (line : Nat) (pending : List Bracket) (ts : List Token)
    (h : checkBrackets line pending ts = .ok ()) : Unwinds pending ts := by
  induction ts generalizing pending with
  | nil =>
    cases pending with
    | nil => exact .nil
    | cons b pending => cases h
  | cons t ts ih =>
    unfold checkBrackets Token.bracketsAfter? at h
    cases ho : t.opens? with
    | some b =>
      -- What follows closes this bracket first, and then those before it.
      simp only [ho] at h
      obtain ⟨inner, c, rest, rfl, hinner, hc, hrest⟩ := ih (b :: pending) h
      have hpair : Paired (t :: inner ++ c :: []) := .pair ho hc hinner .nil
      have hunwinds := unwinds_append pending _ rest hpair hrest
      simpa using hunwinds
    | none =>
      cases hc : t.closes? with
      | none =>
        simp only [ho, hc] at h
        exact unwinds_append pending [t] ts (.other ho hc .nil) (ih pending h)
      | some b =>
        simp only [ho, hc] at h
        by_cases hhead : pending.head? = some b
        · obtain ⟨later, rfl⟩ := List.head?_eq_some_iff.1 hhead
          simp only [List.head?_cons, if_true, List.tail_cons] at h
          exact ⟨[], t, ts, rfl, .nil, hc, ih later h⟩
        · simp [hhead] at h

/-- The check goes over a paired list and keeps what was open before it. -/
theorem checkBrackets_append (line : Nat) (pending : List Bracket) (ts us : List Token)
    (h : Paired ts) : checkBrackets line pending (ts ++ us) = checkBrackets line pending us := by
  induction h generalizing pending us with
  | nil => rfl
  | @other t ts opens closes _ ih =>
    rw [List.cons_append, checkBrackets]
    simp only [Token.bracketsAfter?, opens, closes]
    exact ih pending us
  | @pair o c b inner rest opens closes _ _ ihinside ihafter =>
    have hopen := opens?_of_closes? c b closes
    rw [List.cons_append, List.cons_append, List.append_assoc, checkBrackets]
    simp only [Token.bracketsAfter?, opens]
    rw [ihinside, List.cons_append, checkBrackets]
    simp only [Token.bracketsAfter?, hopen, closes, List.head?_cons, if_true, List.tail_cons]
    exact ihafter pending us

/-- The lists that pass the check are those whose brackets pair up. -/
theorem checkBrackets_eq_ok_iff (line : Nat) (ts : List Token) :
    checkBrackets line [] ts = .ok () ↔ Paired ts := by
  constructor
  · intro h
    exact unwinds_of_checkBrackets line [] ts h
  · intro h
    have hcheck := checkBrackets_append line [] ts [] h
    rw [List.append_nil] at hcheck
    rw [hcheck]
    rfl

/-- The brackets that a list of tokens leaves open, the innermost first, or nothing
if it closes a wrong one. -/
def openBrackets? (pending : List Bracket) (ts : List Token) : Option (List Bracket) :=
  ts.foldlM (fun pending t => t.bracketsAfter? pending) pending

/-- After a part of a list, the check goes on from the brackets that it leaves open. -/
theorem checkBrackets_of_openBrackets? (line : Nat) (pending later : List Bracket)
    (ts us : List Token) (h : openBrackets? pending ts = some later) :
    checkBrackets line pending (ts ++ us) = checkBrackets line later us := by
  induction ts generalizing pending with
  | nil =>
    cases h
    rfl
  | cons t ts ih =>
    rw [openBrackets?, List.foldlM_cons] at h
    obtain ⟨next, hnext, hrest⟩ := Option.bind_eq_some_iff.1 h
    rw [List.cons_append, checkBrackets, hnext]
    exact ih next hrest

/-- A check that accepts a list has come over every part of it. -/
theorem exists_openBrackets? (line : Nat) (pending : List Bracket) (ts us : List Token)
    (h : checkBrackets line pending (ts ++ us) = .ok ()) :
    ∃ later, openBrackets? pending ts = some later := by
  induction ts generalizing pending with
  | nil => exact ⟨pending, rfl⟩
  | cons t ts ih =>
    rw [List.cons_append, checkBrackets] at h
    cases hafter : t.bracketsAfter? pending with
    | none =>
      rw [hafter] at h
      cases h
    | some next =>
      rw [hafter] at h
      obtain ⟨later, hlater⟩ := ih next h
      exact ⟨later, Option.bind_eq_some_iff.2 ⟨next, hafter, hlater⟩⟩

/-- Two places in one list: the first comes later, they are the same, or the
first comes before. -/
theorem append_cons_cases (as bs cs ds : List Token) (t u : Token)
    (h : as ++ t :: bs = cs ++ u :: ds) :
    (∃ between, as = cs ++ u :: between ∧ ds = between ++ t :: bs) ∨
      (as = cs ∧ t = u ∧ bs = ds) ∨
      ∃ between, cs = as ++ t :: between ∧ bs = between ++ u :: ds := by
  rcases List.append_eq_append_iff.1 h with ⟨between, hcs, hbs⟩ | ⟨between, has, hds⟩
  · cases between with
    | nil =>
      cases hbs
      exact .inr (.inl ⟨by simpa using hcs.symm, rfl, rfl⟩)
    | cons v between =>
      cases hbs
      exact .inr (.inr ⟨between, hcs, rfl⟩)
  · cases between with
    | nil =>
      cases hds
      exact .inr (.inl ⟨by simpa using has, rfl, rfl⟩)
    | cons v between =>
      cases hds
      exact .inl ⟨between, has, rfl⟩

/-- In a paired list, a bracket that is opened is closed later on, and one that
is closed was opened before. -/
theorem Paired.partner {ts : List Token} (h : Paired ts) (pre post : List Token) (t : Token)
    (hts : ts = pre ++ t :: post) (b : Bracket) :
    (t.opens? = some b → ∃ inner c rest, post = inner ++ c :: rest ∧ Partners t inner c) ∧
      (t.closes? = some b → ∃ before o inner, pre = before ++ o :: inner ∧
        Partners o inner t) := by
  induction h generalizing pre post with
  | nil => simp at hts
  | @other u us opens closes _ ih =>
    cases pre with
    | nil =>
      cases hts
      simp [opens, closes]
    | cons v pre =>
      cases hts
      obtain ⟨hopen, hclose⟩ := ih pre post rfl
      refine ⟨hopen, fun hb => ?_⟩
      obtain ⟨before, o, inner, rfl, hpartners⟩ := hclose hb
      exact ⟨u :: before, o, inner, rfl, hpartners⟩
  | @pair o c b' inner rest opens closes inside _ ihinside ihafter =>
    have hpair : Partners o inner c := ⟨⟨b', opens, closes⟩, inside⟩
    cases pre with
    | nil =>
      -- The token is the opening bracket of the pair.
      cases hts
      have hnone := closes?_of_opens? t b' opens
      exact ⟨fun _ => ⟨inner, c, rest, rfl, hpair⟩, by simp [hnone]⟩
    | cons v pre =>
      rw [List.cons_append, List.cons_append, List.cons.injEq] at hts
      obtain ⟨rfl, hts⟩ := hts
      rcases append_cons_cases _ _ _ _ _ _ hts with
        ⟨between, rfl, rfl⟩ | ⟨rfl, rfl, rfl⟩ | ⟨between, rfl, rfl⟩
      · -- It stands inside of the pair.
        obtain ⟨hopen, hclose⟩ := ihinside pre between rfl
        refine ⟨fun hb => ?_, fun hb => ?_⟩
        · obtain ⟨inner', c', rest', rfl, hpartners⟩ := hopen hb
          exact ⟨inner', c', rest' ++ c :: rest, by simp, hpartners⟩
        · obtain ⟨before, o', inner', rfl, hpartners⟩ := hclose hb
          exact ⟨o :: before, o', inner', rfl, hpartners⟩
      · -- It is the closing bracket.
        have hnone := opens?_of_closes? c b' closes
        exact ⟨by simp [hnone], fun _ => ⟨[], o, inner, rfl, hpair⟩⟩
      · -- It comes after the pair.
        obtain ⟨hopen, hclose⟩ := ihafter between post rfl
        refine ⟨hopen, fun hb => ?_⟩
        obtain ⟨before, o', inner', rfl, hpartners⟩ := hclose hb
        exact ⟨o :: inner ++ c :: before, o', inner', by simp, hpartners⟩

/-- The tokens of a source pass the check. -/
theorem checkBrackets_of_tokenize (source : String) (ts : List Token)
    (h : tokenize source = .ok ts) : checkBrackets (endLine ts) [] ts = .ok () := by
  unfold tokenize at h
  cases ht : Lexer.tokens {} source.toList with
  | error e =>
    rw [ht] at h
    cases h
  | ok us =>
    rw [ht] at h
    cases hb : checkBrackets (endLine us) [] us with
    | error e =>
      simp only [bind, Except.bind, hb] at h
      cases h
    | ok _ =>
      simp only [bind, Except.bind, hb, pure, Except.pure, Except.ok.injEq] at h
      subst h
      exact hb

/-- The brackets of the tokens of a source pair up. -/
theorem paired_of_tokenize (source : String) (ts : List Token) (h : tokenize source = .ok ts) :
    Paired ts :=
  (checkBrackets_eq_ok_iff _ _).1 (checkBrackets_of_tokenize source ts h)

/-- Reads the tokens of a source off its evaluation. -/
theorem tokenize_eq_ok (source : String) (ts : List Token)
    (h : (tokenize source).toOption = some ts) : tokenize source = .ok ts := by
  cases ht : tokenize source with
  | error e =>
    rw [ht] at h
    cases h
  | ok us =>
    rw [ht] at h
    cases h
    rfl

end Redeclaration
