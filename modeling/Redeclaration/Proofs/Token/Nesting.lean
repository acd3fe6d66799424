import Redeclaration.Proofs.Token.Brackets

/-!
The language of well-nested brackets, told by a grammar: a word is empty, or an
opening bracket, a word, the closing bracket of its kind and a word again. Main
statement: the check accepts the token lists whose brackets are a word. It refuses
any other list at the end of the shortest part of its brackets that no word starts
with, or at the end of the list if there is no such part.
-/

namespace Redeclaration

/-- The tokens that open a bracket. -/
inductive Opener : Token → Bracket → Prop
  | brace {t : Token} (kind : t.kind = .openBrace ∨ t.kind = .curlyOpen ∨ t.kind = .dollarOpen) :
      Opener t .brace
  | paren {t : Token} (kind : t.kind = .punct) (text : t.text = "(") : Opener t .paren
  | square {t : Token} (kind : t.kind = .punct) (text : t.text = "[" ∨ t.text = "#[") :
      Opener t .square

/-- The tokens that close a bracket. -/
inductive Closer : Token → Bracket → Prop
  | brace {t : Token} (kind : t.kind = .closeBrace) : Closer t .brace
  | paren {t : Token} (kind : t.kind = .punct) (text : t.text = ")") : Closer t .paren
  | square {t : Token} (kind : t.kind = .punct) (text : t.text = "]") : Closer t .square

/-- The words of the grammar. -/
inductive Nested : List Token → Prop
  | nil : Nested []
  | pair {o c : Token} {b : Bracket} {inner rest : List Token} (opens : Opener o b)
      (closes : Closer c b) (inside : Nested inner) (after : Nested rest) :
      Nested (o :: inner ++ c :: rest)

/-- The brackets go on to some word. -/
def Viable (ws : List Token) : Prop :=
  ∃ more, Nested (ws ++ more)

namespace Token

def isDelimiter (t : Token) : Bool :=
  match t.kind with
  | .openBrace | .curlyOpen | .dollarOpen | .closeBrace => true
  | .punct => t.text ∈ ["(", "[", "#[", ")", "]"]
  | _ => false

end Token

/-- The brackets of a list of tokens. -/
def delimiters (ts : List Token) : List Token :=
  ts.filter Token.isDelimiter

theorem opens?_eq_some_iff (t : Token) (b : Bracket) : t.opens? = some b ↔ Opener t b := by
  constructor
  · intro h
    unfold Token.opens? at h
    split at h
    · cases h
      exact .brace (by simp [*])
    · cases h
      exact .brace (by simp [*])
    · cases h
      exact .brace (by simp [*])
    · split at h
      · cases h
        exact .paren ‹_› (by simpa using ‹(t.text == "(") = true›)
      split at h
      · cases h
        exact .square ‹_› (by simpa using ‹(t.text == "[" || t.text == "#[") = true›)
      · cases h
    · cases h
  · intro h
    cases h with
    | brace kind => rcases kind with kind | kind | kind <;> simp [Token.opens?, kind]
    | paren kind text => simp [Token.opens?, kind, text]
    | square kind text => rcases text with text | text <;> simp [Token.opens?, kind, text]

theorem closes?_eq_some_iff (t : Token) (b : Bracket) : t.closes? = some b ↔ Closer t b := by
  constructor
  · intro h
    unfold Token.closes? at h
    split at h
    · cases h
      exact .brace ‹_›
    · split at h
      · cases h
        exact .paren ‹_› (by simpa using ‹(t.text == ")") = true›)
      split at h
      · cases h
        exact .square ‹_› (by simpa using ‹(t.text == "]") = true›)
      · cases h
    · cases h
  · intro h
    cases h with
    | brace kind => simp [Token.closes?, kind]
    | paren kind text => simp [Token.closes?, kind, text]
    | square kind text => simp [Token.closes?, kind, text]

theorem isDelimiter_of_opener (t : Token) (b : Bracket) (h : Opener t b) :
    t.isDelimiter = true := by
  cases h with
  | brace kind => rcases kind with kind | kind | kind <;> simp [Token.isDelimiter, kind]
  | paren kind text => simp [Token.isDelimiter, kind, text]
  | square kind text => rcases text with text | text <;> simp [Token.isDelimiter, kind, text]

theorem isDelimiter_of_closer (t : Token) (b : Bracket) (h : Closer t b) :
    t.isDelimiter = true := by
  cases h with
  | brace kind => simp [Token.isDelimiter, kind]
  | paren kind text => simp [Token.isDelimiter, kind, text]
  | square kind text => simp [Token.isDelimiter, kind, text]

theorem opener_or_closer (t : Token) (h : t.isDelimiter = true) :
    ∃ b, Opener t b ∨ Closer t b := by
  unfold Token.isDelimiter at h
  split at h
  · exact ⟨.brace, .inl (.brace (by simp [*]))⟩
  · exact ⟨.brace, .inl (.brace (by simp [*]))⟩
  · exact ⟨.brace, .inl (.brace (by simp [*]))⟩
  · exact ⟨.brace, .inr (.brace ‹_›)⟩
  · rename_i hkind
    simp only [List.mem_cons, List.not_mem_nil, or_false, decide_eq_true_eq] at h
    rcases h with h | h | h | h | h
    · exact ⟨.paren, .inl (.paren hkind h)⟩
    · exact ⟨.square, .inl (.square hkind (.inl h))⟩
    · exact ⟨.square, .inl (.square hkind (.inr h))⟩
    · exact ⟨.paren, .inr (.paren hkind h)⟩
    · exact ⟨.square, .inr (.square hkind h)⟩
  · cases h

/-- A delimiter opens or closes a bracket, and no other token does. -/
theorem isDelimiter_eq_false_iff (t : Token) :
    t.isDelimiter = false ↔ t.opens? = none ∧ t.closes? = none := by
  constructor
  · intro h
    constructor
    · by_contra hne
      obtain ⟨b, hb⟩ := Option.ne_none_iff_exists'.1 hne
      rw [isDelimiter_of_opener t b ((opens?_eq_some_iff t b).1 hb)] at h
      cases h
    · by_contra hne
      obtain ⟨b, hb⟩ := Option.ne_none_iff_exists'.1 hne
      rw [isDelimiter_of_closer t b ((closes?_eq_some_iff t b).1 hb)] at h
      cases h
  · rintro ⟨hopens, hcloses⟩
    by_contra hdelimiter
    obtain ⟨b, hb | hb⟩ := opener_or_closer t (by simpa using hdelimiter)
    · rw [(opens?_eq_some_iff t b).2 hb] at hopens
      cases hopens
    · rw [(closes?_eq_some_iff t b).2 hb] at hcloses
      cases hcloses

/-! Words and paired lists. -/

theorem paired_of_nested (ws : List Token) (h : Nested ws) : Paired ws := by
  induction h with
  | nil => exact .nil
  | @pair o c b inner rest opens closes _ _ ihinside ihafter =>
    exact .pair ((opens?_eq_some_iff o b).2 opens) ((closes?_eq_some_iff c b).2 closes) ihinside
      ihafter

theorem nested_of_paired (ts : List Token) (h : Paired ts) : Nested (delimiters ts) := by
  unfold delimiters
  induction h with
  | nil => exact .nil
  | @other t ts opens closes _ ih =>
    have hother := (isDelimiter_eq_false_iff t).2 ⟨opens, closes⟩
    rwa [List.filter_cons_of_neg (by simp [hother])]
  | @pair o c b inner rest opens closes _ _ ihinside ihafter =>
    have hopens := (opens?_eq_some_iff o b).1 opens
    have hcloses := (closes?_eq_some_iff c b).1 closes
    rw [List.filter_append, List.filter_cons_of_pos (isDelimiter_of_opener o b hopens),
      List.filter_cons_of_pos (isDelimiter_of_closer c b hcloses)]
    exact .pair hopens hcloses ihinside ihafter

/-- The check looks at the brackets only. -/
theorem checkBrackets_delimiters (line : Nat) (pending : List Bracket) (ts : List Token) :
    checkBrackets line pending (delimiters ts) = checkBrackets line pending ts := by
  unfold delimiters
  induction ts generalizing pending with
  | nil => rfl
  | cons t ts ih =>
    cases hdelimiter : t.isDelimiter with
    | false =>
      obtain ⟨hopens, hcloses⟩ := (isDelimiter_eq_false_iff t).1 hdelimiter
      have hafter : t.bracketsAfter? pending = some pending := by
        simp [Token.bracketsAfter?, hopens, hcloses]
      rw [List.filter_cons_of_neg (by simp [hdelimiter]), checkBrackets, hafter]
      exact ih pending
    | true =>
      rw [List.filter_cons_of_pos hdelimiter, checkBrackets, checkBrackets]
      split
      · exact ih _
      · rfl

theorem checkBrackets_eq_ok_iff_nested (line : Nat) (ts : List Token) :
    checkBrackets line [] ts = .ok () ↔ Nested (delimiters ts) := by
  constructor
  · intro h
    exact nested_of_paired ts ((checkBrackets_eq_ok_iff line ts).1 h)
  · intro h
    rw [← checkBrackets_delimiters, checkBrackets_eq_ok_iff]
    exact paired_of_nested _ h

/-! What can still become a word. -/

theorem viable_of_isPrefix (vs ws : List Token) (hfront : vs <+: ws) (h : Viable ws) :
    Viable vs := by
  obtain ⟨rest, rfl⟩ := hfront
  obtain ⟨more, hmore⟩ := h
  exact ⟨rest ++ more, by rwa [← List.append_assoc]⟩

/-- A token that closes a bracket. -/
def closerOf : Bracket → Token
  | .brace => ⟨.closeBrace, "\x7d", 0⟩
  | .paren => ⟨.punct, ")", 0⟩
  | .square => ⟨.punct, "]", 0⟩

theorem closes?_closerOf (b : Bracket) : (closerOf b).closes? = some b := by
  cases b <;> decide

/-- Whatever is open can be closed. -/
theorem checkBrackets_closerOf (line : Nat) (pending : List Bracket) :
    checkBrackets line pending (pending.map closerOf) = .ok () := by
  induction pending with
  | nil => rfl
  | cons b pending ih =>
    have hcloses := closes?_closerOf b
    have hopens := opens?_of_closes? _ b hcloses
    rw [List.map_cons, checkBrackets]
    simpa [Token.bracketsAfter?, hopens, hcloses] using ih

/-- Brackets go on to a word exactly if none of them closes a wrong one. -/
theorem viable_iff (ws : List Token) (hws : ∀ t ∈ ws, t.isDelimiter = true) :
    Viable ws ↔ ∃ pending, openBrackets? [] ws = some pending := by
  constructor
  · rintro ⟨more, hmore⟩
    apply exists_openBrackets? 0 [] ws more
    exact (checkBrackets_eq_ok_iff 0 _).2 (paired_of_nested _ hmore)
  · rintro ⟨pending, hpending⟩
    have hcheck : checkBrackets 0 [] (ws ++ pending.map closerOf) = .ok () := by
      rw [checkBrackets_of_openBrackets? 0 [] pending ws _ hpending]
      exact checkBrackets_closerOf 0 pending
    have hall : delimiters (ws ++ pending.map closerOf) = ws ++ pending.map closerOf := by
      apply List.filter_eq_self.2
      intro t ht
      rcases List.mem_append.1 ht with ht | ht
      · exact hws t ht
      · obtain ⟨b, -, rfl⟩ := List.mem_map.1 ht
        exact isDelimiter_of_closer _ b ((closes?_eq_some_iff _ b).1 (closes?_closerOf b))
    refine ⟨pending.map closerOf, ?_⟩
    rw [← hall]
    exact (checkBrackets_eq_ok_iff_nested 0 _).1 hcheck

/-- A list of tokens leaves brackets open, or has a first token that closes a wrong
one. -/
theorem openBrackets?_cases (pending : List Bracket) (ts : List Token) :
    (∃ later, openBrackets? pending ts = some later) ∨
      ∃ pre t post later, ts = pre ++ t :: post ∧ openBrackets? pending pre = some later ∧
        t.bracketsAfter? later = none := by
  induction ts generalizing pending with
  | nil => exact .inl ⟨pending, rfl⟩
  | cons t ts ih =>
    cases hafter : t.bracketsAfter? pending with
    | none => exact .inr ⟨[], t, ts, pending, rfl, rfl, hafter⟩
    | some next =>
      have hcons (us : List Token) : openBrackets? pending (t :: us) = openBrackets? next us := by
        rw [openBrackets?, List.foldlM_cons, hafter]
        rfl
      rcases ih next with ⟨later, hlater⟩ | ⟨pre, u, post, later, rfl, hlater, hu⟩
      · exact .inl ⟨later, by rw [hcons, hlater]⟩
      · exact .inr ⟨t :: pre, u, post, later, rfl, by rw [hcons, hlater], hu⟩

theorem openBrackets?_snoc_of_none (pending later : List Bracket) (ts : List Token) (t : Token)
    (hts : openBrackets? pending ts = some later) (ht : t.bracketsAfter? later = none) :
    openBrackets? pending (ts ++ [t]) = none := by
  unfold openBrackets? at hts ⊢
  rw [List.foldlM_append, hts]
  simp [ht]

theorem isDelimiter_of_isPrefix (ws ts : List Token) (h : ws <+: delimiters ts) (t : Token)
    (ht : t ∈ ws) : t.isDelimiter = true :=
  (List.mem_filter.1 (h.subset ht)).2

/-- The check accepts the token lists whose brackets are a word of the grammar. If a
part of the brackets cannot become one, the check blames the last token of the shortest
such part, and if all parts can, it blames the end of the list. -/
theorem checkBrackets_outcome (line : Nat) (ts : List Token) :
    (checkBrackets line [] ts = .ok () ↔ Nested (delimiters ts)) ∧
    ((∃ ws, ws <+: delimiters ts ∧ ¬ Viable ws) →
      ∃ ws t e, ws ++ [t] <+: delimiters ts ∧ ¬ Viable (ws ++ [t]) ∧
        (∀ vs, vs <+: delimiters ts → ¬ Viable vs → (ws ++ [t]).length ≤ vs.length) ∧
        checkBrackets line [] ts = .error e ∧
        e.reason = "syntax error, unexpected token \"" ++ t.text ++ "\"" ∧ e.line = t.line) ∧
    (¬ Nested (delimiters ts) → (∀ ws, ws <+: delimiters ts → Viable ws) →
      ∃ e, checkBrackets line [] ts = .error e ∧
        e.reason = "syntax error, unexpected end of file" ∧ e.line = line) := by
  have hviable (ws : List Token) (hws : ws <+: delimiters ts) :
      Viable ws ↔ ∃ pending, openBrackets? [] ws = some pending :=
    viable_iff ws (isDelimiter_of_isPrefix ws ts hws)
  refine ⟨checkBrackets_eq_ok_iff_nested line ts, ?_, ?_⟩
  · rintro ⟨ws, hws, hdead⟩
    rcases openBrackets?_cases [] (delimiters ts) with
      hopen | ⟨pre, t, post, later, hsplit, hpre, ht⟩
    · -- All of the brackets can become a word, so each part of them can.
      have hall := (hviable _ List.prefix_rfl).2 hopen
      exact absurd (viable_of_isPrefix ws _ hws hall) hdead
    · have hfront : pre <+: delimiters ts := ⟨t :: post, hsplit.symm⟩
      have hshortest : pre ++ [t] <+: delimiters ts := ⟨post, by simp [hsplit]⟩
      refine ⟨pre, t, ⟨.unexpectedToken t.text, t.line⟩, hshortest, ?_, ?_, ?_, rfl, rfl⟩
      · rw [hviable _ hshortest, openBrackets?_snoc_of_none [] later pre t hpre ht]
        simp
      · intro vs hvs hvdead
        by_contra hlength
        rw [List.length_append, List.length_singleton] at hlength
        have hvs' : vs <+: pre := List.prefix_of_prefix_length_le hvs hfront (by omega)
        exact hvdead (viable_of_isPrefix vs pre hvs' ((hviable pre hfront).2 ⟨later, hpre⟩))
      · rw [← checkBrackets_delimiters, hsplit,
          checkBrackets_of_openBrackets? line [] later pre _ hpre, checkBrackets, ht]
  · intro hno hall
    obtain ⟨pending, hpending⟩ := (hviable _ List.prefix_rfl).1 (hall _ List.prefix_rfl)
    have hcheck : checkBrackets line [] ts = checkBrackets line pending [] := by
      rw [← checkBrackets_delimiters, ← List.append_nil (delimiters ts)]
      exact checkBrackets_of_openBrackets? line [] pending _ [] hpending
    cases pending with
    | nil => exact absurd ((checkBrackets_eq_ok_iff_nested line ts).1 hcheck) hno
    | cons b pending => exact ⟨_, hcheck, rfl, rfl⟩

example : checkBrackets 7 [] [⟨.punct, "#[", 1⟩, ⟨.name, "A", 1⟩, ⟨.punct, ")", 2⟩] =
    .error ⟨.unexpectedToken ")", 2⟩ := by
  decide

end Redeclaration
