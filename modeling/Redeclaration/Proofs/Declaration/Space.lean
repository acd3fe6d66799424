import Redeclaration.Proofs.Declaration.Tracking
import Redeclaration.Proofs.Token.Brackets

/-!
The namespace in force while a list of tokens is scanned. Only a name that is read
for a namespace puts another one into force, and whatever ends the name decides
about its depth; how deep the keyword itself stands is not looked at.
-/

namespace Redeclaration

open Outline

/-- A capture with one more token: the parts of names are put together. -/
def Capture.extend (c : Capture) (t : Token) : Capture :=
  { c with name := c.name ++ if t.kind.isNameFragment then t.text else "" }

namespace Scan

/-- The state after a list of tokens. -/
def after (s : Scan) (ts : List Token) : Scan :=
  ts.foldl step s

/-- The namespace in force: the qualifier of its members and the number of braces
around them. -/
def inForce (s : Scan) : String × Int :=
  (s.qualifier, s.depth)

/-- The name of a namespace is being read. -/
def namesSpace (s : Scan) : Bool :=
  s.capture.any (·.subject == .space)

/-- Whether an import starts right before the next token. -/
def useAfter (s : Scan) (t : Token) : Bool :=
  if t.kind.isIgnorable then s.afterUse else t.isKeyword .useKw

@[simp] theorem after_nil (s : Scan) : s.after [] = s := rfl

@[simp] theorem after_cons (s : Scan) (t : Token) (ts : List Token) :
    s.after (t :: ts) = (s.step t).after ts := rfl

@[simp] theorem after_append (s : Scan) (ts us : List Token) :
    s.after (ts ++ us) = (s.after ts).after us :=
  List.foldl_append

theorem declarations_append (s : Scan) (ts us : List Token) :
    s.declarations (ts ++ us) = s.declarations ts ++ (s.after ts).declarations us :=
  scan_append s ts us

/-- A token opens a capture, ends the one that is open, or goes on with it. -/
theorem step_cases (s : Scan) (t : Token) :
    (∃ c, Capture.start? s.afterUse t = some c ∧
      s.step t = { s with capture := some c, afterUse := s.useAfter t }) ∨
    (Capture.start? s.afterUse t = none ∧ endsCapture t = true ∧
      s.step t = { s.finish t with level := s.levelAfter t, afterUse := s.useAfter t }) ∨
    (Capture.start? s.afterUse t = none ∧ endsCapture t = false ∧
      s.step t = { s with capture := s.capture.map (·.extend t), afterUse := s.useAfter t }) := by
  unfold step follow
  cases hstart : Capture.start? s.afterUse t with
  | some c => exact .inl ⟨c, rfl, rfl⟩
  | none =>
    cases hends : endsCapture t with
    | true =>
      have hfragment : t.kind.isNameFragment = false := by
        have hpass := (endsCapture_facts s.afterUse t hends).2
        simp only [passes, Bool.or_eq_false_iff] at hpass
        exact hpass.2
      refine .inr (.inl ⟨rfl, rfl, ?_⟩)
      simp [hfragment, useAfter]
    | false =>
      refine .inr (.inr ⟨rfl, rfl, ?_⟩)
      cases hfragment : t.kind.isNameFragment <;> simp [Capture.extend, hfragment, useAfter]

theorem step_of_endsCapture (s : Scan) (t : Token) (h : endsCapture t = true) :
    s.step t = { s.finish t with level := s.levelAfter t, afterUse := s.useAfter t } := by
  rcases s.step_cases t with ⟨c, hc, -⟩ | ⟨-, -, hstep⟩ | ⟨-, hends, -⟩
  · rw [(endsCapture_facts s.afterUse t h).1] at hc
    cases hc
  · exact hstep
  · rw [h] at hends
    cases hends

@[simp] theorem finish_capture (s : Scan) (t : Token) : (s.finish t).capture = none := by
  unfold finish
  split <;> rfl

theorem finish_of_not_namesSpace (s : Scan) (t : Token) (h : s.namesSpace = false) :
    s.finish t = { s with capture := none } := by
  unfold finish
  split
  · rename_i hc
    simp [namesSpace, hc] at h
  · rfl

theorem start?_not_space (b : Bool) (t : Token) (c : Capture)
    (ht : t.isKeyword .namespaceKw = false) (h : Capture.start? b t = some c) :
    c.subject ≠ .space := by
  obtain ⟨k, hk, -, -, -, ⟨rfl, -⟩ | ⟨g, -, hs⟩⟩ := start?_eq_some b t c h
  · simp [Token.isKeyword, hk] at ht
  · simp [hs]

/-- A token other than the keyword of a namespace does not touch the namespace in
force, unless the name of one is being read. -/
theorem inForce_step (s : Scan) (t : Token) (hs : s.namesSpace = false)
    (ht : t.isKeyword .namespaceKw = false) :
    (s.step t).inForce = s.inForce ∧ (s.step t).namesSpace = false := by
  rcases s.step_cases t with ⟨c, hc, hstep⟩ | ⟨-, -, hstep⟩ | ⟨-, -, hstep⟩
  · have hsubject := start?_not_space s.afterUse t c ht hc
    rw [hstep]
    exact ⟨rfl, by simpa [namesSpace] using hsubject⟩
  · rw [hstep, finish_of_not_namesSpace s t hs]
    exact ⟨rfl, rfl⟩
  · rw [hstep]
    refine ⟨rfl, ?_⟩
    unfold namesSpace at hs ⊢
    rw [Option.any_map]
    exact hs

theorem inForce_after (s : Scan) (ts : List Token) (hs : s.namesSpace = false)
    (hts : ∀ t ∈ ts, t.isKeyword .namespaceKw = false) :
    (s.after ts).inForce = s.inForce ∧ (s.after ts).namesSpace = false := by
  induction ts generalizing s with
  | nil => exact ⟨rfl, hs⟩
  | cons t ts ih =>
    obtain ⟨hforce, hnames⟩ := inForce_step s t hs (hts t List.mem_cons_self)
    obtain ⟨hrest, hlast⟩ := ih (s.step t) hnames fun u hu => hts u (List.mem_cons_of_mem _ hu)
    exact ⟨hrest.trans hforce, hlast⟩

end Scan

/-- The parts of names in a list of tokens, put together. -/
def nameOf (ts : List Token) : String :=
  String.join ((ts.filter (·.kind.isNameFragment)).map (·.text))

theorem nameOf_cons (t : Token) (ts : List Token) :
    nameOf (t :: ts) = (if t.kind.isNameFragment then t.text else "") ++ nameOf ts := by
  unfold nameOf
  cases h : t.kind.isNameFragment <;> simp [h, String.join_cons]

namespace Scan

theorem passes_facts (t : Token) (h : passes t = true) :
    (∀ b, Capture.start? b t = none) ∧ endsCapture t = false ∧
      t.isKeyword .useKw = false ∧ t.isKeyword .namespaceKw = false := by
  cases hk : t.kind <;>
    simp_all [passes, Token.isTrivia, Kind.isTrivia, Kind.isNameFragment, Capture.start?,
      endsCapture, Token.isKeyword]

theorem step_of_passes (s : Scan) (t : Token) (ht : passes t = true) :
    s.step t =
      { s with capture := s.capture.map (·.extend t), afterUse := s.useAfter t } := by
  obtain ⟨hstart, hends, -, -⟩ := passes_facts t ht
  rcases s.step_cases t with ⟨c, hc, -⟩ | ⟨-, hends', -⟩ | ⟨-, -, hstep⟩
  · rw [hstart] at hc
    cases hc
  · rw [hends] at hends'
    cases hends'
  · exact hstep

/-- Trivia and parts of names make a capture longer, and do nothing else. -/
theorem after_of_passes (s : Scan) (c : Capture) (ts : List Token) (hc : s.capture = some c)
    (huse : s.afterUse = false) (hts : ∀ t ∈ ts, passes t = true) :
    s.after ts = { s with capture := some { c with name := c.name ++ nameOf ts } } := by
  induction ts generalizing s c with
  | nil => simp [nameOf, ← hc]
  | cons t ts ih =>
    have ht := hts t List.mem_cons_self
    have hafter : s.useAfter t = s.afterUse := by
      unfold useAfter
      rw [(passes_facts t ht).2.2.1, huse, ite_self]
    have hstep : s.step t = { s with capture := some (c.extend t) } := by
      rw [step_of_passes s t ht, hc, hafter]
      rfl
    have hrest := ih { s with capture := some (c.extend t) } (c.extend t) rfl huse
      fun u hu => hts u (List.mem_cons_of_mem _ hu)
    rw [after_cons, hstep, hrest, nameOf_cons, ← String.append_assoc]
    rfl

/-- The state after the keyword and the name of a namespace. -/
theorem after_spaceName (s : Scan) (t : Token) (name : List Token)
    (ht : t.isKeyword .namespaceKw = true) (hname : ∀ u ∈ name, passes u = true) :
    s.after (t :: name) =
      { s with capture := some ⟨.space, t.line, nameOf name⟩, afterUse := false } := by
  have hk : t.kind = .keyword .namespaceKw := beq_iff_eq.1 ht
  have hstep : s.step t =
      { s with capture := some ⟨.space, t.line, ""⟩, afterUse := false } := by
    simp [step, follow, Capture.start?, hk, Kind.isIgnorable, Kind.isTrivia, Token.isKeyword]
  rw [after_cons, hstep, after_of_passes _ ⟨.space, t.line, ""⟩ name rfl rfl hname,
    String.empty_append]

/-- The state after the whole head of a namespace hangs on the state before it by the
brace level only. -/
theorem after_spaceHead (s : Scan) (t e : Token) (name : List Token)
    (ht : t.isKeyword .namespaceKw = true) (hname : ∀ u ∈ name, passes u = true)
    (he : endsCapture e = true) :
    s.after (t :: name ++ [e]) =
      { qualifier := qualifierOf (nameOf name)
        depth := depthOf e
        level := s.levelAfter e
        afterUse := e.isKeyword .useKw } := by
  rw [after_append, after_spaceName s t name ht hname, after_cons, after_nil]
  generalize hs' : ({ s with capture := some ⟨.space, t.line, nameOf name⟩, afterUse := false } :
    Scan) = s'
  have hafter : s'.useAfter e = e.isKeyword .useKw := by
    unfold useAfter
    rw [← hs']
    split
    · rename_i hignorable
      cases hk : e.kind <;> simp_all [Kind.isIgnorable, Kind.isTrivia, Token.isKeyword]
    · rfl
  rw [step_of_endsCapture s' e he, hafter, ← hs']
  rfl

/-- From a state on, a token leaves the namespace in force for all that follows it, up
to the next keyword of a namespace. -/
def Keeps (s : Scan) (t : Token) (post : List Token) : Prop :=
  ∀ later, later <+: post → (∀ u ∈ later, u.isKeyword .namespaceKw = false) →
    (s.after (t :: later)).inForce = s.inForce

theorem not_namespaceKw_of_endsCapture (e : Token) (he : endsCapture e = true) :
    e.isKeyword .namespaceKw = false := by
  by_contra hk
  rw [Bool.not_eq_false, Token.isKeyword, beq_iff_eq] at hk
  simp [endsCapture, hk] at he

/-- The token that stops the name of a namespace puts it into force, or opens another
capture in its place. -/
theorem inForce_spaceStop (s : Scan) (t e : Token) (name : List Token)
    (ht : t.isKeyword .namespaceKw = true) (hname : ∀ u ∈ name, passes u = true)
    (he : passes e = false) (hk : e.isKeyword .namespaceKw = false) :
    (s.after (t :: name ++ [e])).namesSpace = false ∧
      (s.after (t :: name ++ [e])).inForce =
        if endsCapture e then (qualifierOf (nameOf name), depthOf e) else s.inForce := by
  cases hends : endsCapture e with
  | true =>
    rw [after_spaceHead s t e name ht hname hends]
    exact ⟨rfl, rfl⟩
  | false =>
    rw [after_append, after_spaceName s t name ht hname, after_cons, after_nil]
    generalize hs' : ({ s with capture := some ⟨.space, t.line, nameOf name⟩, afterUse := false } :
      Scan) = s'
    have hforce : s'.inForce = s.inForce := by rw [← hs']; rfl
    rcases s'.step_cases e with ⟨c, hc, hstep⟩ | ⟨-, hends', -⟩ | ⟨hnone, -, -⟩
    · have hsubject := start?_not_space s'.afterUse e c hk hc
      rw [hstep]
      exact ⟨by simpa [namesSpace] using hsubject, hforce⟩
    · rw [hends] at hends'
      cases hends'
    · -- No import stands between the keyword and the stop.
      rw [← hs'] at hnone
      rw [endsCapture_eq, he, hnone] at hends
      cases hends

/-- The keyword of a namespace leaves the namespace in force exactly if its name is
given up for another capture, or names the namespace that is in force already. -/
theorem keeps_iff (s : Scan) (t e : Token) (name rest : List Token)
    (ht : t.isKeyword .namespaceKw = true) (hname : ∀ u ∈ name, passes u = true)
    (he : passes e = false) :
    s.Keeps t (name ++ e :: rest) ↔
      (endsCapture e = true → (qualifierOf (nameOf name), depthOf e) = s.inForce) := by
  constructor
  · intro hkeeps hends
    have hk := not_namespaceKw_of_endsCapture e hends
    have hhead : ∀ u ∈ name ++ [e], u.isKeyword .namespaceKw = false := by
      intro u hu
      rcases List.mem_append.1 hu with hu | hu
      · exact (passes_facts u (hname u hu)).2.2.2
      · rwa [List.mem_singleton.1 hu]
    have hforce := hkeeps (name ++ [e]) ⟨rest, by simp⟩ hhead
    rwa [← List.cons_append, (inForce_spaceStop s t e name ht hname he hk).2, if_pos hends]
      at hforce
  · rintro hsame later ⟨more, hmore⟩ hlater
    have hpart (part : List Token) (hpart : ∀ u ∈ part, passes u = true) :
        (s.after (t :: part)).inForce = s.inForce := by
      rw [after_spaceName s t part ht hpart]
      rfl
    rcases List.append_eq_append_iff.1 hmore with ⟨as, rfl, -⟩ | ⟨as, rfl, has⟩
    · -- The name is still being read.
      exact hpart later fun u hu => hname u (List.mem_append_left _ hu)
    cases as with
    | nil => simpa using hpart name hname
    | cons e' as =>
      cases has
      obtain ⟨hspace, hforce⟩ := inForce_spaceStop s t e name ht hname he (hlater e (by simp))
      have hrest := inForce_after _ as hspace fun u hu => hlater u (by simp [hu])
      have hsplit : t :: (name ++ e :: as) = t :: name ++ [e] ++ as := by simp
      rw [hsplit, after_append, hrest.1, hforce]
      split
      · rename_i hends
        exact hsame hends
      · rfl

end Scan

theorem braces_append (as bs : List Token) : braces (as ++ bs) = braces as + braces bs := by
  unfold braces
  rw [List.countP_append, List.countP_append]
  push_cast
  omega

theorem braces_cons (t : Token) (ts : List Token) : braces (t :: ts) = braces [t] + braces ts :=
  braces_append [t] ts

theorem braces_of_not_isBracket (t : Token) (ho : t.opens? = none) (hc : t.closes? = none) :
    braces [t] = 0 := by
  cases hk : t.kind <;> simp_all [braces, opensBrace, Token.opens?, Token.closes?]

theorem braces_of_opens? (t : Token) (b : Bracket) (h : t.opens? = some b) :
    braces [t] = if b = .brace then 1 else 0 := by
  cases hk : t.kind with
  | punct =>
    have hb : b ≠ .brace := by
      rintro rfl
      simpa [hk, Kind.isBrace] using isBrace_of_opens? t h
    simp [braces, opensBrace, hk, hb]
  | _ => simp_all [Token.opens?, braces, opensBrace]

theorem braces_of_closes? (t : Token) (b : Bracket) (h : t.closes? = some b) :
    braces [t] = if b = .brace then -1 else 0 := by
  cases hk : t.kind with
  | punct =>
    have hb : b ≠ .brace := by
      rintro rfl
      simpa [hk] using kind_of_closes? t h
    simp [braces, opensBrace, hk, hb]
  | _ => simp_all [Token.closes?, braces, opensBrace]

theorem braces_of_paired (ts : List Token) (h : Paired ts) : braces ts = 0 := by
  induction h with
  | nil => rfl
  | @other t ts opens closes _ ih =>
    rw [braces_cons, ih, braces_of_not_isBracket t opens closes]
    rfl
  | @pair o c b inner rest opens closes _ _ ihinside ihafter =>
    rw [braces_append, braces_cons o, braces_cons c, ihinside, ihafter,
      braces_of_opens? o b opens, braces_of_closes? c b closes]
    split <;> rfl

theorem braces_of_not_endsCapture (t : Token) (h : Scan.endsCapture t = false) :
    braces [t] = 0 := by
  cases hk : t.kind <;>
    simp_all [braces, opensBrace, Scan.endsCapture, Kind.isTrivia, Kind.isNameFragment]

theorem braces_of_passes (ts : List Token) (h : ∀ t ∈ ts, passes t = true) : braces ts = 0 := by
  induction ts with
  | nil => rfl
  | cons t ts ih =>
    have hends := (Scan.passes_facts t (h t List.mem_cons_self)).2.1
    have hrest := ih fun u hu => h u (List.mem_cons_of_mem _ hu)
    rw [braces_cons, braces_of_not_endsCapture t hends, hrest]
    rfl

theorem depth_nonneg (ts : List Token) (i : Nat) : 0 ≤ Outline.depth ts i := by
  unfold Outline.depth
  split
  · decide
  · split <;> decide

/-- In the tokens of a source, the keyword of a namespace may stand deeper than the
members of the current namespace do, as the name of a class constant or of a method.
Its own name always meets a stop there. It leaves the namespace in force exactly if the
stop opens another capture, or if what the stop puts into force is in force already. -/
theorem nested_namespace_keeps_iff (source : String) (pre post : List Token) (t : Token)
    (h : tokenize source = .ok (pre ++ t :: post)) (ht : t.isKeyword .namespaceKw = true)
    (hnested : (Scan.after {} pre).depth < (Scan.after {} pre).level) :
    ∃ name e rest, post = name ++ e :: rest ∧ (∀ u ∈ name, passes u = true) ∧
      passes e = false ∧
      ((Scan.after {} pre).Keeps t post ↔
        (Scan.endsCapture e = true →
          (Scan.qualifierOf (nameOf name), Scan.depthOf e) = (Scan.after {} pre).inForce)) := by
  cases hfind : post.find? fun u => !passes u with
  | some e =>
    obtain ⟨he, name, rest, rfl, hname⟩ := List.find?_eq_some_iff_append.1 hfind
    have hname' : ∀ u ∈ name, passes u = true := by simpa using hname
    have he' : passes e = false := by simpa using he
    exact ⟨name, e, rest, rfl, hname', he', Scan.keeps_iff _ t e name rest ht hname' he'⟩
  | none =>
    -- Nothing would close the braces around the keyword.
    have hpost : ∀ u ∈ post, passes u = true := by simpa using hfind
    have htotal := braces_of_paired _ (paired_of_tokenize source _ h)
    have hkeyword : braces [t] = 0 := by
      simp [braces, opensBrace, beq_iff_eq.1 ht]
    rw [braces_append, braces_cons, hkeyword, braces_of_passes post hpost] at htotal
    have hlevel : (Scan.after {} pre).level = braces pre := (tracks_run pre).level
    have hdepth : (Scan.after {} pre).depth = Outline.depth pre pre.length :=
      (tracks_run pre).depth
    have hnonneg := depth_nonneg pre pre.length
    omega

theorem nested_namespace_keeps_iff_block :
    ∃ pre t post, tokenize "<?php namespace A;\x7bnamespace A;\x7d" = .ok (pre ++ t :: post) ∧
      t.isKeyword .namespaceKw = true ∧ (Scan.after {} pre).depth < (Scan.after {} pre).level ∧
      ∃ name e rest, post = name ++ e :: rest ∧ (∀ u ∈ name, passes u = true) ∧
        passes e = false ∧
        ((Scan.after {} pre).Keeps t post ↔
          (Scan.endsCapture e = true →
            (Scan.qualifierOf (nameOf name), Scan.depthOf e) = (Scan.after {} pre).inForce)) := by
  have h : tokenize "<?php namespace A;\x7bnamespace A;\x7d" = .ok
      ([⟨.openTag, "<?php ", 1⟩, ⟨.keyword .namespaceKw, "namespace", 1⟩, ⟨.whitespace, " ", 1⟩,
        ⟨.name, "A", 1⟩, ⟨.punct, ";", 1⟩, ⟨.openBrace, "\x7b", 1⟩] ++
        ⟨.keyword .namespaceKw, "namespace", 1⟩ :: [⟨.whitespace, " ", 1⟩, ⟨.name, "A", 1⟩,
          ⟨.punct, ";", 1⟩, ⟨.closeBrace, "\x7d", 1⟩]) :=
    tokenize_eq_ok _ _ (by decide +kernel)
  exact ⟨_, _, _, h, rfl, by decide, nested_namespace_keeps_iff _ _ _ _ h rfl (by decide)⟩

/-- A class constant with the name of the keyword takes the namespace away from the
class after it. -/
theorem nested_constant_resets_namespace :
    ∃ pre t post, tokenize
        "<?php namespace A;class X\x7bconst NAMESPACE=1;\x7dclass Y\x7b\x7d" =
          .ok (pre ++ t :: post) ∧
      t.isKeyword .namespaceKw = true ∧ (Scan.after {} pre).depth < (Scan.after {} pre).level ∧
      ¬ (Scan.after {} pre).Keeps t post ∧
      declarationsIn (pre ++ t :: post) = [⟨.type, "A\\X", 1⟩, ⟨.type, "Y", 1⟩] := by
  have h : tokenize
      "<?php namespace A;class X\x7bconst NAMESPACE=1;\x7dclass Y\x7b\x7d" = .ok
      ([⟨.openTag, "<?php ", 1⟩, ⟨.keyword .namespaceKw, "namespace", 1⟩, ⟨.whitespace, " ", 1⟩,
        ⟨.name, "A", 1⟩, ⟨.punct, ";", 1⟩, ⟨.keyword .classKw, "class", 1⟩,
        ⟨.whitespace, " ", 1⟩, ⟨.name, "X", 1⟩, ⟨.openBrace, "\x7b", 1⟩,
        ⟨.keyword .constKw, "const", 1⟩, ⟨.whitespace, " ", 1⟩] ++
        ⟨.keyword .namespaceKw, "NAMESPACE", 1⟩ :: [⟨.punct, "=", 1⟩, ⟨.number, "1", 1⟩,
          ⟨.punct, ";", 1⟩, ⟨.closeBrace, "\x7d", 1⟩, ⟨.keyword .classKw, "class", 1⟩,
          ⟨.whitespace, " ", 1⟩, ⟨.name, "Y", 1⟩, ⟨.openBrace, "\x7b", 1⟩,
          ⟨.closeBrace, "\x7d", 1⟩]) :=
    tokenize_eq_ok _ _ (by decide +kernel)
  refine ⟨_, _, _, h, rfl, by decide, ?_, by decide⟩
  intro hkeeps
  have hforce := hkeeps [⟨.punct, "=", 1⟩] (by decide) (by decide)
  exact absurd hforce (by decide)

end Redeclaration
