import Redeclaration.Proofs.Declaration.Traceless

/-!
Statements that declare constants. Such a statement may bind several names, with commas
between them. Main statement: the first name is declared, and every further one is passed over
without a trace, since it follows a comma and not a keyword.
-/

namespace Redeclaration

open Outline

/-- A comma or a semicolon. -/
def Token.isSeparator (t : Token) : Bool :=
  t.kind == .punct && (t.text == "," || t.text == ";")

/-- The tokens of an expression: their brackets pair up, and no comma or semicolon stands
outside of these. -/
inductive Expression : List Token → Prop
  | nil : Expression []
  | other {t : Token} {ts : List Token} (opens : t.opens? = none) (closes : t.closes? = none)
      (separates : t.isSeparator = false) (rest : Expression ts) : Expression (t :: ts)
  | pair {o c : Token} {b : Bracket} {inner rest : List Token} (opens : o.opens? = some b)
      (closes : c.closes? = some b) (inside : Paired inner) (after : Expression rest) :
      Expression (o :: inner ++ c :: rest)

theorem Expression.paired {ts : List Token} (h : Expression ts) : Paired ts := by
  induction h with
  | nil => exact .nil
  | other opens closes _ _ ih => exact .other opens closes ih
  | pair opens closes inside _ ih => exact .pair opens closes inside ih

/-- A name with the expression that it is bound to. Trivia may stand around the name, and
anywhere in the expression. -/
structure Binding where
  gap : List Token
  name : Token
  space : List Token
  equals : Token
  value : List Token
  gap_trivia : ∀ t ∈ gap, t.isTrivia = true
  name_kind : name.kind = .name
  name_text : name.text ≠ ""
  space_trivia : ∀ t ∈ space, t.isTrivia = true
  equals_kind : equals.kind = .punct
  equals_text : equals.text = "="
  value_expression : Expression value

namespace Binding

/-- What follows the name. -/
def tail (b : Binding) : List Token :=
  b.space ++ b.equals :: b.value

def tokens (b : Binding) : List Token :=
  b.gap ++ b.name :: b.tail

/-- The tokens without the name. -/
def nameless (b : Binding) : List Token :=
  b.gap ++ b.tail

end Binding

/-- A comma with the binding that it puts behind the ones before. -/
structure FurtherBinding extends Binding where
  comma : Token
  comma_kind : comma.kind = .punct
  comma_text : comma.text = ","

/-- A statement that declares constants, from its keyword up to its semicolon. -/
structure ConstantStatement where
  keyword : Token
  first : Binding
  more : List FurtherBinding
  semicolon : Token
  keyword_kind : keyword.isKeyword .constKw = true
  semicolon_kind : semicolon.kind = .punct
  semicolon_text : semicolon.text = ";"

namespace ConstantStatement

def tokens (c : ConstantStatement) : List Token :=
  c.keyword :: c.first.tokens ++ c.more.flatMap (fun b => b.comma :: b.tokens) ++ [c.semicolon]

/-- The tokens without any name but the first. -/
def firstNamed (c : ConstantStatement) : List Token :=
  c.keyword :: c.first.tokens ++ c.more.flatMap (fun b => b.comma :: b.nameless) ++ [c.semicolon]

/-- The values of all names. -/
def values (c : ConstantStatement) : List Token :=
  c.first.value ++ c.more.flatMap (·.value)

/-- The declaration of the first name, by the keyword of the statement. -/
def declaration (c : ConstantStatement) (qualifier : String) : Declaration :=
  ⟨.constant, qualifier ++ c.first.name.text, c.keyword.line⟩

end ConstantStatement

namespace Scan

/-! Two lists that a scan runs over alike. -/

def Alike (s : Scan) (ts us : List Token) : Prop :=
  s.declarations ts = s.declarations us ∧ s.after ts = s.after us

theorem Alike.refl (s : Scan) (ts : List Token) : s.Alike ts ts :=
  ⟨rfl, rfl⟩

theorem Alike.append {s : Scan} {ts us ts' us' : List Token} (h : s.Alike ts us)
    (h' : (s.after us).Alike ts' us') : s.Alike (ts ++ ts') (us ++ us') := by
  obtain ⟨hdeclared, hafter⟩ := h
  obtain ⟨hdeclared', hafter'⟩ := h'
  constructor
  · rw [declarations_append, declarations_append, hdeclared, hafter, hdeclared']
  · rw [after_append, after_append, hafter, hafter']

theorem alike_flatMap {α : Type} (f g : α → List Token) (xs : List α)
    (h : ∀ x ∈ xs, ∀ s : Scan, s.Alike (f x) (g x)) (s : Scan) :
    s.Alike (xs.flatMap f) (xs.flatMap g) := by
  induction xs generalizing s with
  | nil => exact .refl s []
  | cons x xs ih =>
    rw [List.flatMap_cons, List.flatMap_cons]
    apply (h x List.mem_cons_self s).append
    apply ih
    intro y hy
    exact h y (List.mem_cons_of_mem x hy)

/-! A scan that captures nothing. -/

/-- Punctuation leaves nothing captured, and no import right before the next token. -/
theorem step_of_punct (s : Scan) (t : Token) (h : t.kind = .punct) :
    s.step t = { s.finish t with level := s.level, afterUse := false } := by
  have hends : endsCapture t = true := by
    simp [endsCapture, h, Kind.isTrivia, Kind.isNameFragment]
  have hafter : s.useAfter t = false := by
    simp [useAfter, h, Kind.isIgnorable, Kind.isTrivia, Token.isKeyword]
  have hlevel : s.levelAfter t = s.level := by
    simp [levelAfter, h]
  rw [step_of_endsCapture s t hends, hafter, hlevel]

/-- A name is not looked at where nothing is captured. -/
theorem alike_of_name (s : Scan) (t : Token) (hs : s.capture = none) (huse : s.afterUse = false)
    (ht : t.kind = .name) : s.Alike [t] [] := by
  have hpasses : passes t = true := by
    simp [passes, ht, Kind.isNameFragment]
  have hafter : s.useAfter t = s.afterUse := by
    simp [useAfter, ht, huse, Kind.isIgnorable, Kind.isTrivia, Token.isKeyword]
  constructor
  · exact (skips_of_passes s t hs hpasses).1
  · rw [after_cons, step_of_passes s t hpasses, hs, hafter, Option.map_none, ← hs]

/-- A comma ends whatever was captured, so that the name behind it goes nowhere. -/
theorem alike_nameless (s : Scan) (b : FurtherBinding) :
    s.Alike (b.comma :: b.tokens) (b.comma :: b.nameless) := by
  have hgap : (s.after (b.comma :: b.gap)) = s.step b.comma :=
    (run_of_padded s [b.comma] _ (.keep (padded_of_trivia b.gap b.gap_trivia))).2
  have hidle := step_of_punct s b.comma b.comma_kind
  have hname : (s.after (b.comma :: b.gap)).Alike [b.name] [] := by
    rw [hgap, hidle]
    apply alike_of_name _ _ _ rfl b.name_kind
    exact finish_capture s b.comma
  have htokens : b.comma :: b.tokens = (b.comma :: b.gap ++ [b.name]) ++ b.tail := by
    simp [Binding.tokens]
  have hnameless : b.comma :: b.nameless = (b.comma :: b.gap ++ []) ++ b.tail := by
    simp [Binding.nameless]
  rw [htokens, hnameless]
  exact ((Alike.refl s _).append hname).append (.refl _ _)

theorem alike_firstNamed (s : Scan) (c : ConstantStatement) :
    s.Alike c.tokens c.firstNamed := by
  apply Alike.append _ (.refl _ _)
  apply (Alike.refl s _).append
  apply alike_flatMap
  intro b _ s'
  exact alike_nameless s' b

/-- Whatever is captured already, the keyword of constants starts anew, unless in an
import. -/
theorem step_of_constKw (s : Scan) (t : Token) (h : t.isKeyword .constKw = true)
    (huse : s.afterUse = false) :
    s.step t = { s with capture := some ⟨.declaration .constant, t.line, ""⟩ } := by
  have hk : t.kind = .keyword .constKw := beq_iff_eq.1 h
  simp [step, follow, Capture.start?, Group.ofKeyword?, hk, huse, Kind.isIgnorable, Kind.isTrivia,
    Token.isKeyword]

/-- The tokens of a binding up to its sign of equality are part of one capture. -/
theorem passes_binding (b : Binding) :
    (∀ t ∈ b.gap ++ b.name :: b.space, passes t = true) ∧
      nameOf (b.gap ++ b.name :: b.space) = b.name.text := by
  have htrivia (ts : List Token) (h : ∀ t ∈ ts, t.isTrivia = true) :
      ts.filter (·.kind.isNameFragment) = [] := by
    rw [List.filter_eq_nil_iff]
    intro t ht hfragment
    have hk : t.kind.isTrivia = true := h t ht
    cases htk : t.kind <;> simp_all [Kind.isTrivia, Kind.isNameFragment]
  have hname : b.name.kind.isNameFragment = true := by
    rw [b.name_kind]
    rfl
  constructor
  · intro t ht
    rw [List.mem_append, List.mem_cons] at ht
    rcases ht with ht | rfl | ht
    · simp [passes, b.gap_trivia t ht]
    · simp [passes, hname]
    · simp [passes, b.space_trivia t ht]
  · rw [nameOf, List.filter_append, htrivia _ b.gap_trivia, List.nil_append,
      List.filter_cons_of_pos (by exact hname), htrivia _ b.space_trivia]
    simp [String.join]

/-- Up to its first sign of equality, a statement declares its first name. -/
theorem run_first (s : Scan) (c : ConstantStatement) (huse : s.afterUse = false)
    (hlevel : s.level = s.depth) :
    s.declarations (c.keyword :: (c.first.gap ++ c.first.name :: c.first.space) ++
        [c.first.equals]) = [c.declaration s.qualifier] ∧
      s.after (c.keyword :: (c.first.gap ++ c.first.name :: c.first.space) ++
        [c.first.equals]) = { s with capture := none } := by
  obtain ⟨hpasses, hname⟩ := passes_binding c.first
  have hstart := step_of_constKw s c.keyword c.keyword_kind huse
  have hequals : endsCapture c.first.equals = true := by
    simp [endsCapture, c.first.equals_kind, Kind.isTrivia, Kind.isNameFragment]
  have hcaptured : s.after (c.keyword :: (c.first.gap ++ c.first.name :: c.first.space)) =
      { s with
        capture := some ⟨.declaration .constant, c.keyword.line, c.first.name.text⟩ } := by
    rw [after_cons, hstart]
    rw [after_of_passes { s with capture := some ⟨.declaration .constant, c.keyword.line, ""⟩ }
      _ _ rfl huse hpasses, hname, String.empty_append]
  -- Nothing is declared before the sign of equality ends the capture.
  have hsilent : s.declarations (c.keyword :: (c.first.gap ++ c.first.name :: c.first.space)) =
      [] := by
    apply declarations_of_not_endsCapture
    intro t ht
    rcases List.mem_cons.1 ht with rfl | ht
    · have hk : c.keyword.kind = .keyword .constKw := beq_iff_eq.1 c.keyword_kind
      simp [endsCapture, hk]
    · exact (passes_facts t (hpasses t ht)).2.1
  constructor
  · rw [declarations_append, hsilent, hcaptured]
    simp [declarations, completed?, hequals, c.first.name_text, levelAt, c.first.equals_kind,
      Kind.opensInterpolation, hlevel, ConstantStatement.declaration]
  · rw [after_append, hcaptured, after_cons, after_nil, step_of_punct _ _ c.first.equals_kind,
      ← huse]
    rfl

/-- Where nothing is captured and no keyword starts a capture, nothing is declared, and only the
braces count. -/
theorem run_idle (s : Scan) (ts : List Token) (hs : s.capture = none)
    (hts : ∀ t ∈ ts, Capture.start? false t = none) :
    s.declarations ts = [] ∧
      ∃ b, s.after ts = { s with level := s.level + braces ts, afterUse := b } := by
  induction ts generalizing s with
  | nil => exact ⟨rfl, s.afterUse, by simp [braces]⟩
  | cons t ts ih =>
    have hstart : Capture.start? s.afterUse t = none := by
      have hnone := hts t List.mem_cons_self
      cases hk : t.kind with
      | keyword k => cases k <;> simp_all [Capture.start?, Group.ofKeyword?]
      | _ => simp [Capture.start?, hk]
    have hstep : s.step t =
        { s with level := s.level + braces [t], afterUse := s.useAfter t } := by
      rcases s.step_cases t with ⟨c, hc, -⟩ | ⟨-, -, hstep⟩ | ⟨-, hends, hstep⟩
      · rw [hstart] at hc
        cases hc
      · have hspace : s.namesSpace = false := by simp [namesSpace, hs]
        rw [hstep, finish_of_not_namesSpace s t hspace, levelAfter_eq_braces, ← hs]
      · rw [hstep, hs, braces_of_not_endsCapture t hends, Int.add_zero, Option.map_none, ← hs]
    obtain ⟨hdeclared, b, hafter⟩ := ih (s.step t) (by rw [hstep]; exact hs)
      fun u hu => hts u (List.mem_cons_of_mem t hu)
    refine ⟨?_, b, ?_⟩
    · rw [declarations, completed?_of_idle s t hs, hdeclared]
      rfl
    · rw [after_cons, hafter, hstep, braces_cons t ts, Int.add_assoc]

/-- Tokens that start no capture and leave the brace level. -/
structure Silent (ts : List Token) : Prop where
  starts : ∀ t ∈ ts, Capture.start? false t = none
  level : braces ts = 0

theorem Silent.append {ts us : List Token} (hts : Silent ts) (hus : Silent us) :
    Silent (ts ++ us) := by
  refine ⟨?_, ?_⟩
  · intro t ht
    rcases List.mem_append.1 ht with ht | ht
    · exact hts.starts t ht
    · exact hus.starts t ht
  · rw [braces_append, hts.level, hus.level]
    rfl

theorem silent_flatMap {α : Type} (f : α → List Token) (xs : List α)
    (h : ∀ x ∈ xs, Silent (f x)) : Silent (xs.flatMap f) := by
  induction xs with
  | nil => exact ⟨nofun, rfl⟩
  | cons x xs ih =>
    rw [List.flatMap_cons]
    apply (h x List.mem_cons_self).append
    apply ih
    intro y hy
    exact h y (List.mem_cons_of_mem x hy)

theorem silent_of_passes (ts : List Token) (h : ∀ t ∈ ts, passes t = true) : Silent ts :=
  ⟨fun t ht => (passes_facts t (h t ht)).1 false, braces_of_passes ts h⟩

theorem silent_of_punct (t : Token) (h : t.kind = .punct) : Silent [t] := by
  refine ⟨?_, by simp [braces, opensBrace, h]⟩
  intro u hu
  rw [List.mem_singleton.1 hu]
  simp [Capture.start?, h]

/-- Whether a binding is silent hangs on its value alone. -/
theorem silent_binding (b : Binding) (h : ∀ t ∈ b.value, Capture.start? false t = none) :
    Silent b.tokens := by
  have hvalue : Silent b.value := ⟨h, braces_of_paired _ b.value_expression.paired⟩
  have htokens : b.tokens = (b.gap ++ b.name :: b.space) ++ ([b.equals] ++ b.value) := by
    simp [Binding.tokens, Binding.tail]
  rw [htokens]
  apply (silent_of_passes _ (passes_binding b).1).append
  exact (silent_of_punct b.equals b.equals_kind).append hvalue

/-- What follows the first sign of equality declares nothing, unless a value does. -/
theorem run_rest (s : Scan) (c : ConstantStatement) (hs : s.capture = none)
    (huse : s.afterUse = false) (hvalues : ∀ t ∈ c.values, Capture.start? false t = none) :
    s.declarations (c.first.value ++ c.more.flatMap (fun b => b.comma :: b.tokens) ++
        [c.semicolon]) = [] ∧
      s.after (c.first.value ++ c.more.flatMap (fun b => b.comma :: b.tokens) ++
        [c.semicolon]) = s := by
  have hfirst : Silent c.first.value := by
    refine ⟨?_, braces_of_paired _ c.first.value_expression.paired⟩
    intro t ht
    exact hvalues t (List.mem_append_left _ ht)
  have hmore : Silent (c.more.flatMap fun b => b.comma :: b.tokens) := by
    apply silent_flatMap
    intro b hb
    apply (silent_of_punct b.comma b.comma_kind).append
    apply silent_binding
    intro t ht
    apply hvalues
    exact List.mem_append_right _ (List.mem_flatMap.2 ⟨b, hb, ht⟩)
  have hrest := (hfirst.append hmore).append (silent_of_punct c.semicolon c.semicolon_kind)
  obtain ⟨hdeclared, b, hafter⟩ := run_idle s _ hs hrest.starts
  refine ⟨hdeclared, ?_⟩
  -- The semicolon comes last, so that no import starts right behind the statement.
  have hlast : b = false := by
    have hsemicolon := congrArg Scan.afterUse hafter
    rw [after_append, after_cons, after_nil, step_of_punct _ _ c.semicolon_kind] at hsemicolon
    exact hsemicolon.symm
  rw [hafter, hrest.level, hlast, Int.add_zero, ← huse]

end Scan

/-- A statement for constants at the top level of a namespace declares its first name. Its
further names are passed over: without them, whatever they are, the same is declared. If no
keyword starts a capture inside of the values, the first name is all that the statement
declares, and the scan goes on after it as before. -/
theorem declarationsIn_constants (pre post : List Token) (c : ConstantStatement)
    (hlevel : (Scan.after {} pre).level = (Scan.after {} pre).depth)
    (huse : withinUse pre pre.length = false) :
    c.declaration (Scan.after {} pre).qualifier ∈ declarationsIn (pre ++ c.tokens ++ post) ∧
      declarationsIn (pre ++ c.tokens ++ post) = declarationsIn (pre ++ c.firstNamed ++ post) ∧
      ((∀ t ∈ c.values, Capture.start? false t = none) →
        declarationsIn (pre ++ c.tokens ++ post) =
          declarationsIn pre ++ c.declaration (Scan.after {} pre).qualifier ::
            Scan.declarations { Scan.after {} pre with capture := none } post) := by
  have hafter : (Scan.after {} pre).afterUse = false :=
    (tracks_run pre).afterUse.trans huse
  obtain ⟨hdeclared, hstate⟩ := Scan.run_first _ c hafter hlevel
  -- The statement is cut behind its first sign of equality.
  have hcut : c.tokens = (c.keyword :: (c.first.gap ++ c.first.name :: c.first.space) ++
      [c.first.equals]) ++
        (c.first.value ++ c.more.flatMap (fun b => b.comma :: b.tokens) ++ [c.semicolon]) := by
    simp [ConstantStatement.tokens, Binding.tokens, Binding.tail]
  have hrun : declarationsIn (pre ++ c.tokens ++ post) =
      declarationsIn pre ++ c.declaration (Scan.after {} pre).qualifier ::
        Scan.declarations { Scan.after {} pre with capture := none }
          (c.first.value ++ c.more.flatMap (fun b => b.comma :: b.tokens) ++ [c.semicolon] ++
            post) := by
    unfold declarationsIn
    rw [hcut, List.append_assoc, Scan.declarations_append, List.append_assoc,
      Scan.declarations_append, hdeclared, hstate]
    rfl
  refine ⟨?_, ?_, ?_⟩
  · rw [hrun]
    simp
  · obtain ⟨hsame, -⟩ := ((Scan.Alike.refl {} pre).append (Scan.alike_firstNamed _ c)).append
      (.refl _ post)
    exact hsame
  · intro hvalues
    obtain ⟨hnone, hrest⟩ := Scan.run_rest { Scan.after {} pre with capture := none } c rfl hafter
      hvalues
    rw [hrun, Scan.declarations_append, hnone, hrest]
    rfl

/-- The statement `const A=[1,2],B=2;`. -/
def twoConstants : ConstantStatement where
  keyword := ⟨.keyword .constKw, "const", 1⟩
  first :=
    { gap := [⟨.whitespace, " ", 1⟩]
      name := ⟨.name, "A", 1⟩
      space := []
      equals := ⟨.punct, "=", 1⟩
      value := [⟨.punct, "[", 1⟩, ⟨.number, "1", 1⟩, ⟨.punct, ",", 1⟩, ⟨.number, "2", 1⟩,
        ⟨.punct, "]", 1⟩]
      gap_trivia := by decide
      name_kind := rfl
      name_text := by decide
      space_trivia := by decide
      equals_kind := rfl
      equals_text := rfl
      value_expression := by
        -- The comma of the list stands inside of its brackets.
        have hlist : Expression (⟨.punct, "[", 1⟩ ::
            [⟨.number, "1", 1⟩, ⟨.punct, ",", 1⟩, ⟨.number, "2", 1⟩] ++ ⟨.punct, "]", 1⟩ :: []) :=
          .pair (b := .square) rfl rfl (.other rfl rfl (.other rfl rfl (.other rfl rfl .nil))) .nil
        exact hlist }
  more :=
    [{ comma := ⟨.punct, ",", 1⟩
       gap := []
       name := ⟨.name, "B", 1⟩
       space := []
       equals := ⟨.punct, "=", 1⟩
       value := [⟨.number, "2", 1⟩]
       gap_trivia := by decide
       name_kind := rfl
       name_text := by decide
       space_trivia := by decide
       equals_kind := rfl
       equals_text := rfl
       value_expression := .other rfl rfl rfl .nil
       comma_kind := rfl
       comma_text := rfl }]
  semicolon := ⟨.punct, ";", 1⟩
  keyword_kind := rfl
  semicolon_kind := Eq.refl Kind.punct
  semicolon_text := Eq.refl ";"

theorem tokenize_twoConstants : tokenize "<?php namespace N;const A=[1,2],B=2;" =
    .ok ([⟨.openTag, "<?php ", 1⟩, ⟨.keyword .namespaceKw, "namespace", 1⟩, ⟨.whitespace, " ", 1⟩,
      ⟨.name, "N", 1⟩, ⟨.punct, ";", 1⟩] ++ twoConstants.tokens ++ []) :=
  tokenize_eq_ok _ _ (by decide +kernel)

theorem declarationsIn_constants_list :
    ∃ pre post, tokenize "<?php namespace N;const A=[1,2],B=2;" =
        .ok (pre ++ twoConstants.tokens ++ post) ∧
      (Scan.after {} pre).level = (Scan.after {} pre).depth ∧
      withinUse pre pre.length = false ∧
      (∀ t ∈ twoConstants.values, Capture.start? false t = none) ∧
      declarationsIn (pre ++ twoConstants.tokens ++ post) = [⟨.constant, "N\\A", 1⟩] := by
  refine ⟨_, _, tokenize_twoConstants, by decide, by decide, by decide, ?_⟩
  exact (declarationsIn_constants _ [] twoConstants (by decide) (by decide)).2.2 (by decide)

/-- The second constant of a statement at the top level is not among the declarations. -/
theorem second_constant_undeclared :
    ∃ pre post, tokenize "<?php namespace N;const A=[1,2],B=2;" =
        .ok (pre ++ twoConstants.tokens ++ post) ∧
      (Scan.after {} pre).level = (Scan.after {} pre).depth ∧
      (Scan.after {} pre).qualifier = "N\\" ∧
      (∃ b ∈ twoConstants.more, b.name = ⟨.name, "B", 1⟩) ∧
      ¬ ∃ line, (⟨.constant, "N\\B", line⟩ : Declaration) ∈
        declarationsIn (pre ++ twoConstants.tokens ++ post) := by
  refine ⟨_, _, tokenize_twoConstants, by decide, by decide, ⟨_, List.mem_cons_self, rfl⟩, ?_⟩
  intro h
  obtain ⟨line, hline⟩ := h
  have hall : declarationsIn ([⟨.openTag, "<?php ", 1⟩, ⟨.keyword .namespaceKw, "namespace", 1⟩,
      ⟨.whitespace, " ", 1⟩, ⟨.name, "N", 1⟩, ⟨.punct, ";", 1⟩] ++ twoConstants.tokens ++ []) =
      [⟨.constant, "N\\A", 1⟩] := by decide
  rw [hall, List.mem_singleton, Declaration.mk.injEq] at hline
  exact absurd hline.2.1 (by decide)

end Redeclaration
