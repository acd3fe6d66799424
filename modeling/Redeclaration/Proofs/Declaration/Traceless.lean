import Redeclaration.Proofs.Declaration.Body

/-!
Tokens that leave no trace. Main statements: trivia may be put in and taken out
anywhere, and an import may be left out as a whole; neither changes what a file
declares.
-/

namespace Redeclaration

open Outline

/-! Trivia. -/

/-- A list of tokens, and the same list with trivia put in at any places. -/
inductive Padded : List Token → List Token → Prop
  | nil : Padded [] []
  | keep {t : Token} {ts us : List Token} (rest : Padded ts us) : Padded (t :: ts) (t :: us)
  | insert {t : Token} {ts us : List Token} (trivia : t.isTrivia = true) (rest : Padded ts us) :
      Padded ts (t :: us)

def withoutTrivia (ts : List Token) : List Token :=
  ts.filter fun t => !t.isTrivia

theorem padded_withoutTrivia (ts : List Token) : Padded (withoutTrivia ts) ts := by
  induction ts with
  | nil => exact .nil
  | cons t ts ih =>
    unfold withoutTrivia
    by_cases ht : t.isTrivia = true
    · rw [List.filter_cons_of_neg (by simp [ht])]
      exact .insert ht ih
    · rw [List.filter_cons_of_pos (by simp [ht])]
      exact .keep ih

theorem padded_of_trivia (ts : List Token) (h : ∀ t ∈ ts, t.isTrivia = true) : Padded [] ts := by
  induction ts with
  | nil => exact .nil
  | cons t ts ih =>
    exact .insert (h t List.mem_cons_self) (ih fun u hu => h u (List.mem_cons_of_mem _ hu))

namespace Scan

theorem step_of_isTrivia (s : Scan) (t : Token) (ht : t.isTrivia = true) : s.step t = s := by
  have hk : t.kind.isTrivia = true := ht
  have hfragment : t.kind.isNameFragment = false := by
    cases htk : t.kind <;> simp_all [Kind.isTrivia, Kind.isNameFragment]
  have hextend : (fun c : Capture => c.extend t) = id := by
    funext c
    simp [Capture.extend, hfragment]
  have hafter : s.useAfter t = s.afterUse := by
    simp [useAfter, Kind.isIgnorable, hk]
  rw [step_of_passes s t (by simp [passes, ht]), hextend, hafter, Option.map_id_fun, id]

theorem completed?_of_not_endsCapture (s : Scan) (t : Token) (ht : endsCapture t = false) :
    s.completed? t = none := by
  unfold completed?
  rw [ht]
  split <;> rfl

/-- Trivia are passed over from every state, so that the states of the two scans agree
wherever they meet the same token. -/
theorem run_of_padded (s : Scan) (ts us : List Token) (h : Padded ts us) :
    s.declarations us = s.declarations ts ∧ s.after us = s.after ts := by
  induction h generalizing s with
  | nil => exact ⟨rfl, rfl⟩
  | @keep t ts us rest ih =>
    obtain ⟨hdeclared, hafter⟩ := ih (s.step t)
    rw [declarations, declarations, hdeclared, after_cons, after_cons, hafter]
    exact ⟨rfl, rfl⟩
  | @insert t ts us trivia rest ih =>
    have hends := (passes_facts t (by simp [passes, trivia])).2.1
    rw [declarations, completed?_of_not_endsCapture s t hends, after_cons,
      step_of_isTrivia s t trivia]
    exact ih s

end Scan

/-- The look at the token before an index passes over trivia too. -/
theorem withinUse_of_padded (ts us ts' us' : List Token) (h : Padded ts us) :
    withinUse (us ++ us') us.length = withinUse (ts ++ ts') ts.length := by
  have hus : (Scan.after {} us).afterUse = withinUse us us.length := (tracks_run us).afterUse
  have hts : (Scan.after {} ts).afterUse = withinUse ts ts.length := (tracks_run ts).afterUse
  rw [withinUse_append us us' _ le_rfl, withinUse_append ts ts' _ le_rfl, ← hus, ← hts,
    (Scan.run_of_padded {} ts us h).2]

/-- Trivia that are put in or taken out, anywhere and any number of them, do not change
what is declared; nor do all of them together. Wherever a list is cut, the token behind the
cut stands in an import exactly if it does without the trivia. -/
theorem declarationsIn_trivia (ts : List Token) :
    (∀ us, Padded ts us ∨ Padded us ts → declarationsIn us = declarationsIn ts) ∧
      declarationsIn (withoutTrivia ts) = declarationsIn ts ∧
      ∀ pre post, ts = pre ++ post →
        withinUse ts pre.length = withinUse (withoutTrivia ts) (withoutTrivia pre).length := by
  refine ⟨?_, (Scan.run_of_padded {} _ ts (padded_withoutTrivia ts)).1.symm, ?_⟩
  · rintro us (hmore | hless)
    · exact (Scan.run_of_padded {} ts us hmore).1
    · exact (Scan.run_of_padded {} us ts hless).1.symm
  · rintro pre post rfl
    have hsplit : withoutTrivia (pre ++ post) = withoutTrivia pre ++ withoutTrivia post :=
      List.filter_append _ _
    rw [hsplit]
    exact withinUse_of_padded _ _ _ _ (padded_withoutTrivia pre)

/-- A comment stands between the keyword of an import and that of a function, and another
one between the keyword of a function and its name. -/
theorem declarationsIn_trivia_comments :
    ∃ ts us, tokenize "<?php use/**/function f;function/**/g\x7b\x7d" = .ok us ∧
      Padded ts us ∧ ts ≠ us ∧ declarationsIn us = declarationsIn ts ∧
      declarationsIn ts = [⟨.function, "g", 1⟩] := by
  have h : tokenize "<?php use/**/function f;function/**/g\x7b\x7d" = .ok
      [⟨.openTag, "<?php ", 1⟩, ⟨.keyword .useKw, "use", 1⟩, ⟨.comment, "/**/", 1⟩,
        ⟨.keyword .functionKw, "function", 1⟩, ⟨.whitespace, " ", 1⟩, ⟨.name, "f", 1⟩,
        ⟨.punct, ";", 1⟩, ⟨.keyword .functionKw, "function", 1⟩, ⟨.comment, "/**/", 1⟩,
        ⟨.name, "g", 1⟩, ⟨.openBrace, "\x7b", 1⟩, ⟨.closeBrace, "\x7d", 1⟩] :=
    tokenize_eq_ok _ _ (by decide +kernel)
  have hpadded := padded_withoutTrivia
    [⟨.openTag, "<?php ", 1⟩, ⟨.keyword .useKw, "use", 1⟩, ⟨.comment, "/**/", 1⟩,
      ⟨.keyword .functionKw, "function", 1⟩, ⟨.whitespace, " ", 1⟩, ⟨.name, "f", 1⟩,
      ⟨.punct, ";", 1⟩, ⟨.keyword .functionKw, "function", 1⟩, ⟨.comment, "/**/", 1⟩,
      ⟨.name, "g", 1⟩, ⟨.openBrace, "\x7b", 1⟩, ⟨.closeBrace, "\x7d", 1⟩]
  exact ⟨_, _, h, hpadded, by decide, (declarationsIn_trivia _).1 _ (.inl hpadded), by decide⟩

/-! Imports. -/

/-- The tokens that make up an import: trivia, names of every kind, reserved words, and
punctuation other than brackets. -/
def isImportPart (t : Token) : Bool :=
  match t.kind with
  | .whitespace | .comment | .docComment => true
  | .name | .qualifiedName | .fullyQualifiedName | .relativeName | .reserved => true
  | .punct => t.opens?.isNone && t.closes?.isNone
  | _ => false

/-- The keywords that say what is imported. -/
def isImportTarget (t : Token) : Bool :=
  t.isKeyword .functionKw || t.isKeyword .constKw

/-- The members of an import in braces. Each may say for itself what it is. -/
structure ImportGroup where
  opening : Token
  members : List Token
  closing : Token
  opening_kind : opening.kind = .openBrace
  members_parts : ∀ t ∈ members, isImportPart t = true ∨ isImportTarget t = true
  closing_kind : closing.kind = .closeBrace

def ImportGroup.tokens (g : ImportGroup) : List Token :=
  g.opening :: g.members ++ [g.closing]

/-- An import, from its keyword up to its semicolon. The first token that is not trivia
may say what is imported, and one group in braces may stand among the rest. -/
structure Import where
  keyword : Token
  gap : List Token
  target : Option Token
  path : List Token
  group : Option ImportGroup
  rest : List Token
  semicolon : Token
  keyword_kind : keyword.isKeyword .useKw = true
  gap_trivia : ∀ t ∈ gap, t.isTrivia = true
  target_kind : ∀ t ∈ target, isImportTarget t = true
  path_parts : ∀ t ∈ path, isImportPart t = true
  rest_parts : ∀ t ∈ rest, isImportPart t = true
  semicolon_kind : semicolon.kind = .punct
  semicolon_text : semicolon.text = ";"

def Import.tokens (i : Import) : List Token :=
  i.keyword :: i.gap ++ i.target.toList ++ i.path ++ (i.group.map (·.tokens)).getD [] ++
    i.rest ++ [i.semicolon]

namespace Scan

/-- From a state on, tokens are skipped: they declare nothing, and the state after them is
the one before, but for whether an import starts right there. -/
def Skips (s : Scan) (ts : List Token) : Prop :=
  s.declarations ts = [] ∧ ∃ b, s.after ts = { s with afterUse := b }

theorem Skips.nil (s : Scan) : s.Skips [] :=
  ⟨rfl, s.afterUse, rfl⟩

theorem Skips.append {s : Scan} {ts us : List Token} (hts : s.Skips ts)
    (hus : ∀ b, Skips { s with afterUse := b } us) : s.Skips (ts ++ us) := by
  obtain ⟨hdeclared, b, hafter⟩ := hts
  obtain ⟨hdeclared', b', hafter'⟩ := hus b
  refine ⟨?_, b', ?_⟩
  · rw [declarations_append, hdeclared, hafter, hdeclared']
    rfl
  · rw [after_append, hafter, hafter']

theorem completed?_of_idle (s : Scan) (t : Token) (hs : s.capture = none) :
    s.completed? t = none := by
  simp [completed?, hs]

/-- A token that ends captures finds none, and what is no brace leaves the level. -/
theorem skips_of_endsCapture (s : Scan) (t : Token) (hs : s.capture = none)
    (ht : endsCapture t = true) (hbraces : braces [t] = 0) : s.Skips [t] := by
  have hspace : s.namesSpace = false := by simp [namesSpace, hs]
  refine ⟨by simp [declarations, completed?_of_idle s t hs], s.useAfter t, ?_⟩
  rw [after_cons, after_nil, step_of_endsCapture s t ht, finish_of_not_namesSpace s t hspace,
    levelAfter_eq_braces, hbraces, Int.add_zero, ← hs]

theorem skips_of_passes (s : Scan) (t : Token) (hs : s.capture = none) (ht : passes t = true) :
    s.Skips [t] := by
  refine ⟨by simp [declarations, completed?_of_idle s t hs], s.useAfter t, ?_⟩
  rw [after_cons, after_nil, step_of_passes s t ht, hs, Option.map_none, ← hs]

theorem isImportPart_cases (t : Token) (h : isImportPart t = true) :
    (passes t = true ∨ endsCapture t = true) ∧ braces [t] = 0 ∧
      t.isKeyword .namespaceKw = false := by
  cases hk : t.kind <;>
    simp_all [isImportPart, passes, Token.isTrivia, Kind.isTrivia, Kind.isNameFragment,
      endsCapture, braces, opensBrace, Token.isKeyword]

theorem isImportTarget_cases (t : Token) (h : isImportTarget t = true) :
    endsCapture t = false ∧ braces [t] = 0 ∧ t.isKeyword .namespaceKw = false := by
  rw [isImportTarget, Bool.or_eq_true, Token.isKeyword, Token.isKeyword, beq_iff_eq,
    beq_iff_eq] at h
  rcases h with hk | hk <;> simp [endsCapture, braces, opensBrace, Token.isKeyword, hk]

/-- Right after the keyword of an import, the keyword of a function or of a constant starts
no capture. -/
theorem step_of_isImportTarget (s : Scan) (t : Token) (h : isImportTarget t = true)
    (huse : s.afterUse = true) : s.step t = { s with afterUse := false } := by
  rw [isImportTarget, Bool.or_eq_true, Token.isKeyword, Token.isKeyword, beq_iff_eq,
    beq_iff_eq] at h
  rcases h with hk | hk <;>
    simp [step, follow, Capture.start?, Group.ofKeyword?, endsCapture, Kind.isNameFragment,
      Kind.isIgnorable, Kind.isTrivia, Token.isKeyword, hk, huse]

theorem skips_parts (s : Scan) (ts : List Token) (hs : s.capture = none)
    (hts : ∀ t ∈ ts, isImportPart t = true) : s.Skips ts := by
  induction ts generalizing s with
  | nil => exact .nil s
  | cons t ts ih =>
    have hone : s.Skips [t] := by
      obtain ⟨hpasses | hends, hbraces, -⟩ := isImportPart_cases t (hts t List.mem_cons_self)
      · exact skips_of_passes s t hs hpasses
      · exact skips_of_endsCapture s t hs hends hbraces
    exact hone.append fun b => ih _ hs fun u hu => hts u (List.mem_cons_of_mem _ hu)

theorem step_of_useKw (s : Scan) (t : Token) (hs : s.capture = none)
    (ht : t.isKeyword .useKw = true) : s.step t = { s with afterUse := true } := by
  have hk : t.kind = .keyword .useKw := beq_iff_eq.1 ht
  have hends : endsCapture t = true := by simp [endsCapture, hk]
  have hspace : s.namesSpace = false := by simp [namesSpace, hs]
  rw [step_of_endsCapture s t hends, finish_of_not_namesSpace s t hspace, ← hs]
  simp [levelAfter, useAfter, hk, Kind.isIgnorable, Kind.isTrivia, Token.isKeyword]

theorem skips_head (s : Scan) (i : Import) (hs : s.capture = none) :
    s.Skips (i.keyword :: i.gap ++ i.target.toList) := by
  -- Trivia after the keyword do not end the import.
  obtain ⟨hdeclared, hafter⟩ :=
    run_of_padded s [i.keyword] (i.keyword :: i.gap) (.keep (padded_of_trivia i.gap i.gap_trivia))
  have hkeyword : s.declarations [i.keyword] = [] ∧
      s.after [i.keyword] = { s with afterUse := true } := by
    rw [declarations, completed?_of_idle s _ hs]
    exact ⟨rfl, step_of_useKw s _ hs i.keyword_kind⟩
  rw [hkeyword.1] at hdeclared
  rw [hkeyword.2] at hafter
  generalize i.keyword :: i.gap = head at hdeclared hafter
  cases htarget : i.target with
  | none => exact ⟨by simpa using hdeclared, true, by simpa using hafter⟩
  | some t =>
    have ht := i.target_kind t (by simp [htarget])
    refine ⟨?_, false, ?_⟩
    · rw [declarations_append, hdeclared, hafter]
      simp [declarations, completed?_of_not_endsCapture _ t (isImportTarget_cases t ht).1]
    · rw [after_append, hafter]
      exact step_of_isImportTarget _ t ht rfl

/-- The members of a group are captured, but too deep to be declared. -/
theorem skips_group (s : Scan) (g : ImportGroup) (hs : s.capture = none)
    (hlevel : s.depth ≤ s.level) : s.Skips g.tokens := by
  have hzero (ts : List Token) (hts : ∀ t ∈ ts, isImportPart t = true ∨ isImportTarget t = true) :
      braces ts = 0 := by
    induction ts with
    | nil => rfl
    | cons t ts ih =>
      have hrest := ih fun u hu => hts u (List.mem_cons_of_mem _ hu)
      rw [braces_cons, hrest, Int.add_zero]
      rcases hts t List.mem_cons_self with ht | ht
      · exact (isImportPart_cases t ht).2.1
      · exact (isImportTarget_cases t ht).2.1
  have hbody : Body g.members := by
    refine ⟨hzero _ g.members_parts, ?_, ?_⟩
    · intro part hpart
      have hsub := ((List.mem_inits _ _).1 hpart).subset
      have hpart := hzero part fun t ht => g.members_parts t (hsub ht)
      omega
    · intro t ht
      rcases g.members_parts t ht with ht | ht
      · exact (isImportPart_cases t ht).2.2
      · exact (isImportTarget_cases t ht).2.2
  have hspace : s.namesSpace = false := by simp [namesSpace, hs]
  obtain ⟨hdeclared, hafter⟩ :=
    braced_body s _ _ _ g.opening_kind g.closing_kind hspace hlevel hbody
  refine ⟨?_, false, ?_⟩
  · rw [ImportGroup.tokens, hdeclared, completed?_of_idle s _ hs]
    rfl
  · rw [ImportGroup.tokens, hafter, ← hs]

/-- An import declares nothing, and the scan goes on after it as if it were not there. -/
theorem skips_import (s : Scan) (i : Import) (hs : s.capture = none) (huse : s.afterUse = false)
    (hlevel : s.depth ≤ s.level) : s.declarations i.tokens = [] ∧ s.after i.tokens = s := by
  have hgroup (b : Bool) : Skips { s with afterUse := b } ((i.group.map (·.tokens)).getD []) := by
    cases i.group with
    | none => exact .nil _
    | some g => exact skips_group _ g hs hlevel
  have hinner := (((skips_head s i hs).append fun _ => skips_parts _ _ hs i.path_parts).append
    hgroup).append fun _ => skips_parts _ _ hs i.rest_parts
  have hends : endsCapture i.semicolon = true := by
    simp [endsCapture, i.semicolon_kind, Kind.isTrivia, Kind.isNameFragment]
  have hbraces : braces [i.semicolon] = 0 := by
    simp [braces, opensBrace, i.semicolon_kind]
  obtain ⟨hdeclared, b, hafter⟩ := hinner.append fun _ =>
    skips_of_endsCapture _ i.semicolon hs hends hbraces
  refine ⟨hdeclared, ?_⟩
  -- The semicolon is the last token, so no import starts right after it.
  have hlast : (s.after i.tokens).afterUse = false := by
    rw [Import.tokens, after_append]
    simp [step, i.semicolon_kind, Kind.isIgnorable, Kind.isTrivia, Token.isKeyword]
  rw [Import.tokens] at hlast ⊢
  rw [hafter] at hlast ⊢
  rw [← huse] at hlast
  exact congrArg (fun b => { s with afterUse := b }) hlast

end Scan

/-- An import may be left out where nothing is captured, no import has just started and
the braces are at least as deep as the members of the namespace. -/
theorem declarationsIn_import (pre post : List Token) (i : Import)
    (hcapture : (Scan.after {} pre).capture = none)
    (hlevel : (Scan.after {} pre).depth ≤ (Scan.after {} pre).level)
    (huse : withinUse pre pre.length = false) :
    declarationsIn (pre ++ i.tokens ++ post) = declarationsIn (pre ++ post) := by
  have hafter : (Scan.after {} pre).afterUse = false :=
    (tracks_run pre).afterUse.trans huse
  obtain ⟨hnone, hsame⟩ := Scan.skips_import _ i hcapture hafter hlevel
  unfold declarationsIn
  rw [List.append_assoc, Scan.declarations_append, Scan.declarations_append _ i.tokens, hnone,
    hsame, Scan.declarations_append {} pre post]
  rfl

/-- Functions and a constant, imported by one statement with a group in braces. -/
def groupedImport : Import where
  keyword := ⟨.keyword .useKw, "use", 1⟩
  gap := [⟨.comment, "/**/", 1⟩]
  target := some ⟨.keyword .functionKw, "function", 1⟩
  path := [⟨.whitespace, " ", 1⟩, ⟨.name, "A", 1⟩, ⟨.punct, "\\", 1⟩]
  group := some
    { opening := ⟨.openBrace, "\x7b", 1⟩
      members := [⟨.name, "f", 1⟩, ⟨.punct, ",", 1⟩, ⟨.keyword .constKw, "const", 1⟩,
        ⟨.whitespace, " ", 1⟩, ⟨.name, "C", 1⟩]
      closing := ⟨.closeBrace, "\x7d", 1⟩
      opening_kind := rfl
      members_parts := by decide
      closing_kind := rfl }
  rest := []
  semicolon := ⟨.punct, ";", 1⟩
  keyword_kind := rfl
  gap_trivia := by decide
  target_kind := by decide
  path_parts := by decide
  rest_parts := by decide
  semicolon_kind := rfl
  semicolon_text := rfl

theorem declarationsIn_import_grouped :
    ∃ pre post, tokenize "<?php namespace N;use/**/function A\\\x7bf,const C\x7d;class D\x7b\x7d" =
        .ok (pre ++ groupedImport.tokens ++ post) ∧
      (Scan.after {} pre).capture = none ∧
      (Scan.after {} pre).depth ≤ (Scan.after {} pre).level ∧
      withinUse pre pre.length = false ∧
      declarationsIn (pre ++ groupedImport.tokens ++ post) = declarationsIn (pre ++ post) ∧
      declarationsIn (pre ++ post) = [⟨.type, "N\\D", 1⟩] := by
  have h : tokenize "<?php namespace N;use/**/function A\\\x7bf,const C\x7d;class D\x7b\x7d" =
      .ok ([⟨.openTag, "<?php ", 1⟩, ⟨.keyword .namespaceKw, "namespace", 1⟩,
        ⟨.whitespace, " ", 1⟩, ⟨.name, "N", 1⟩, ⟨.punct, ";", 1⟩] ++ groupedImport.tokens ++
        [⟨.keyword .classKw, "class", 1⟩, ⟨.whitespace, " ", 1⟩, ⟨.name, "D", 1⟩,
          ⟨.openBrace, "\x7b", 1⟩, ⟨.closeBrace, "\x7d", 1⟩]) :=
    tokenize_eq_ok _ _ (by decide +kernel)
  exact ⟨_, _, h, by decide, by decide, by decide,
    declarationsIn_import _ _ groupedImport (by decide) (by decide) (by decide), by decide⟩

end Redeclaration
