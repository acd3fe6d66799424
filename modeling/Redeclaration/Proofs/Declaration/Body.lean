import Mathlib.Data.List.Infix
import Redeclaration.Proofs.Declaration.Space

/-!
Braces around tokens. Main statements: what stands in the body of a class or of a
function does not count, whatever it is; and a namespace declares what its body
declares by itself, in braces as well as after a semicolon.
-/

namespace Redeclaration

open Outline

namespace Scan

theorem levelAfter_eq_braces (s : Scan) (t : Token) : s.levelAfter t = s.level + braces [t] := by
  cases hk : t.kind <;> simp [levelAfter, braces, opensBrace, hk, Int.sub_eq_add_neg]

theorem level_step (s : Scan) (t : Token) : (s.step t).level = s.level + braces [t] := by
  rcases s.step_cases t with ⟨c, hc, hstep⟩ | ⟨-, -, hstep⟩ | ⟨-, hends, hstep⟩
  · have hends : endsCapture t = false := by
      by_contra hends
      rw [(endsCapture_facts s.afterUse t (by simpa using hends)).1] at hc
      cases hc
    rw [hstep, braces_of_not_endsCapture t hends, Int.add_zero]
  · rw [hstep]
    exact levelAfter_eq_braces s t
  · rw [hstep, braces_of_not_endsCapture t hends, Int.add_zero]

/-- The brace level counts all braces, whatever is captured. -/
theorem level_after (s : Scan) (ts : List Token) : (s.after ts).level = s.level + braces ts := by
  induction ts generalizing s with
  | nil => exact (Int.add_zero _).symm
  | cons t ts ih => rw [after_cons, ih, level_step, braces_cons t ts, Int.add_assoc]

theorem completed?_of_deep (s : Scan) (t : Token) (h : s.depth < s.level) :
    s.completed? t = none := by
  have hlevel : s.levelAt t ≠ s.depth := by
    unfold levelAt
    split <;> omega
  unfold completed?
  split
  · simp [hlevel]
  · rfl

/-- As long as the braces are deeper than the members of the namespace, nothing is
declared. -/
theorem declarations_of_deep (s : Scan) (ts : List Token) (hs : s.namesSpace = false)
    (hts : ∀ t ∈ ts, t.isKeyword .namespaceKw = false)
    (hdeep : ∀ part ∈ ts.inits, s.depth < s.level + braces part) : s.declarations ts = [] := by
  induction ts generalizing s with
  | nil => rfl
  | cons t ts ih =>
    have hnow : s.depth < s.level := by simpa [braces] using hdeep [] (by simp)
    obtain ⟨hforce, hnames⟩ := inForce_step s t hs (hts t List.mem_cons_self)
    have hdepth : (s.step t).depth = s.depth := congrArg Prod.snd hforce
    have hrest : (s.step t).declarations ts = [] := by
      apply ih (s.step t) hnames fun u hu => hts u (List.mem_cons_of_mem _ hu)
      intro part hpart
      have hlonger := hdeep (t :: part) (by simpa using hpart)
      rw [braces_cons] at hlonger
      rw [hdepth, level_step]
      omega
    rw [declarations, completed?_of_deep s t hnow, hrest]
    rfl

end Scan

/-- The tokens of a body: its braces match, and it holds no keyword of a namespace. -/
structure Body (ts : List Token) : Prop where
  balanced : braces ts = 0
  prefixes : ∀ part ∈ ts.inits, 0 ≤ braces part
  plain : ∀ t ∈ ts, t.isKeyword .namespaceKw = false

instance (ts : List Token) : Decidable (Body ts) :=
  decidable_of_iff (braces ts = 0 ∧ (∀ part ∈ ts.inits, 0 ≤ braces part) ∧
      ∀ t ∈ ts, t.isKeyword .namespaceKw = false)
    ⟨fun ⟨balanced, prefixes, plain⟩ => ⟨balanced, prefixes, plain⟩,
      fun h => ⟨h.balanced, h.prefixes, h.plain⟩⟩

namespace Scan

/-- A brace ends what is captured. -/
theorem step_of_brace (s : Scan) (t : Token) (hs : s.namesSpace = false)
    (ht : t.kind = .openBrace ∨ t.kind = .closeBrace) :
    s.step t = { s with capture := none, level := s.level + braces [t], afterUse := false } := by
  have hends : endsCapture t = true ∧ s.useAfter t = false := by
    rcases ht with ht | ht <;>
      simp [endsCapture, useAfter, ht, Kind.isTrivia, Kind.isNameFragment, Kind.isIgnorable,
        Token.isKeyword]
  rw [step_of_endsCapture s t hends.1, finish_of_not_namesSpace s t hs, hends.2,
    levelAfter_eq_braces]

/-- A body in braces declares nothing and leaves no trace: only its opening brace ends
what was captured before. -/
theorem braced_body (s : Scan) (o c : Token) (body : List Token) (ho : o.kind = .openBrace)
    (hc : c.kind = .closeBrace) (hs : s.namesSpace = false) (hlevel : s.depth ≤ s.level)
    (hbody : Body body) :
    s.declarations (o :: body ++ [c]) = (s.completed? o).toList ∧
      s.after (o :: body ++ [c]) = { s with capture := none, afterUse := false } := by
  have hopen : braces [o] = 1 := by simp [braces, opensBrace, ho]
  have hclose : braces [c] = -1 := by simp [braces, opensBrace, hc]
  have hstep := step_of_brace s o hs (.inl ho)
  rw [hopen] at hstep
  generalize hs' : s.step o = s' at hstep
  have hnames : s'.namesSpace = false := by rw [hstep]; rfl
  obtain ⟨hforce, hnames'⟩ := inForce_after s' body hnames hbody.plain
  have hforce' : (s'.after body).inForce = s.inForce := by
    rw [hforce, hstep]
    rfl
  have hqualifier : (s'.after body).qualifier = s.qualifier := congrArg Prod.fst hforce'
  have hdepth : (s'.after body).depth = s.depth := congrArg Prod.snd hforce'
  have hlevel' : (s'.after body).level = s.level + 1 := by
    rw [level_after, hbody.balanced, hstep, Int.add_zero]
  constructor
  · -- All of the body, and its closing brace too, is above the depth of the namespace.
    have hdeep : s'.declarations body = [] := by
      apply declarations_of_deep s' body hnames hbody.plain
      intro part hpart
      have hpart' := hbody.prefixes part hpart
      rw [hstep]
      simp only
      omega
    have hend : (s'.after body).completed? c = none :=
      completed?_of_deep _ c (by omega)
    rw [List.cons_append, declarations, hs', declarations_append, hdeep]
    simp [declarations, hend]
  · rw [List.cons_append, after_cons, hs', after_append, after_cons, after_nil,
      step_of_brace _ c hnames' (.inr hc), hclose, hlevel', hdepth, hqualifier,
      Int.add_neg_cancel_right]

end Scan

/-- Nothing inside of a body changes what is reported: two bodies in the same place give
the same declarations. -/
theorem declarationsIn_of_bodies (pre post body body' : List Token) (o c : Token)
    (ho : o.kind = .openBrace) (hc : c.kind = .closeBrace)
    (hspace : (Scan.after {} pre).namesSpace = false)
    (hlevel : (Scan.after {} pre).depth ≤ (Scan.after {} pre).level)
    (hbody : Body body) (hbody' : Body body') :
    declarationsIn (pre ++ [o] ++ body ++ [c] ++ post) =
      declarationsIn (pre ++ [o] ++ body' ++ [c] ++ post) := by
  have hsplit (ts : List Token) (hts : Body ts) :
      declarationsIn (pre ++ [o] ++ ts ++ [c] ++ post) =
        declarationsIn pre ++ (((Scan.after {} pre).completed? o).toList ++
          Scan.declarations
            { Scan.after {} pre with capture := none, afterUse := false } post) := by
    obtain ⟨hdeclared, hafter⟩ := Scan.braced_body _ o c ts ho hc hspace hlevel hts
    have hlist : pre ++ [o] ++ ts ++ [c] ++ post = pre ++ ((o :: ts ++ [c]) ++ post) := by simp
    unfold declarationsIn
    rw [hlist, Scan.declarations_append, Scan.declarations_append, hdeclared, hafter]
  rw [hsplit body hbody, hsplit body' hbody']

/-- The body closes a brace inside of a string, and ends in the middle of a capture. -/
theorem declarationsIn_of_bodies_unfinished :
    ∃ pre o body c post,
      tokenize "<?php class A\x7b\"\x7b$b\x7d\";class\x7dclass B\x7b\x7d" =
        .ok (pre ++ [o] ++ body ++ [c] ++ post) ∧
      o.kind = .openBrace ∧ c.kind = .closeBrace ∧ (Scan.after {} pre).namesSpace = false ∧
      (Scan.after {} pre).depth ≤ (Scan.after {} pre).level ∧ Body body ∧ Body [] ∧
      declarationsIn (pre ++ [o] ++ body ++ [c] ++ post) =
        declarationsIn (pre ++ [o] ++ [] ++ [c] ++ post) ∧
      declarationsIn (pre ++ [o] ++ [] ++ [c] ++ post) = [⟨.type, "A", 1⟩, ⟨.type, "B", 1⟩] := by
  have h : tokenize "<?php class A\x7b\"\x7b$b\x7d\";class\x7dclass B\x7b\x7d" = .ok
      ([⟨.openTag, "<?php ", 1⟩, ⟨.keyword .classKw, "class", 1⟩, ⟨.whitespace, " ", 1⟩,
        ⟨.name, "A", 1⟩] ++ [⟨.openBrace, "\x7b", 1⟩] ++
        [⟨.stringLiteral, "\"", 1⟩, ⟨.curlyOpen, "\x7b", 1⟩, ⟨.variableName, "$b", 1⟩,
          ⟨.closeBrace, "\x7d", 1⟩, ⟨.stringLiteral, "\"", 1⟩, ⟨.punct, ";", 1⟩,
          ⟨.keyword .classKw, "class", 1⟩] ++ [⟨.closeBrace, "\x7d", 1⟩] ++
        [⟨.keyword .classKw, "class", 1⟩, ⟨.whitespace, " ", 1⟩, ⟨.name, "B", 1⟩,
          ⟨.openBrace, "\x7b", 1⟩, ⟨.closeBrace, "\x7d", 1⟩]) :=
    tokenize_eq_ok _ _ (by decide +kernel)
  exact ⟨_, _, _, _, _, h, rfl, rfl, by decide, by decide, by decide, by decide,
    declarationsIn_of_bodies _ _ _ _ _ _ rfl rfl (by decide) (by decide) (by decide) (by decide),
    by decide⟩

/-- The same declaration in a namespace with a given qualifier. -/
def Declaration.within (qualifier : String) (d : Declaration) : Declaration :=
  { d with name := qualifier ++ d.name }

namespace Scan

/-- The same state in a namespace with a given qualifier, and with `n` more braces
around everything. -/
def moved (s : Scan) (qualifier : String) (n : Int) : Scan :=
  { s with qualifier := qualifier ++ s.qualifier, depth := s.depth + n, level := s.level + n }

theorem completed?_moved (s : Scan) (q : String) (n : Int) (t : Token) :
    (s.moved q n).completed? t = (s.completed? t).map (.within q) := by
  have hlevel : ((s.moved q n).levelAt t == (s.moved q n).depth) = (s.levelAt t == s.depth) := by
    rw [Bool.eq_iff_iff, beq_iff_eq, beq_iff_eq]
    unfold levelAt moved
    split <;> simp only <;> omega
  have hcapture : (s.moved q n).capture = s.capture := rfl
  unfold completed?
  rw [hlevel, hcapture]
  split
  · split
    · simp [moved, Declaration.within, String.append_assoc]
    · rfl
  · rfl

/-- Names of namespaces apart, the scan compares levels and puts qualifiers in front, but
never looks at either. -/
theorem step_moved (s : Scan) (q : String) (n : Int) (t : Token) (hs : s.namesSpace = false) :
    (s.moved q n).step t = (s.step t).moved q n := by
  have hnames : (s.moved q n).namesSpace = false := hs
  have huse : (s.moved q n).afterUse = s.afterUse := rfl
  have hlevel : (s.moved q n).levelAfter t = s.levelAfter t + n := by
    rw [levelAfter_eq_braces, levelAfter_eq_braces]
    exact Int.add_right_comm _ _ _
  unfold step follow
  rw [finish_of_not_namesSpace s t hs, finish_of_not_namesSpace _ t hnames, hlevel, huse]
  cases Capture.start? s.afterUse t with
  | some c => rfl
  | none => cases t.kind.isNameFragment <;> cases endsCapture t <;> rfl

theorem run_moved (s : Scan) (q : String) (n : Int) (ts : List Token) (hs : s.namesSpace = false)
    (hts : ∀ t ∈ ts, t.isKeyword .namespaceKw = false) :
    (s.moved q n).declarations ts = (s.declarations ts).map (.within q) ∧
      (s.moved q n).after ts = (s.after ts).moved q n := by
  induction ts generalizing s with
  | nil => exact ⟨rfl, rfl⟩
  | cons t ts ih =>
    have hnames := (inForce_step s t hs (hts t List.mem_cons_self)).2
    obtain ⟨hdeclared, hafter⟩ := ih (s.step t) hnames fun u hu => hts u (List.mem_cons_of_mem _ hu)
    have hnow : ((s.moved q n).completed? t).toList = (s.completed? t).toList.map (.within q) := by
      rw [completed?_moved]
      cases s.completed? t <;> rfl
    rw [declarations, declarations, after_cons, after_cons, step_moved s q n t hs, hnow,
      hdeclared, List.map_append]
    exact ⟨rfl, hafter⟩

theorem declarations_of_not_endsCapture (s : Scan) (ts : List Token)
    (h : ∀ t ∈ ts, endsCapture t = false) : s.declarations ts = [] := by
  induction ts generalizing s with
  | nil => rfl
  | cons t ts ih =>
    have hnone : s.completed? t = none := by
      unfold completed?
      rw [h t List.mem_cons_self]
      split <;> rfl
    rw [declarations, hnone, ih (s.step t) fun u hu => h u (List.mem_cons_of_mem _ hu)]
    rfl

/-- The head of a namespace declares nothing. -/
theorem declarations_spaceHead (s : Scan) (t e : Token) (name : List Token)
    (ht : t.isKeyword .namespaceKw = true) (hname : ∀ u ∈ name, passes u = true) :
    s.declarations (t :: name ++ [e]) = [] := by
  have hstart : s.declarations (t :: name) = [] := by
    apply declarations_of_not_endsCapture
    intro u hu
    rcases List.mem_cons.1 hu with rfl | hu
    · have hk : u.kind = .keyword .namespaceKw := beq_iff_eq.1 ht
      simp [endsCapture, hk]
    · exact (passes_facts u (hname u hu)).2.1
  rw [declarations_append, hstart, after_spaceName s t name ht hname]
  rfl

/-- Nothing is captured after a token that can stand in no capture, and after trivia
that follow it. -/
theorem capture_after (s : Scan) (ts : List Token) (hs : s.capture = none)
    (hlast : ∀ t ∈ (ts.filter fun t => !t.isTrivia).getLast?,
      t.kind.isNameFragment = false ∧ ∀ k, t.isKeyword k = false) :
    (s.after ts).capture = none := by
  induction ts using List.reverseRecOn with
  | nil => exact hs
  | append_singleton ts t ih =>
    rw [after_append, after_cons, after_nil]
    by_cases ht : t.isTrivia = true
    · have hbefore := ih (by simpa [ht] using hlast)
      rw [step_of_passes _ t (by simp [passes, ht]), hbefore]
      rfl
    · obtain ⟨hfragment, hkeyword⟩ := hlast t (by simp [ht])
      have hends : endsCapture t = true := by
        unfold endsCapture
        cases hk : t.kind with
        | keyword k => simpa [Token.isKeyword, hk] using hkeyword k
        | _ => simpa [Token.isTrivia, hk, ← hfragment] using ht
      rw [step_of_endsCapture _ t hends]
      exact finish_capture _ t

end Scan

/-- A namespace that can be written in two forms: with its members between braces, and
with its members after a semicolon. -/
structure Block where
  keyword : Token
  name : List Token
  opening : Token
  semicolon : Token
  body : List Token
  closing : Token
  keyword_kind : keyword.isKeyword .namespaceKw = true
  name_passes : ∀ t ∈ name, passes t = true
  opening_kind : opening.kind = .openBrace
  semicolon_kind : semicolon.kind = .punct
  closing_kind : closing.kind = .closeBrace
  isBody : Body body
  /-- The last token of the body that is not trivia leaves nothing captured. -/
  settled : ∀ t ∈ (body.filter fun t => !t.isTrivia).getLast?,
    t.kind.isNameFragment = false ∧ ∀ k, t.isKeyword k = false

namespace Block

def braced (b : Block) : List Token :=
  b.keyword :: b.name ++ [b.opening] ++ b.body ++ [b.closing]

def unbraced (b : Block) : List Token :=
  b.keyword :: b.name ++ [b.semicolon] ++ b.body

def qualifier (b : Block) : String :=
  Scan.qualifierOf (nameOf b.name)

/-- What the body of a namespace declares by itself, under the name of the namespace. -/
def declared (b : Block) : List Declaration :=
  (declarationsIn b.body).map (.within b.qualifier)

/-- After the head of a namespace the scan starts afresh, one brace deeper if the head
ends with a brace. -/
theorem after_head (b : Block) (s : Scan) (e : Token) (hs : s.level = 0)
    (he : e.kind = .openBrace ∨ e.kind = .punct) :
    s.after (b.keyword :: b.name ++ [e]) = Scan.moved {} b.qualifier (braces [e]) := by
  have hends : Scan.endsCapture e = true := by
    rcases he with he | he <;> simp [Scan.endsCapture, he, Kind.isTrivia, Kind.isNameFragment]
  rw [Scan.after_spaceHead s _ _ _ b.keyword_kind b.name_passes hends]
  rcases he with he | he <;>
    simp [Scan.moved, qualifier, Scan.depthOf, Scan.levelAfter, Token.isKeyword, braces,
      opensBrace, he, hs]

theorem run_head_body (b : Block) (s : Scan) (e : Token) (hs : s.level = 0)
    (he : e.kind = .openBrace ∨ e.kind = .punct) :
    s.declarations (b.keyword :: b.name ++ [e] ++ b.body) = b.declared ∧
      s.after (b.keyword :: b.name ++ [e] ++ b.body) =
        (Scan.after {} b.body).moved b.qualifier (braces [e]) := by
  obtain ⟨hdeclared, hafter⟩ :=
    Scan.run_moved {} b.qualifier (braces [e]) b.body rfl b.isBody.plain
  have hhead := b.after_head s e hs he
  have hnone := Scan.declarations_spaceHead s _ e _ b.keyword_kind b.name_passes
  generalize b.keyword :: b.name ++ [e] = head at hhead hnone ⊢
  rw [Scan.declarations_append, Scan.after_append, hhead, hnone, hdeclared, hafter]
  exact ⟨rfl, rfl⟩

theorem level_body (b : Block) : (Scan.after {} b.body).level = 0 := by
  rw [Scan.level_after, b.isBody.balanced]
  rfl

theorem run_unbraced (b : Block) (s : Scan) (hs : s.level = 0) :
    s.declarations b.unbraced = b.declared ∧ (s.after b.unbraced).level = 0 := by
  obtain ⟨hdeclared, hafter⟩ := b.run_head_body s b.semicolon hs (.inr b.semicolon_kind)
  have hsemicolon : braces [b.semicolon] = 0 := by simp [braces, opensBrace, b.semicolon_kind]
  refine ⟨hdeclared, ?_⟩
  rw [unbraced, hafter, hsemicolon]
  simp [Scan.moved, b.level_body]

theorem run_braced (b : Block) (s : Scan) (hs : s.level = 0) :
    s.declarations b.braced = b.declared ∧ (s.after b.braced).level = 0 := by
  obtain ⟨hdeclared, hafter⟩ := b.run_head_body s b.opening hs (.inl b.opening_kind)
  have hopening : braces [b.opening] = 1 := by simp [braces, opensBrace, b.opening_kind]
  have hclosing : braces [b.closing] = -1 := by simp [braces, opensBrace, b.closing_kind]
  -- The closing brace has no partner in the other form, so it must find nothing captured.
  have hnone : (Scan.after {} b.body).completed? b.closing = none := by
    simp [Scan.completed?, Scan.capture_after {} b.body rfl b.settled]
  constructor
  · rw [braced, Scan.declarations_append, hdeclared, hafter]
    simp [Scan.declarations, Scan.completed?_moved, hnone]
  · rw [braced, Scan.after_append, hafter, Scan.after_cons, Scan.after_nil, Scan.level_step,
      hopening, hclosing]
    simp [Scan.moved, b.level_body]

theorem declarations_flatMap (form : Block → List Token)
    (hform : ∀ (b : Block) (s : Scan), s.level = 0 →
      s.declarations (form b) = b.declared ∧ (s.after (form b)).level = 0)
    (bs : List Block) (s : Scan) (hs : s.level = 0) :
    s.declarations (bs.flatMap form) = bs.flatMap declared := by
  induction bs generalizing s with
  | nil => rfl
  | cons b bs ih =>
    obtain ⟨hdeclared, hlevel⟩ := hform b s hs
    rw [List.flatMap_cons, List.flatMap_cons, Scan.declarations_append, hdeclared, ih _ hlevel]

end Block

/-- A file with braces around its namespaces declares the same as with a semicolon
after the name of each: what the body of every namespace declares by itself, under the
name of the namespace. -/
theorem declarationsIn_blocks (pre : List Token) (bs : List Block) (hpre : braces pre = 0) :
    declarationsIn (pre ++ bs.flatMap Block.braced) =
        declarationsIn (pre ++ bs.flatMap Block.unbraced) ∧
      declarationsIn (pre ++ bs.flatMap Block.unbraced) =
        declarationsIn pre ++ bs.flatMap Block.declared := by
  have hlevel : (Scan.after {} pre).level = 0 := by
    rw [Scan.level_after, hpre]
    rfl
  unfold declarationsIn
  rw [Scan.declarations_append, Scan.declarations_append,
    Block.declarations_flatMap Block.braced Block.run_braced bs _ hlevel,
    Block.declarations_flatMap Block.unbraced Block.run_unbraced bs _ hlevel]
  exact ⟨rfl, rfl⟩

/-- The namespace on one line with a given name and body. -/
def Block.onLine (line : Nat) (name body : List Token) (name_passes : ∀ t ∈ name, passes t = true)
    (isBody : Body body)
    (settled : ∀ t ∈ (body.filter fun t => !t.isTrivia).getLast?,
      t.kind.isNameFragment = false ∧ ∀ k, t.isKeyword k = false) : Block where
  keyword := ⟨.keyword .namespaceKw, "namespace", line⟩
  name := name
  opening := ⟨.openBrace, "\x7b", line⟩
  semicolon := ⟨.punct, ";", line⟩
  body := body
  closing := ⟨.closeBrace, "\x7d", line⟩
  keyword_kind := rfl
  name_passes := name_passes
  opening_kind := rfl
  semicolon_kind := rfl
  closing_kind := rfl
  isBody := isBody
  settled := settled

theorem declarationsIn_blocks_two :
    ∃ (pre : List Token) (bs : List Block), braces pre = 0 ∧
      tokenize "<?php namespace A\x7bclass X\x7b\x7d\x7dnamespace\x7bconst Y=1;\x7d" =
        .ok (pre ++ bs.flatMap Block.braced) ∧
      tokenize "<?php namespace A;class X\x7b\x7dnamespace;const Y=1;" =
        .ok (pre ++ bs.flatMap Block.unbraced) ∧
      declarationsIn (pre ++ bs.flatMap Block.braced) =
        declarationsIn (pre ++ bs.flatMap Block.unbraced) ∧
      declarationsIn (pre ++ bs.flatMap Block.unbraced) =
        declarationsIn pre ++ bs.flatMap Block.declared ∧
      bs.flatMap Block.declared = [⟨.type, "A\\X", 1⟩, ⟨.constant, "Y", 1⟩] := by
  have h := declarationsIn_blocks [⟨.openTag, "<?php ", 1⟩]
    [.onLine 1 [⟨.whitespace, " ", 1⟩, ⟨.name, "A", 1⟩]
      [⟨.keyword .classKw, "class", 1⟩, ⟨.whitespace, " ", 1⟩, ⟨.name, "X", 1⟩,
        ⟨.openBrace, "\x7b", 1⟩, ⟨.closeBrace, "\x7d", 1⟩] (by decide) (by decide)
      (by rintro t ⟨⟩; exact ⟨rfl, fun _ => rfl⟩),
     .onLine 1 []
      [⟨.keyword .constKw, "const", 1⟩, ⟨.whitespace, " ", 1⟩, ⟨.name, "Y", 1⟩,
        ⟨.punct, "=", 1⟩, ⟨.number, "1", 1⟩, ⟨.punct, ";", 1⟩] (by decide) (by decide)
      (by rintro t ⟨⟩; exact ⟨rfl, fun _ => rfl⟩)] (by decide)
  exact ⟨_, _, by decide, tokenize_eq_ok _ _ (by decide +kernel),
    tokenize_eq_ok _ _ (by decide +kernel), h.1, h.2, by decide⟩

end Redeclaration
