import Redeclaration.Declaration

/-!
The declarations of a token list, found without a syntax tree. A keyword starts
a capture, the names after it are put together, and the first other token ends
the capture. What is captured counts if the braces are as deep as the members of
the current namespace are.
-/

namespace Redeclaration

/-- What a capture is for. -/
inductive Subject where
  | space
  | declaration (group : Group)
deriving DecidableEq, Repr

/-- A name that is being read, from the line of its keyword on. -/
structure Capture where
  subject : Subject
  line : Nat
  name : String
deriving DecidableEq, Repr

namespace Capture

/-- The capture that a keyword starts. Only in an import it starts none. -/
def start? (afterUse : Bool) (t : Token) : Option Capture :=
  match t.kind with
  | .keyword .useKw => none
  | .keyword .namespaceKw => some ⟨.space, t.line, ""⟩
  | .keyword k =>
    match Group.ofKeyword? k with
    | none => none
    | some g =>
      if afterUse && (k == .functionKw || k == .constKw) then none
      else some ⟨.declaration g, t.line, ""⟩
  | _ => none

end Capture

/-- The state between two tokens. -/
structure Scan where
  capture : Option Capture := none
  /-- The current namespace with a backslash at its end, or nothing. -/
  qualifier : String := ""
  /-- The number of braces around the members of the current namespace. -/
  depth : Int := 0
  /-- The number of braces that are open. -/
  level : Int := 0
  /-- The last token that is not ignorable is the keyword of an import. -/
  afterUse : Bool := false
deriving DecidableEq, Repr

namespace Scan

/-- The brace level at which a token ends a capture: the brace of an
interpolation counts before, all others count after. -/
def levelAt (s : Scan) (t : Token) : Int :=
  if t.kind.opensInterpolation then s.level + 1 else s.level

/-- The brace level after a token. -/
def levelAfter (s : Scan) (t : Token) : Int :=
  match t.kind with
  | .openBrace | .curlyOpen | .dollarOpen => s.level + 1
  | .closeBrace => s.level - 1
  | _ => s.level

/-- Whether a token ends a capture: it is neither trivia nor a part of a name,
and it is no keyword of a declaration. -/
def endsCapture (t : Token) : Bool :=
  match t.kind with
  | .keyword k => k == .useKw
  | k => !k.isTrivia && !k.isNameFragment

/-- The declaration that a token completes. -/
def completed? (s : Scan) (t : Token) : Option Declaration :=
  match s.capture with
  | some ⟨.declaration group, line, name⟩ =>
    if endsCapture t && name != "" && s.levelAt t == s.depth then
      some ⟨group, s.qualifier ++ name, line⟩
    else none
  | _ => none

/-- The qualifier of the members of a namespace. -/
def qualifierOf (name : String) : String :=
  if name == "" then "" else name ++ "\\"

/-- The number of braces around the members of a namespace whose name ends at
this token. -/
def depthOf (t : Token) : Int :=
  if t.kind == .openBrace then 1 else 0

/-- Ends the capture, which puts a namespace into force. -/
def finish (s : Scan) (t : Token) : Scan :=
  match s.capture with
  | some ⟨.space, _, name⟩ =>
    { s with capture := none, qualifier := qualifierOf name, depth := depthOf t }
  | _ => { s with capture := none }

/-- The state after a token, but for what the next one has to know of it. -/
def follow (s : Scan) (t : Token) : Scan :=
  match Capture.start? s.afterUse t with
  | some c => { s with capture := some c }
  | none =>
    if t.kind.isNameFragment then
      { s with capture := s.capture.map fun c => { c with name := c.name ++ t.text } }
    else if endsCapture t then { s.finish t with level := s.levelAfter t }
    else s

/-- The state after a token. -/
def step (s : Scan) (t : Token) : Scan :=
  { s.follow t with
    afterUse := if t.kind.isIgnorable then s.afterUse else t.isKeyword .useKw }

/-- The declarations that a list of tokens completes. -/
def declarations (s : Scan) : List Token → List Declaration
  | [] => []
  | t :: ts => (s.completed? t).toList ++ (s.step t).declarations ts

end Scan

/-- The declarations at the top level of the namespaces of a file. -/
def declarationsIn (ts : List Token) : List Declaration :=
  Scan.declarations {} ts

/-- Whether the token at an index stands right after the keyword of an import,
apart from ignorable tokens. -/
def withinUse (ts : List Token) (index : Nat) : Bool :=
  ((ts.take index).reverse.find? fun t => !t.kind.isIgnorable).any
    (·.isKeyword .useKw)

end Redeclaration
