import Redeclaration.Token
import Redeclaration.Token.Fault

/-!
Brackets. A token list is accepted when its brackets pair up, where a brace
that opens an interpolation pairs with an ordinary closing brace.
-/

namespace Redeclaration

inductive Bracket where
  | brace
  | paren
  | square
deriving DecidableEq, Repr

namespace Token

/-- The bracket that a token opens. An attribute opens a square one. -/
def opens? (t : Token) : Option Bracket :=
  match t.kind with
  | .openBrace | .curlyOpen | .dollarOpen => some .brace
  | .punct =>
    if t.text == "(" then some .paren
    else if t.text == "[" || t.text == "#[" then some .square
    else none
  | _ => none

/-- The bracket that a token closes. -/
def closes? (t : Token) : Option Bracket :=
  match t.kind with
  | .closeBrace => some .brace
  | .punct =>
    if t.text == ")" then some .paren
    else if t.text == "]" then some .square
    else none
  | _ => none

/-- The open brackets after a token, the innermost first, or nothing if the
token closes another bracket than the innermost. -/
def bracketsAfter? (t : Token) (pending : List Bracket) : Option (List Bracket) :=
  match t.opens?, t.closes? with
  | some b, _ => some (b :: pending)
  | none, none => some pending
  | none, some b => if pending.head? = some b then some pending.tail else none

end Token

/-- Refuses a token list at its first token that closes the wrong bracket, or
on `endLine` if a bracket stays open. -/
def checkBrackets (endLine : Nat) (pending : List Bracket) :
    List Token → Except SourceError Unit
  | [] => if pending.isEmpty then .ok () else .error ⟨.unexpectedEnd, endLine⟩
  | t :: ts =>
    match t.bracketsAfter? pending with
    | some later => checkBrackets endLine later ts
    | none => .error ⟨.unexpectedToken t.text, t.line⟩

end Redeclaration
