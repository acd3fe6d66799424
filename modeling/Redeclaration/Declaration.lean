import Redeclaration.Token

/-!
Declarations: a name of one of three groups, and the line of the keyword that
declares it. Names of different groups never collide.
-/

namespace Redeclaration

/-- Classes, interfaces, traits and enums share their names. -/
inductive Group where
  | type
  | function
  | constant
deriving DecidableEq, Repr

namespace Group

/-- The groups in the order of a report. -/
def all : List Group := [type, function, constant]

/-- The place of a group in a report. -/
def rank : Group → Nat
  | type => 0
  | function => 1
  | constant => 2

def label : Group → String
  | type => "type"
  | function => "function"
  | constant => "constant"

/-- The group of the names that a keyword declares. -/
def ofKeyword? : Keyword → Option Group
  | .classKw | .interfaceKw | .traitKw | .enumKw => some type
  | .functionKw => some function
  | .constKw => some constant
  | .namespaceKw | .useKw => none

end Group

structure Declaration where
  group : Group
  /-- The name with its namespace. -/
  name : String
  line : Nat
deriving DecidableEq, Repr

end Redeclaration
