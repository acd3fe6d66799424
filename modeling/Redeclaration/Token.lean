/-!
The tokens of a source file: a kind, the text of the source that it covers and
the line on which that text starts.
-/

namespace Redeclaration

/-- The words that a declaration, a namespace or an import starts with. -/
inductive Keyword where
  | namespaceKw
  | classKw
  | interfaceKw
  | traitKw
  | enumKw
  | functionKw
  | constKw
  | useKw
deriving DecidableEq, Repr

inductive Kind where
  /-- Text outside of the tags. -/
  | inlineHtml
  /-- The opening tag with the blank that belongs to it. -/
  | openTag
  /-- The closing tag with the line break that belongs to it. -/
  | closeTag
  | whitespace
  | comment
  | docComment
  /-- A single label. -/
  | name
  /-- Labels joined by backslashes. -/
  | qualifiedName
  /-- A name that starts with a backslash. -/
  | fullyQualifiedName
  /-- A name that starts with the word namespace and a backslash. -/
  | relativeName
  | variableName
  | keyword (word : Keyword)
  /-- Every other word that cannot be a name. -/
  | reserved
  | number
  /-- A string, or one of the fragments between its interpolations. -/
  | stringLiteral
  /-- The brace of an interpolation that starts with a brace. -/
  | curlyOpen
  /-- The dollar sign and brace of an interpolation that starts with a dollar. -/
  | dollarOpen
  | openBrace
  | closeBrace
  /-- Operators and all other punctuation. -/
  | punct
deriving DecidableEq, Repr

namespace Kind

/-- Comments and whitespace, which stand for nothing in a program. -/
def isTrivia : Kind → Bool
  | whitespace | comment | docComment => true
  | _ => false

/-- Trivia and opening tags, which a look at the token before passes over. -/
def isIgnorable (k : Kind) : Bool :=
  k.isTrivia || k == openTag

/-- The kinds whose texts are put together to a declared name. -/
def isNameFragment : Kind → Bool
  | name | qualifiedName => true
  | _ => false

/-- The kinds that open a brace inside of a string. -/
def opensInterpolation : Kind → Bool
  | curlyOpen | dollarOpen => true
  | _ => false

end Kind

structure Token where
  kind : Kind
  text : String
  line : Nat
deriving DecidableEq, Repr

namespace Token

def isKeyword (t : Token) (word : Keyword) : Bool :=
  t.kind == .keyword word

def isTrivia (t : Token) : Bool :=
  t.kind.isTrivia

/-- The arrow, the null-safe arrow and the double colon. The label after one of
them is the name of a member. -/
def isMemberOperator (t : Token) : Bool :=
  t.kind == .punct && (t.text == "->" || t.text == "?->" || t.text == "::")

end Token

end Redeclaration
