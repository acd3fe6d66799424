import Redeclaration.Text.Lines
import Redeclaration.Text.Search
import Redeclaration.Token

/-!
Labels, names and the words among them that have a meaning of their own. Words
are compared without regard to the case of ASCII letters.
-/

namespace Redeclaration

open Text

/-- A character that a label may start with: a letter, the underscore or
anything outside of ASCII. -/
def isLabelStart (c : Char) : Bool :=
  c == '_' || c.isAlpha || 127 < c.toNat

/-- A character that may stand inside of a label. -/
def isLabelChar (c : Char) : Bool :=
  isLabelStart c || c.isDigit

/-- Whether a label starts here. -/
def startsLabel (cs : List Char) : Bool :=
  cs.head?.any isLabelStart

/-- Counts from `passed` the characters by which a name goes on: those of its
label, and a backslash wherever another label follows it. -/
def nameEnd (passed : Nat) : List Char → Nat
  | [] => passed
  | c :: cs =>
    if isLabelChar c || (c == '\\' && startsLabel cs) then nameEnd (passed + 1) cs
    else passed

namespace Keyword

/-- The keyword that a word in lower case names, if its meaning does not hang
on what follows it. -/
def ofWord? : String → Option Keyword
  | "namespace" => some namespaceKw
  | "class" => some classKw
  | "interface" => some interfaceKw
  | "trait" => some traitKw
  | "function" => some functionKw
  | "const" => some constKw
  | "use" => some useKw
  | _ => none

end Keyword

/-- The word after which the rest of the file is data. -/
def haltWord : String := "__halt_compiler"

/-- The words that are neither keywords nor names. -/
def reservedWords : List String :=
  ["abstract", "and", "array", "as", "break", "callable", "case", "catch",
   "clone", "continue", "declare", "default", "die", "do", "echo", "else",
   "elseif", "empty", "enddeclare", "endfor", "endforeach", "endif",
   "endswitch", "endwhile", "eval", "exit", "extends", "final", "finally",
   "fn", "for", "foreach", "global", "goto", "if", "implements", "include",
   "include_once", "instanceof", "insteadof", "isset", "list", "match", "new",
   "or", "print", "private", "protected", "public", "readonly", "require",
   "require_once", "return", "static", "switch", "throw", "try", "unset",
   "var", "while", "xor", "yield", haltWord, "__class__", "__dir__",
   "__file__", "__function__", "__line__", "__method__", "__namespace__",
   "__property__", "__trait__"]

/-- Whether an attribute starts here, which is no comment. -/
def startsAttribute (cs : List Char) : Bool :=
  ['#', '['].isPrefixOf cs

/-- Whether a line comment starts here. -/
def startsLineComment (cs : List Char) : Bool :=
  ['/', '/'].isPrefixOf cs || (['#'].isPrefixOf cs && !startsAttribute cs)

/-- The trivia that a word may be followed by, at the start of a text: blanks,
one complete block comment, or a line comment up to its line feed. -/
def triviaLength (cs : List Char) : Nat :=
  if cs.head?.any isBlank then runLength isBlank cs
  else if ['/', '*'].isPrefixOf cs then
    match findSuffix? ['*', '/'].isPrefixOf (cs.drop 2) with
    | some n => n + 4
    | none => 0
  else if startsLineComment cs then runLength (· != '\n') cs
  else 0

/-- Drops all trivia at the start of a text. -/
def dropTrivia (cs : List Char) : List Char :=
  match triviaLength cs, cs with
  | n + 1, _ :: rest => dropTrivia (rest.drop n)
  | _, _ => cs
termination_by cs.length
decreasing_by simp only [List.length_drop, List.length_cons]; omega

/-- Whether the text after the word enum makes it a keyword: there is trivia,
and then a label other than extends and implements. -/
def enumFollows (cs : List Char) : Bool :=
  let rest := dropTrivia cs
  let label := rest.takeWhile isLabelChar
  triviaLength cs != 0 && startsLabel rest
    && !sameWord label "extends".toList && !sameWord label "implements".toList

/-- The kind of a label that stands where a word has its own meaning, followed
by `rest`. -/
def wordKind (label rest : List Char) : Kind :=
  let word := String.ofList (label.map Char.toLower)
  match Keyword.ofWord? word with
  | some k => .keyword k
  | none =>
    if word == "enum" && enumFollows rest then .keyword .enumKw
    else if word ∈ reservedWords then .reserved
    else .name

/-- The kind of a name: by its first label if there are several, and by its
word otherwise, unless it is a `member`. -/
def nameKind (member : Bool) (text rest : List Char) : Kind :=
  if '\\' ∈ text then
    if sameWord (text.takeWhile (· != '\\')) "namespace".toList then .relativeName
    else .qualifiedName
  else if member then .name
  else wordKind text rest

end Redeclaration
