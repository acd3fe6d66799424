import Redeclaration.Token.Bracket
import Redeclaration.Token.Number
import Redeclaration.Token.Quoting
import Redeclaration.Token.Tag

/-!
From a source text to its tokens. The text is cut from the left, one lexeme at
a time. A lexeme is the next character and a number of further ones, so each
step uses up some of the text and nothing is lost between two of them. Code in
strings and strings in code may nest; the mode holds the strings that wait for
the end of an interpolation.
-/

namespace Redeclaration

open Text

/-- A string that is interrupted by the code of an interpolation, with the
number of braces that this code has open. -/
structure Interruption where
  closing : Closing
  depth : Nat
deriving DecidableEq, Repr

/-- What the next character belongs to. The interruptions are listed from the
innermost to the outermost. -/
inductive Mode where
  /-- Text outside of the tags. -/
  | html
  | code (waiting : List Interruption)
  /-- A string after one of its fragments or interpolations. -/
  | string (closing : Closing) (waiting : List Interruption)
  /-- The rest of the file, which is not code whatever it holds. -/
  | data
deriving DecidableEq, Repr

/-- The state between two lexemes. -/
structure Reading where
  mode : Mode := .html
  line : Nat := 1
  /-- The last token other than trivia is a member operator. -/
  member : Bool := false
  /-- The code ends with its next statement or tag. -/
  halting : Bool := false
deriving DecidableEq, Repr

/-- A lexeme: its kind, the number of its characters after the first one, and
the mode that it leads to. -/
structure Lexeme where
  kind : Kind
  more : Nat
  next : Mode
deriving DecidableEq, Repr

namespace Lexer

def enterBrace : List Interruption → Mode
  | [] => .code []
  | i :: rest => .code ({ i with depth := i.depth + 1 } :: rest)

/-- A closing brace goes back to the waiting string if the interpolation has no
brace of its own open. -/
def leaveBrace : List Interruption → Mode
  | [] => .code []
  | ⟨closing, 0⟩ :: rest => .string closing rest
  | ⟨closing, depth + 1⟩ :: rest => .code (⟨closing, depth⟩ :: rest)

/-- Outside of the tags: an opening tag, or the text before the next one. -/
def html (c : Char) (cs : List Char) : Lexeme :=
  if startsOpenTag (c :: cs) then ⟨.openTag, openTagLength (c :: cs) - 1, .code []⟩
  else ⟨.inlineHtml, htmlLength cs, .html⟩

/-- A block comment. It is a documentation comment if a second asterisk and a
blank come right at its start. -/
def blockComment (waiting : List Interruption) (cs : List Char) : Except Fault Lexeme :=
  match findSuffix? ['*', '/'].isPrefixOf (cs.drop 1) with
  | none => .error .unterminatedComment
  | some n =>
    let doc := ['*', '*'].isPrefixOf cs && (cs.drop 2).head?.any isAsciiSpace
    .ok ⟨if doc then .docComment else .comment, n + 3, .code waiting⟩

/-- The fault of a string that does not end. -/
def missingEnd : Closing → Fault
  | .quote _ => .unterminatedString
  | .heredoc label => .unterminatedHeredoc (String.ofList label)

/-- A string up to its end or its first interpolation, where `cs` follows the
first character of its opening. -/
def stringStart (waiting : List Interruption) (o : Opening) (cs : List Char) :
    Except Fault Lexeme :=
  let opened := o.length - 1
  let body := cs.drop opened
  match o.quoting with
  | .single =>
    match singleEnd? opened body with
    | some n => .ok ⟨.stringLiteral, n, .code waiting⟩
    | none => .error .unterminatedString
  | .nowdoc label =>
    match nowdocEnd? label true opened body with
    | some n => .ok ⟨.stringLiteral, n, .code waiting⟩
    | none => .error (.unterminatedNowdoc (String.ofList label))
  | .interpolated closing =>
    match fragmentEnd closing true opened body with
    | .closed n => .ok ⟨.stringLiteral, n, .code waiting⟩
    | .interrupted n => .ok ⟨.stringLiteral, n, .string closing waiting⟩
    | .missing => .error (missingEnd closing)

/-- Inside of a string: an interpolation, or the fragment before the next one. -/
def stringRest (closing : Closing) (waiting : List Interruption) (c : Char) (cs : List Char) :
    Except Fault Lexeme :=
  match fragmentEnd closing false 0 (c :: cs) with
  | .closed n => .ok ⟨.stringLiteral, n - 1, .code waiting⟩
  | .interrupted 0 =>
    let inside := Mode.code (⟨closing, 0⟩ :: waiting)
    if c == '{' then .ok ⟨.curlyOpen, 0, inside⟩ else .ok ⟨.dollarOpen, 1, inside⟩
  | .interrupted (n + 1) => .ok ⟨.stringLiteral, n, .string closing waiting⟩
  | .missing => .error (missingEnd closing)

/-- The number of characters of a line comment after its first one. -/
def lineCommentRest (cs : List Char) : Nat :=
  (findSuffix? (fun r => r.head?.any (fun c => c == '\n' || c == '\r') || startsCloseTag r)
    cs).getD cs.length

/-- The number of characters of an operator after its first one. -/
def operatorRest (c : Char) (cs : List Char) : Nat :=
  if startsAttribute (c :: cs) then 1
  else if ['-', '>'].isPrefixOf (c :: cs) then 1
  else if ['?', '-', '>'].isPrefixOf (c :: cs) then 2
  else if [':', ':'].isPrefixOf (c :: cs) then 1
  else 0

/-- The lexemes of code that always end and leave the mode as it is: their kind
and the number of characters after the first one. -/
def plain (member : Bool) (c : Char) (cs : List Char) : Kind × Nat :=
  if isBlank c then (.whitespace, runLength isBlank cs)
  else if startsLineComment (c :: cs) then (.comment, lineCommentRest cs)
  else if c == '$' && startsLabel cs then (.variableName, runLength isLabelChar cs)
  else if c.isDigit || (c == '.' && cs.head?.any Char.isDigit) then
    (.number, numberLength (c :: cs) - 1)
  else if c == '\\' && startsLabel cs then (.fullyQualifiedName, nameEnd 0 cs)
  else if isLabelStart c then
    let n := nameEnd 0 cs
    (nameKind member (c :: cs.take n) (cs.drop n), n)
  else (.punct, operatorRest c cs)

/-- Inside of code. -/
def code (r : Reading) (waiting : List Interruption) (c : Char) (cs : List Char) :
    Except Fault Lexeme :=
  if c == '{' then .ok ⟨.openBrace, 0, enterBrace waiting⟩
  else if c == '}' then .ok ⟨.closeBrace, 0, leaveBrace waiting⟩
  else if startsCloseTag (c :: cs) then
    if waiting.isEmpty then
      .ok ⟨.closeTag, closeTagLength (c :: cs) - 1, if r.halting then .data else .html⟩
    else .error (.unexpectedToken "?>")
  else if ['/', '*'].isPrefixOf (c :: cs) then blockComment waiting cs
  else
    match opening? (c :: cs) with
    | some o => stringStart waiting o cs
    | none =>
      let (kind, more) := plain r.member c cs
      let last := r.halting && waiting.isEmpty && c == ';'
      .ok ⟨kind, more, if last then .data else .code waiting⟩

/-- The lexeme that starts with the character `c`. -/
def lexeme (r : Reading) (c : Char) (cs : List Char) : Except Fault Lexeme :=
  match r.mode with
  | .html => .ok (html c cs)
  | .code waiting => code r waiting c cs
  | .string closing waiting => stringRest closing waiting c cs
  | .data => .ok ⟨.inlineHtml, cs.length, .data⟩

/-- Whether a token asks for the end of the code. -/
def requestsHalt (t : Token) : Bool :=
  t.kind == .reserved && sameWord t.text.toList haltWord.toList

/-- The state after a token. -/
def advance (r : Reading) (t : Token) (next : Mode) : Reading :=
  { mode := next
    line := lineAfter r.line t.text.toList
    member := if t.isTrivia then r.member else t.isMemberOperator
    halting := r.halting || requestsHalt t }

/-- The fault of a text that ends in this mode. -/
def faultAtEnd? : Mode → Option Fault
  | .html | .data | .code [] => none
  | .code (_ :: _) => some .unexpectedEnd
  | .string closing _ => some (missingEnd closing)

/-- Cuts a text into tokens. A fault is found on the line where the token starts
that cannot be read. -/
def tokens (r : Reading) : List Char → Except SourceError (List Token)
  | [] =>
    match faultAtEnd? r.mode with
    | none => .ok []
    | some fault => .error ⟨fault, r.line⟩
  | c :: cs =>
    match lexeme r c cs with
    | .error fault => .error ⟨fault, r.line⟩
    | .ok l =>
      let t : Token := ⟨l.kind, String.ofList (c :: cs.take l.more), r.line⟩
      match tokens (advance r t l.next) (cs.drop l.more) with
      | .error e => .error e
      | .ok ts => .ok (t :: ts)
termination_by cs => cs.length
decreasing_by simp only [List.length_drop, List.length_cons]; omega

end Lexer

/-- The line on which a list of tokens ends. -/
def endLine (ts : List Token) : Nat :=
  ts.foldl (fun line t => lineAfter line t.text.toList) 1

/-- The tokens of a source text, whose brackets pair up. -/
def tokenize (source : String) : Except SourceError (List Token) := do
  let ts ← Lexer.tokens {} source.toList
  checkBrackets (endLine ts) [] ts
  return ts

end Redeclaration
