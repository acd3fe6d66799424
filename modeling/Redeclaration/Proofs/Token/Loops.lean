import Redeclaration.Proofs.Loop
import Redeclaration.Proofs.Token.Regions

/-!
The lexer as loops that call one another, each with a place in the text that it moves by the
length of what it reads. The loop over the sections of a file calls the one over the tokens
of its code, which calls a loop for each string, and the loop of a string with an
interpolation calls the one over code again. The lengths are whole lengths here: that they
are positive is a property of what is read, and no part of how it is counted.
-/

namespace Redeclaration.Lexer

open Text

/-! What is read where no loop is called. -/

def operatorLength (cs : List Char) : Nat :=
  if startsAttribute cs then 2
  else if ['-', '>'].isPrefixOf cs then 2
  else if ['?', '-', '>'].isPrefixOf cs then 3
  else if [':', ':'].isPrefixOf cs then 2
  else 1

/-- The kind and the whole length of a lexeme of code that always ends. -/
def plainLength (member : Bool) (c : Char) (cs : List Char) : Kind × Nat :=
  if isBlank c then (.whitespace, runLength isBlank (c :: cs))
  else if startsLineComment (c :: cs) then
    (.comment, (findSuffix? Region.endsLineComment (c :: cs)).getD (c :: cs).length)
  else if c == '$' && startsLabel cs then (.variableName, 1 + runLength isLabelChar cs)
  else if c.isDigit || (c == '.' && cs.head?.any Char.isDigit) then
    (.number, numberLength (c :: cs))
  else if c == '\\' && startsLabel cs then (.fullyQualifiedName, 1 + nameEnd 0 cs)
  else if isLabelStart c then
    let n := nameEnd 0 (c :: cs)
    (nameKind member ((c :: cs).take n) ((c :: cs).drop n), n)
  else (.punct, operatorLength (c :: cs))

/-- What stands at a character of code that is no brace and starts no closing tag. -/
inductive Found where
  | token (kind : Kind) (length : Nat)
  | string (opening : Opening)
  | fault (fault : Fault)

def find (member : Bool) (c : Char) (cs : List Char) : Found :=
  if ['/', '*'].isPrefixOf (c :: cs) then
    match findSuffix? ['*', '/'].isPrefixOf (cs.drop 1) with
    | none => .fault .unterminatedComment
    | some n =>
      let doc := ['*', '*'].isPrefixOf cs && (cs.drop 2).head?.any isAsciiSpace
      .token (if doc then .docComment else .comment) (2 + n + 2)
  else
    match opening? (c :: cs) with
    | some o => .string o
    | none => .token (plainLength member c cs).1 (plainLength member c cs).2

/-! The loops. -/

/-- A loop that is entered, with what it carries along. The loop of a string carries the text
of its token so far, and whether a line starts at its place. The interruptions are the loops
around it. -/
inductive Loop where
  /-- Over the sections of a file: text, a tag and the code up to the next tag. -/
  | sections
  /-- Over the tokens of code. -/
  | code (waiting : List Interruption)
  | single (passed : List Char) (waiting : List Interruption)
  | nowdoc (label : List Char) (lineStart : Bool) (passed : List Char)
      (waiting : List Interruption)
  /-- Over the fragments and interpolations of a string. -/
  | interpolated (closing : Closing) (lineStart : Bool) (passed : List Char)
      (waiting : List Interruption)

/-- The number of loops around this one. -/
def Loop.depth : Loop → Nat
  | .sections => 0
  | .code waiting => 2 * waiting.length + 1
  | .single _ waiting | .nowdoc _ _ _ waiting | .interpolated _ _ _ waiting =>
    2 * waiting.length + 2

/-- The innermost loop and what is left of the text, with all that the lexer remembers. -/
structure State where
  loop : Loop := .sections
  rest : List Char
  line : Nat := 1
  member : Bool := false
  halting : Bool := false
  found : List Token := []

/-- What the lexer answers, before the brackets are checked. -/
abbrev Answer := Except SourceError (List Token)

namespace State

def reading (s : State) (mode : Mode) : Reading :=
  ⟨mode, s.line, s.member, s.halting⟩

/-- Goes over some characters, on in a loop. -/
def pass (s : State) (n : Nat) (loop : Loop) : State :=
  { s with loop, rest := s.rest.drop n }

/-- Goes over some characters, and makes a token of the text so far and of them. -/
def cut (s : State) (kind : Kind) (passed : List Char) (n : Nat) (loop : Loop) : State :=
  let t : Token := ⟨kind, String.ofList (passed ++ s.rest.take n), s.line⟩
  let r := advance (s.reading .html) t .html
  { loop
    rest := s.rest.drop n
    line := r.line
    member := r.member
    halting := r.halting
    found := s.found ++ [t] }

def fail (s : State) (fault : Fault) : Turn State Answer :=
  .finish (.error ⟨fault, s.line⟩)

/-- The last token has this text. -/
def endsWith (s : State) (text : String) : Bool :=
  s.found.getLast?.any (·.text == text)

/-- The text before the next opening tag, if there is any, and that tag. -/
def sections (s : State) : Turn State Answer :=
  let n := htmlLength s.rest
  let s' := if n = 0 then s else s.cut .inlineHtml [] n .sections
  if s'.rest = [] then .finish (.ok s'.found)
  else .enter (s'.cut .openTag [] (openTagLength s'.rest) (.code []))

/-- The code of a section ends. If it has asked for the end of the code, the rest of the file
is data. -/
def endCode (s : State) : Turn State Answer :=
  if s.halting then
    let s' := if s.rest = [] then s else s.cut .inlineHtml [] s.rest.length .sections
    .finish (.ok s'.found)
  else .leave { s with loop := .sections }

/-- A closing brace. The one that has no partner in an interpolation ends it. -/
def closeBrace (s : State) : List Interruption → Turn State Answer
  | [] => .again (s.cut .closeBrace [] 1 (.code []))
  | ⟨closing, 0⟩ :: waiting =>
    .leave (s.cut .closeBrace [] 1 (.interpolated closing false [] waiting))
  | ⟨closing, depth + 1⟩ :: waiting =>
    .again (s.cut .closeBrace [] 1 (.code (⟨closing, depth⟩ :: waiting)))

def openBrace (s : State) : List Interruption → Turn State Answer
  | [] => .again (s.cut .openBrace [] 1 (.code []))
  | i :: waiting =>
    .again (s.cut .openBrace [] 1 (.code ({ i with depth := i.depth + 1 } :: waiting)))

/-- The opening of a string is passed, and its loop starts right behind it. -/
def openString (s : State) (o : Opening) (waiting : List Interruption) : State :=
  let passed := s.rest.take o.length
  s.pass o.length
    (match o.quoting with
    | .single => .single passed waiting
    | .nowdoc label => .nowdoc label true passed waiting
    | .interpolated closing => .interpolated closing true passed waiting)

/-- One token of code, or the opening of a string. -/
def code (s : State) (waiting : List Interruption) : Turn State Answer :=
  match s.rest with
  | [] => if waiting.isEmpty then s.endCode else s.fail .unexpectedEnd
  | c :: cs =>
    if c == '{' then s.openBrace waiting
    else if c == '}' then s.closeBrace waiting
    else if startsCloseTag (c :: cs) then
      if waiting.isEmpty then
        (s.cut .closeTag [] (closeTagLength (c :: cs)) (.code [])).endCode
      else s.fail (.unexpectedToken "?>")
    else
      match find s.member c cs with
      | .fault fault => s.fail fault
      | .string o => .enter (s.openString o waiting)
      | .token kind n =>
        let s' := s.cut kind [] n (.code waiting)
        if waiting.isEmpty && s'.halting && s'.endsWith ";" then s'.endCode else .again s'

/-- One character of a string, and the one that a backslash takes with it. -/
def single (s : State) (passed : List Char) (waiting : List Interruption) :
    Turn State Answer :=
  match s.rest with
  | [] => s.fail .unterminatedString
  | c :: cs =>
    if c == '\'' then .leave (s.cut .stringLiteral passed 1 (.code waiting))
    else if c == '\\' then .again (s.pass 2 (.single (passed ++ c :: cs.take 1) waiting))
    else .again (s.pass 1 (.single (passed ++ [c]) waiting))

def nowdoc (s : State) (label : List Char) (lineStart : Bool) (passed : List Char)
    (waiting : List Interruption) : Turn State Answer :=
  match (if lineStart then markerLength? label s.rest else none), s.rest with
  | some n, _ => .leave (s.cut .stringLiteral passed n (.code waiting))
  | none, [] => s.fail (.unterminatedNowdoc (String.ofList label))
  | none, c :: cs => .again (s.pass 1 (.nowdoc label (endsLine c cs) (passed ++ [c]) waiting))

/-- One character of a string, the one that a backslash takes with it, or the start of an
interpolation. -/
def interpolated (s : State) (closing : Closing) (lineStart : Bool) (passed : List Char)
    (waiting : List Interruption) : Turn State Answer :=
  match closing.length? lineStart s.rest, s.rest with
  | some n, _ => .leave (s.cut .stringLiteral passed n (.code waiting))
  | none, [] => s.fail (missingEnd closing)
  | none, c :: cs =>
    if startsInterpolation (c :: cs) then
      let s' := if passed = [] then s else s.cut .stringLiteral passed 0 s.loop
      let inside := Loop.code (⟨closing, 0⟩ :: waiting)
      .enter (if c == '{' then s'.cut .curlyOpen [] 1 inside else s'.cut .dollarOpen [] 2 inside)
    else if c == '\\' then
      -- A line break, and the end of the text, are not escaped.
      let n := if cs.head?.all (fun d => d == '\n' || d == '\r') then 1 else 2
      .again (s.pass n (.interpolated closing false (passed ++ (c :: cs).take n) waiting))
    else .again (s.pass 1 (.interpolated closing (endsLine c cs) (passed ++ [c]) waiting))

/-- One turn of the innermost loop. -/
def turn (s : State) : Turn State Answer :=
  match s.loop with
  | .sections => s.sections
  | .code waiting => s.code waiting
  | .single passed waiting => s.single passed waiting
  | .nowdoc label lineStart passed waiting => s.nowdoc label lineStart passed waiting
  | .interpolated closing lineStart passed waiting =>
    s.interpolated closing lineStart passed waiting

end State

/-! The searches that the loops use, as loops of their own. -/

/-- One piece of the trivia that the word enum looks over. -/
def triviaTurn (cs : List Char) : Turn (List Char) (List Char) :=
  if cs.head?.any isBlank then .again (cs.dropWhile isBlank)
  else if ['/', '*'].isPrefixOf cs then
    match findSuffix? ['*', '/'].isPrefixOf (cs.drop 2) with
    | some n => .again (cs.drop (n + 4))
    | none => .finish cs
  else if startsLineComment cs then .again (cs.dropWhile (· != '\n'))
  else .finish cs

/-- The next place where a tag may open. -/
def tagTurn (cs : List Char) : Turn (List Char) (Option (List Char)) :=
  match findSuffix? ['<', '?'].isPrefixOf cs with
  | none => .finish none
  | some n =>
    if startsOpenTag (cs.drop n) then .finish (some (cs.drop n)) else .again (cs.drop (n + 2))

end Redeclaration.Lexer
