/-!
What can be wrong with a source text.
-/

namespace Redeclaration

/-- The reasons for which a source text has no tokens. -/
inductive Fault where
  | unterminatedComment
  | unterminatedString
  | unterminatedHeredoc (label : String)
  | unterminatedNowdoc (label : String)
  | unexpectedEnd
  | unexpectedToken (text : String)
deriving DecidableEq, Repr

/-- A fault and the line on which it is found. -/
structure SourceError where
  fault : Fault
  line : Nat
deriving DecidableEq, Repr

namespace SourceError

/-- The reason in words. A comment is blamed on the line where it starts. -/
def reason (e : SourceError) : String :=
  match e.fault with
  | .unterminatedComment => "Unterminated comment starting line " ++ toString e.line
  | .unterminatedString => "syntax error, unterminated string literal"
  | .unterminatedHeredoc label => "syntax error, unterminated heredoc \"" ++ label ++ "\""
  | .unterminatedNowdoc label => "syntax error, unterminated nowdoc \"" ++ label ++ "\""
  | .unexpectedEnd => "syntax error, unexpected end of file"
  | .unexpectedToken text => "syntax error, unexpected token \"" ++ text ++ "\""

def message (e : SourceError) : String :=
  e.reason ++ " on line " ++ toString e.line

end SourceError

end Redeclaration
