import Redeclaration.FileTree.Lookup
import Redeclaration.Token.Fault

/-!
Paths that cannot be listed, files that cannot be read and sources without
tokens.
-/

namespace Redeclaration

inductive FileError where
  | unlistable (path : String) (why : AccessError)
  | unreadable (path : String) (why : AccessError)
  | unparsable (path : String) (why : SourceError)
deriving DecidableEq, Repr

namespace FileError

def path : FileError → String
  | unlistable path _ => path
  | unreadable path _ => path
  | unparsable path _ => path

def message : FileError → String
  | unlistable path why =>
    "Unable to list " ++ path ++ ": IO error for operation on " ++ path ++ ": " ++ why.message
  | unreadable path why => "Unable to get contents of " ++ path ++ ": " ++ why.message
  | unparsable path why => "Unable to parse " ++ path ++ ": " ++ why.message

end FileError

end Redeclaration
