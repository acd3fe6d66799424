import Redeclaration.Text.Search

/-!
Excluded paths. A path is excluded if one of the patterns occurs anywhere in its
text.
-/

namespace Redeclaration

def isExcluded (patterns : List String) (path : String) : Bool :=
  patterns.any fun p => Text.occursIn p.toList path.toList

end Redeclaration
