/-!
What a name can be declared as.
-/

namespace Classlet

inductive NameKind where
  | variable
  | function
  | parameter
  | cls
  | field
  | method
deriving DecidableEq

def NameKind.text : NameKind → String
  | .variable => "variable"
  | .function => "function"
  | .parameter => "parameter"
  | .cls => "class"
  | .field => "field"
  | .method => "method"

end Classlet
