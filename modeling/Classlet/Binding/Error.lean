import Classlet.NameKind
import Classlet.Position

/-!
What can be wrong with the names of a program.
-/

namespace Classlet

inductive BindingFault where
  | redeclared (kind : NameKind) (name : String)
  | undeclared (kind : NameKind) (name : String)
  | noSuperclass (cls superclass : String)
  | noClass (name : String)
  | notAReference (name : String)
  | noMethod (cls method : String)
  | fieldOverMethod (cls name : String)
  | methodOverField (cls name : String)
  | repeatedMember (kind : NameKind) (cls name : String)
deriving DecidableEq

def BindingFault.text : BindingFault → String
  | .redeclared kind name => s!"{kind.text} '{name}' already declared"
  | .undeclared kind name => s!"{kind.text} '{name}' not declared"
  | .noSuperclass cls superclass =>
    s!"superclass '{superclass}' of class '{cls}' not declared"
  | .noClass name => s!"class '{name}' not declared"
  | .notAReference name => s!"'{name}' is not an object reference"
  | .noMethod cls method => s!"class '{cls}' has no method '{method}'"
  | .fieldOverMethod cls name =>
    s!"field '{name}' of class '{cls}' cannot override a method"
  | .methodOverField cls name =>
    s!"method '{name}' of class '{cls}' cannot override a field"
  | .repeatedMember kind cls name =>
    s!"{kind.text} '{name}' defined more than once in class '{cls}'"

abbrev BindingError := Located BindingFault

def BindingError.message (e : BindingError) : String := e.text BindingFault.text

end Classlet
