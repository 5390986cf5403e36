import Classlet.NameKind
import Classlet.Position
import Classlet.Ty.Basic

/-!
What can be wrong with the types of a program whose names are bound.
-/

namespace Classlet

inductive TypingFault where
  | conditionType (found : Ty)
  | branchTypes (yes no : Ty)
  | functionEquality
  | operandTypes (op : String) (left right : Ty)
  | negationType (found : Ty)
  | notCallable (name : String)
  | argumentCount (callee : String) (expected found : Nat)
  | argumentType (callee : String) (place : Nat) (expected found : Ty)
  | notAValue (kind : NameKind) (name : String)
  | notAClass (name : String)
  | initialType (name : String) (expected found : Ty)
  | returnType (kind : NameKind) (name : String) (expected found : Ty)
  | fieldOverride (cls field : String)
  | methodOverride (cls method : String)
deriving DecidableEq

def TypingFault.text : TypingFault → String
  | .conditionType found => s!"non boolean condition in if (found '{found.text}')"
  | .branchTypes yes no =>
    s!"incompatible types in then-else branches ('{yes.text}' and '{no.text}')"
  | .functionEquality => "functions cannot be compared for equality"
  | .operandTypes op left right =>
    s!"incompatible operand types for '{op}' ('{left.text}' and '{right.text}')"
  | .negationType found => s!"incompatible operand type for '!' ('{found.text}')"
  | .notCallable name => s!"invocation of non-function '{name}'"
  | .argumentCount callee expected found =>
    s!"wrong number of arguments in the invocation of {callee} " ++
      s!"(expected {expected}, found {found})"
  | .argumentType callee place expected found =>
    s!"wrong type for argument {place} in the invocation of {callee} " ++
      s!"(expected '{expected.text}', found '{found.text}')"
  | .notAValue kind name => s!"wrong usage of {kind.text} identifier '{name}'"
  | .notAClass name => s!"'{name}' is not a class"
  | .initialType name expected found =>
    s!"incompatible value for variable '{name}' " ++
      s!"(expected '{expected.text}', found '{found.text}')"
  | .returnType kind name expected found =>
    s!"wrong return type for {kind.text} '{name}' " ++
      s!"(expected '{expected.text}', found '{found.text}')"
  | .fieldOverride cls field =>
    s!"incompatible type for field '{field}' overridden in class '{cls}'"
  | .methodOverride cls method =>
    s!"incompatible signature for method '{method}' overridden in class '{cls}'"

abbrev TypingError := Located TypingFault

def TypingError.message (e : TypingError) : String := e.text TypingFault.text

end Classlet
