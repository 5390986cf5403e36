import Classlet.Position

/-!
What can be missing when code is generated: the binding of a name, or the
dispatch table of a superclass. A program whose analysis is clean has both.
-/

namespace Classlet

inductive GenerationFault where
  | unbound (name : String)
  | noDispatchTable (cls : String)
deriving DecidableEq

def GenerationFault.text : GenerationFault → String
  | .unbound name => s!"no binding recorded for '{name}'"
  | .noDispatchTable cls => s!"no dispatch table for class '{cls}'"

abbrev GenerationError := Located GenerationFault

def GenerationError.message (e : GenerationError) : String := e.text GenerationFault.text

end Classlet
