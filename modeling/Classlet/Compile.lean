import Classlet.Binding.Declaration
import Classlet.Code.Generate
import Classlet.Typing.Check

/-!
Compilation of a program: its names are bound, its types are checked, and if
nothing is wrong its code is generated.
-/

namespace Classlet

structure Options where
  memorySize : Word := 10000
  /-- Whether types are checked even if some names could not be bound. -/
  checkUnbound : Bool := true
deriving DecidableEq

/-- Whatever can be wrong with a program. -/
inductive Diagnostic where
  | binding (error : BindingError)
  | typing (error : TypingError)
  | generation (error : GenerationError)
deriving DecidableEq

namespace Diagnostic

def pos : Diagnostic → Position
  | .binding e => e.pos
  | .typing e => e.pos
  | .generation e => e.pos

def message : Diagnostic → String
  | .binding e => "binding error " ++ e.message
  | .typing e => "type error " ++ e.message
  | .generation e => "code generation error " ++ e.message

end Diagnostic

structure Compilation where
  /-- The code, if nothing is wrong. -/
  listing? : Option Listing
  /-- The type of the program's body, if the check got that far. -/
  programType? : Option Ty
  errors : List Diagnostic

def Compilation.succeeded (c : Compilation) : Bool := c.errors.isEmpty && c.listing?.isSome

def Program.compile (p : Program) (o : Options) : Compilation :=
  let r := p.resolve
  let bindingErrors := r.errors.map Diagnostic.binding
  let typing? :=
    if bindingErrors.isEmpty || o.checkUnbound then
      some (TypingContext.check { bindings := r.bindings, ancestry := r.ancestry } p)
    else none
  let programType? := typing?.bind Typing.programType?
  let typingErrors := match typing? with
    | some typing => typing.errors.map Diagnostic.typing
    | none => []
  let errors := bindingErrors ++ typingErrors
  if errors.isEmpty then
    match p.generate { bindings := r.bindings, memorySize := o.memorySize } r.ancestry with
    | .ok listing => { listing? := some listing, programType?, errors }
    | .error e => { listing? := none, programType?, errors := errors ++ [.generation e] }
  else { listing? := none, programType?, errors }

end Classlet
