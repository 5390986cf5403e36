import Classlet.Ancestry
import Classlet.Binding.Error
import Classlet.Binding.Table
import Classlet.Tree.Program

/-!
The state of binding the names of a program, and the steps that declare a name
or report a fault. Nothing stops at a fault: it is added to the report, and
what could not be bound is left without an entry.
-/

namespace Classlet

structure Resolution where
  /-- The class names of the whole program, which annotations may mention. -/
  classNames : List String := []
  scope : Scope := {}
  bindings : Bindings := {}
  ancestry : Ancestry := {}
  /-- What was found to be wrong, in the order of finding it. -/
  errors : List BindingError := []

namespace Resolution

def report (r : Resolution) (pos : Position) (cause : BindingFault) : Resolution :=
  { r with errors := r.errors ++ [⟨pos, cause⟩] }

/-- Reports the first class of an annotation that the program does not have. -/
def checkType (r : Resolution) (a : WrittenType) : Resolution :=
  match a.unknownClass? r.classNames.contains with
  | some ⟨pos, cls⟩ => r.report pos (.noClass cls)
  | none => r

/-- Checks the annotations of parameters in order, then that of the result. -/
def checkSignature (r : Resolution) (params : List Binder) (ret : WrittenType) : Resolution :=
  (params.foldl (fun r p => r.checkType p.type) r).checkType ret

/-- Adds an entry for a node. -/
def add (r : Resolution) (node : NodeId) (e : Entry) : EntryId × Resolution :=
  let (id, bindings) := r.bindings.add e
  (id, { r with bindings := bindings.fileDeclaration node id })

/-- Declares a name in the innermost frame. A name that is taken still has an
entry of its own, but the earlier declaration keeps the name. -/
def declare (r : Resolution) (node : NodeId) (name : String) (kind : NameKind) (type : Ty)
    (offset : Int) (pos : Position) : Resolution :=
  let (id, r) := r.add node { level := r.scope.level, type, offset }
  match r.scope.declare? name id with
  | some scope => { r with scope }
  | none => r.report pos (.redeclared kind name)

/-- Declares a name at the next place for declarations. -/
def declareLocal (r : Resolution) (node : NodeId) (name : String) (kind : NameKind) (type : Ty)
    (pos : Position) : Resolution :=
  let (offset, scope) := r.scope.takeDecl
  { r with scope }.declare node name kind type offset pos

/-- Declares a parameter at the next place for parameters. -/
def declareParam (r : Resolution) (p : Binder) : Resolution :=
  let (offset, scope) := r.scope.takeParam
  { r with scope }.declare p.id p.name .parameter p.type.lower offset p.pos

/-- Opens a frame with the given names. -/
def enter (r : Resolution) (names : Names := ∅) : Resolution :=
  { r with scope := r.scope.push names }

/-- Closes the innermost frame. -/
def leave (r : Resolution) : Resolution := { r with scope := r.scope.pop }

end Resolution

end Classlet
