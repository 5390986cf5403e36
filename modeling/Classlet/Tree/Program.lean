import Classlet.WrittenType
import Classlet.Tree.Expression

/-!
Declarations and programs. A function has parameters, a result type, local
declarations and a body, and so has a method; functions nest. A program is a
list of classes, a list of declarations and the expression to evaluate.
-/

namespace Classlet

/-- A name with its written type: a parameter, or a field of a class. -/
structure Binder where
  id : NodeId
  name : String
  type : WrittenType
  pos : Position

inductive Decl where
  | var (id : NodeId) (name : String) (type : WrittenType) (init : Expr) (pos : Position)
  | fn (id : NodeId) (name : String) (params : List Binder) (ret : WrittenType)
      (decls : List Decl) (body : Expr) (pos : Position)

structure MethodDecl where
  id : NodeId
  name : String
  params : List Binder
  ret : WrittenType
  decls : List Decl
  body : Expr
  pos : Position

structure ClassDecl where
  id : NodeId
  name : String
  parent? : Option String
  fields : List Binder
  methods : List MethodDecl
  pos : Position

structure Program where
  classes : List ClassDecl
  decls : List Decl
  body : Expr
  pos : Position

/-- The signature that parameters and a result type are written for. -/
def signatureOf (params : List Binder) (ret : WrittenType) : Signature Ty :=
  ⟨params.map fun p => p.type.lower, ret.lower⟩

def MethodDecl.signature (m : MethodDecl) : Signature Ty := signatureOf m.params m.ret

def Program.declaresAny (p : Program) : Bool := !p.classes.isEmpty || !p.decls.isEmpty

end Classlet
