import Classlet.Binding.Table
import Classlet.Tree.Program
import Classlet.Ty.Join
import Classlet.Typing.Operator

/-!
Types of expressions and declarations, over the bindings of a program. An
expression with a node that is not bound is incomplete and has no type, but no
fault of its own either. A fault ends the check of the declaration it is in;
the declarations after it are still checked.
-/

namespace Classlet

/-- What the names of a program are bound to. -/
structure TypingContext where
  bindings : Bindings
  ancestry : Ancestry

/-- What has been found out about the types of a program. -/
structure TypingLog where
  types : Std.TreeMap NodeId Ty := ∅
  errors : List TypingError := []

/-- Why an expression has no type. -/
inductive Stop where
  | incomplete
  | fault (error : TypingError)
deriving DecidableEq

/-- A check, which may stop. What was filed before stays filed. -/
abbrev Check := ExceptT Stop (StateM TypingLog)

namespace Check

def fail {α : Type} (pos : Position) (cause : TypingFault) : Check α := throw (.fault ⟨pos, cause⟩)

/-- What a look-up found; without it the expression is incomplete. -/
def require {α : Type} : Option α → Check α
  | some a => return a
  | none => throw .incomplete

/-- Files the type of a node. -/
def file (node : NodeId) (t : Ty) : Check Ty := do
  modify fun log => { log with types := log.types.insert node t }
  return t

/-- Ends a check; a fault is added to the log. -/
def settle (check : Check Unit) : StateM TypingLog Unit := do
  match ← check.run with
  | .ok () | .error .incomplete => return
  | .error (.fault e) => modify fun log => { log with errors := log.errors ++ [e] }

end Check

namespace TypingContext

open Check

/-- Checks that there are as many arguments as expected. -/
def fitCount (callee : String) (expected : List Ty) (args : List Expr) (pos : Position) :
    Check Unit :=
  if expected.length = args.length then return
  else fail pos (.argumentCount callee expected.length args.length)

mutual

/-- The type of an expression. -/
def typeOf (c : TypingContext) : Expr → Check Ty
  | .lit value _ => return value.type
  | .name id x pos => do
    let (_, e) ← require (c.bindings.used? id)
    match e.type.nameKind? with
    | some kind => fail pos (.notAValue kind x)
    | none => file id e.type
  | .binary op left right pos => do
    let l ← typeOf c left
    let r ← typeOf c right
    match op.resultType c.ancestry l r with
    | .ok t => return t
    | .error cause => fail pos cause
  | .not operand pos => do
    let found ← typeOf c operand
    if found.subtypeOf c.ancestry .bool then return .bool
    else fail pos (.negationType found)
  | .cond test yes no pos => do
    let found ← typeOf c test
    if found.subtypeOf c.ancestry .bool then
      let y ← typeOf c yes
      let n ← typeOf c no
      match y.join? c.ancestry n with
      | some t => return t
      | none => fail pos (.branchTypes y n)
    else fail test.pos (.conditionType found)
  | .print operand _ => typeOf c operand
  | .call id callee args pos => do
    let (_, e) ← require (c.bindings.used? id)
    match e.type.signature? with
    | none => fail pos (.notCallable callee)
    | some sig =>
      fitCount callee sig.params args pos
      fitArgs c callee 1 args sig.params
      file id sig.ret
  | .send id receiver method args pos => do
    let u ← require c.bindings.sends[id]?
    let e ← require (c.bindings.entry? u.method)
    let callee := receiver ++ "." ++ method
    match e.type.signature? with
    | none => fail pos (.notCallable callee)
    | some sig =>
      fitCount callee sig.params args pos
      fitArgs c callee 1 args sig.params
      file id sig.ret
  | .new id cls args pos => do
    let (_, e) ← require (c.bindings.used? id)
    match e.type.shape? with
    | none => fail pos (.notAClass cls)
    | some shape =>
      fitCount cls shape.fields args pos
      fitArgs c cls 1 args shape.fields
      file id (.ref cls)
termination_by structural e => e

/-- Arguments against the types they are expected to have, numbered from
`place` on. -/
def fitArgs (c : TypingContext) (callee : String) (place : Nat) :
    List Expr → List Ty → Check Unit
  | e :: es, t :: ts => do
    let found ← typeOf c e
    if found.subtypeOf c.ancestry t then fitArgs c callee (place + 1) es ts
    else fail e.pos (.argumentType callee place t found)
  | _, _ => return
termination_by structural es => es

end

/-- Checks the body of a function or method against its result type. -/
def typeBody (c : TypingContext) (kind : NameKind) (name : String) (ret : WrittenType)
    (body : Expr) (pos : Position) : Check Unit := do
  let found ← c.typeOf body
  if found.subtypeOf c.ancestry ret.lower then return
  else fail pos (.returnType kind name ret.lower found)

mutual

def typeDecl (c : TypingContext) : Decl → Check Unit
  | .var _ name type init pos => do
    let found ← typeOf c init
    if found.subtypeOf c.ancestry type.lower then return
    else fail pos (.initialType name type.lower found)
  | .fn _ name _ ret decls body pos => do
    typeDecls c decls
    typeBody c .function name ret body pos
termination_by structural d => d

def typeDecls (c : TypingContext) : List Decl → StateM TypingLog Unit
  | [] => return
  | d :: ds => do
    settle (typeDecl c d)
    typeDecls c ds
termination_by structural ds => ds

end

def typeMethod (c : TypingContext) (m : MethodDecl) : Check Unit := do
  c.typeDecls m.decls
  c.typeBody .method m.name m.ret m.body m.pos

/-- A field at an inherited place must have a subtype of the type there. -/
def fieldOverride? (c : TypingContext) (cls : String) (own parent : ClassShape) (f : Binder) :
    Option TypingError := do
  let i ← (← c.bindings.declared? f.id).fieldPosition?
  if (← own.fields[i]?).subtypeOf c.ancestry (← parent.fields[i]?) then none
  else some ⟨f.pos, .fieldOverride cls f.name⟩

/-- A method in an inherited slot must have a subtype of the signature there. -/
def methodOverride? (c : TypingContext) (cls : String) (own parent : ClassShape)
    (m : MethodDecl) : Option TypingError := do
  let i := (← c.bindings.slots[m.id]?).index
  if (← own.methods[i]?).subtypeOf c.ancestry (← parent.methods[i]?) then none
  else some ⟨m.pos, .methodOverride cls m.name⟩

/-- The layout of a class next to the layout of its superclass. -/
def shapes? (c : TypingContext) (d : ClassDecl) : Option (ClassShape × ClassShape) := do
  let binding ← c.bindings.classes[d.id]?
  let parent ← c.bindings.shape? (← binding.parent?)
  let own ← (← c.bindings.entry? binding.entry).type.shape?
  return (own, parent)

/-- The members of a class that do not fit those they override. -/
def misfits (c : TypingContext) (d : ClassDecl) : List TypingError :=
  match c.shapes? d with
  | none => []
  | some (own, parent) =>
    d.fields.filterMap (c.fieldOverride? d.name own parent) ++
      d.methods.filterMap (c.methodOverride? d.name own parent)

def typeClass (c : TypingContext) (d : ClassDecl) : StateM TypingLog Unit := do
  d.methods.forM fun m => settle (c.typeMethod m)
  modify fun log => { log with errors := log.errors ++ c.misfits d }

/-- The type of the body of a program, if it has one. -/
def typeMain (c : TypingContext) (body : Expr) : StateM TypingLog (Option Ty) := do
  match ← (c.typeOf body).run with
  | .ok t => return some t
  | .error stop => settle (throw stop); return none

end TypingContext

/-- The types of a program, as far as they could be found. -/
structure Typing where
  programType? : Option Ty
  types : Std.TreeMap NodeId Ty
  errors : List TypingError

/-- Checks the classes, the declarations and the body of a program. -/
def TypingContext.check (c : TypingContext) (p : Program) : Typing :=
  let check : StateM TypingLog (Option Ty) := do
    p.classes.forM c.typeClass
    c.typeDecls p.decls
    c.typeMain p.body
  let (programType?, log) := check.run {}
  { programType?, types := log.types, errors := log.errors }

end Classlet
