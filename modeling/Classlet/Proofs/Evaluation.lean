import Classlet.Code.Operation
import Classlet.Proofs.Layout
import Classlet.Proofs.Nest

/-!
Direct evaluation of a program on its tree. Names are looked up in the frames
around them, a method is chosen by the class of the object it is sent to, and
the local declarations of a function are evaluated on every call. A truth value
is the word 0 or 1 and null is the word -1; both operands of every operator are
evaluated, and only `>=` evaluates its right operand first.

Calls may nest to a given depth only, so that every evaluation ends. One that
ends for another reason is the same at every greater depth.
-/

namespace Classlet

abbrev ObjectId := Nat

/-- A value is a word, or an object by its number. -/
inductive Value where
  | word (w : Word)
  | object (id : ObjectId)
deriving DecidableEq

namespace Value

def null : Value := .word (-1)

def ofBool (b : Bool) : Value := .word (if b then 1 else 0)

def word? : Value → Option Word
  | .word w => some w
  | .object _ => none

def bool? : Value → Option Bool
  | .word w => if w = 0 then some false else if w = 1 then some true else none
  | .object _ => none

/-- Whether two values are the same. An object is compared with objects and
with null only. -/
def same? : Value → Value → Option Bool
  | .word a, .word b => some (decide (a = b))
  | .object i, .object j => some (decide (i = j))
  | .word w, .object _ | .object _, .word w => if w = -1 then some false else none

end Value

def Literal.value : Literal → Value
  | .int w => .word w
  | .bool b => .ofBool b
  | .null => .null

/-- An object has a class and the values of its fields, in layout order. -/
structure Object where
  cls : String
  fields : List Value
deriving DecidableEq

/-- The objects made so far, by number, and what was printed so far. -/
structure Store where
  objects : List Object := []
  output : List Value := []
deriving DecidableEq

/-- Why an evaluation has no value. -/
inductive Abort where
  /-- Calls nest too deeply. -/
  | depth
  | division
  /-- A method is called on null. -/
  | receiver
  /-- The rules give the expression no meaning. -/
  | stuck
deriving DecidableEq

abbrev Eval := StateT Store (Except Abort)

namespace Eval

def require {α : Type} : Option α → Eval α
  | some a => return a
  | none => throw .stuck

/-- Adds an object under the next number. -/
def allocate (o : Object) : Eval Value :=
  modifyGet fun s => (.object s.objects.length, { s with objects := s.objects ++ [o] })

def print (v : Value) : Eval Value :=
  modifyGet fun s => (v, { s with output := s.output ++ [v] })

end Eval

/-- What a name stands for. -/
inductive Denotation where
  | value (v : Value)
  | function (params : List Binder) (decls : List Decl) (body : Expr)
  /-- A method of the object whose method is running. -/
  | method (self : ObjectId)
  | cls

abbrev Env := Nest Denotation

/-- A function or method, and the frames that it sees. -/
structure Closure where
  params : List Binder
  decls : List Decl
  body : Expr
  env : Env

/-- The value of an operation on the values of its operands. -/
def BinOp.apply (op : BinOp) (a b : Value) : Except Abort Value :=
  let words (f : Word → Word → Except Abort Value) :=
    match a.word?, b.word? with
    | some v, some w => f v w
    | _, _ => .error .stuck
  let bools (f : Bool → Bool → Bool) :=
    match a.bool?, b.bool? with
    | some v, some w => .ok (.ofBool (f v w))
    | _, _ => .error .stuck
  match op with
  | .equal =>
    match a.same? b with
    | some r => .ok (.ofBool r)
    | none => .error .stuck
  | .lessEqual => words fun v w => .ok (.ofBool (decide (v ≤ w)))
  | .greaterEqual => words fun v w => .ok (.ofBool (decide (w ≤ v)))
  | .and => bools (· && ·)
  | .or => bools (· || ·)
  | .add => words fun v w => .ok (.word (v + w))
  | .sub => words fun v w => .ok (.word (v - w))
  | .mul => words fun v w => .ok (.word (v * w))
  | .div => words fun v w =>
    match Word.quotient? v w with
    | some q => .ok (.word q)
    | none => .error .division

/-- Evaluates both operands and then the operation. -/
def Eval.operate (op : BinOp) (left right : Eval Value) : Eval Value :=
  match op with
  | .greaterEqual => do
    let b ← right
    let a ← left
    op.apply a b
  | _ => do
    let a ← left
    let b ← right
    op.apply a b

/-- The frame of the members of an object, as the methods of a class see it. -/
def Layout.members (l : Layout) (self : ObjectId) (fields : List Value) :
    List (String × Denotation) :=
  (l.fields.zip fields).map (fun (f, v) => (f.1, .value v)) ++
    l.methods.map fun m => (m.1, .method self)

/-- The outermost frame, as far as the classes go. -/
def classFrame (classes : List ClassDecl) : List (String × Denotation) :=
  classes.map fun c => (c.name, .cls)

section Expressions

variable (classes : List ClassDecl) (invoke : Closure → List Value → Eval Value)

/-- Calls a method of an object. The class of the object chooses the method,
which sees the members of the class that declares it. -/
def dispatch (self : ObjectId) (method : String) (args : List Value) : Eval Value := do
  let object ← Eval.require (← get).objects[self]?
  let found ← Eval.require (nearest? classes object.cls method)
  let layout ← Eval.require (layout? classes found.owner)
  let m := found.decl
  invoke ⟨m.params, m.decls, m.body, [layout.members self object.fields, classFrame classes]⟩ args

/-- Calls what a name stands for. -/
def callName (env : Env) (f : String) (args : List Value) : Eval Value :=
  match env.find? f with
  | some (.function params decls body, seen) => invoke ⟨params, decls, body, seen⟩ args
  | some (.method self, _) => dispatch classes invoke self f args
  | _ => throw .stuck

/-- Calls a method of the object that a name stands for. -/
def sendTo (env : Env) (x method : String) (args : List Value) : Eval Value :=
  match env.find? x with
  | some (.value (.object self), _) => dispatch classes invoke self method args
  | some (.value (.word w), _) => throw (if w = -1 then .receiver else .stuck)
  | _ => throw .stuck

/-- Makes an object of a class from the values of its fields. -/
def instantiate (cls : String) (fields : List Value) : Eval Value := do
  let layout ← Eval.require (layout? classes cls)
  if layout.fields.length = fields.length then Eval.allocate ⟨cls, fields⟩ else throw .stuck

mutual

def Expr.eval (env : Env) : Expr → Eval Value
  | .lit value _ => return value.value
  | .name _ x _ =>
    match env.find? x with
    | some (.value v, _) => return v
    | _ => throw .stuck
  | .binary op left right _ => Eval.operate op (left.eval env) (right.eval env)
  | .not operand _ => do
    let b ← Eval.require (← operand.eval env).bool?
    return .ofBool !b
  | .cond test yes no _ => do
    if ← Eval.require (← test.eval env).bool? then yes.eval env else no.eval env
  | .print operand _ => do
    Eval.print (← operand.eval env)
  | .call _ callee args _ => do
    callName classes invoke env callee (← evalArgsBackwards env args)
  | .send _ receiver method args _ => do
    sendTo classes invoke env receiver method (← evalArgsBackwards env args)
  | .new _ cls args _ => do
    instantiate classes cls (← evalArgs env args)
termination_by structural e => e

/-- The values of arguments that are evaluated from the first to the last. -/
def Expr.evalArgs (env : Env) : List Expr → Eval (List Value)
  | [] => return []
  | e :: es => do
    let v ← e.eval env
    let vs ← evalArgs env es
    return v :: vs
termination_by structural es => es

/-- The values of arguments that are evaluated from the last to the first. -/
def Expr.evalArgsBackwards (env : Env) : List Expr → Eval (List Value)
  | [] => return []
  | e :: es => do
    let vs ← evalArgsBackwards env es
    let v ← e.eval env
    return v :: vs
termination_by structural es => es

end

/-- Evaluates declarations in order and adds their names to the innermost
frame. -/
def Decl.evalAll : List Decl → Env → Eval Env
  | [], env => return env
  | .var _ x _ init _ :: ds, env => do
    let v ← init.eval classes invoke env
    evalAll ds (env.declare x (.value v))
  | .fn _ f params _ decls body _ :: ds, env =>
    evalAll ds (env.declare f (.function params decls body))

/-- The frame of the parameters of a call. -/
def paramFrame (params : List Binder) (args : List Value) : List (String × Denotation) :=
  ((params.zip args).map fun (p, v) => (p.name, .value v)).reverse

/-- Evaluates the local declarations and the body of a function. -/
def Closure.enter (c : Closure) (args : List Value) : Eval Value := do
  if c.params.length = args.length then
    let env ← Decl.evalAll classes invoke c.decls (paramFrame c.params args :: c.env)
    c.body.eval classes invoke env
  else throw .stuck

end Expressions

/-- Calls with at most `depth` calls inside each other. -/
def invoke (classes : List ClassDecl) : (depth : Nat) → Closure → List Value → Eval Value
  | 0, _, _ => throw .depth
  | depth + 1, c, args => c.enter classes (invoke classes depth) args

/-- The value of a program and what it leaves behind, with calls nested at most
`depth` deep. -/
def Program.eval (p : Program) (depth : Nat) : Except Abort (Value × Store) :=
  let classes := p.classes.reverse
  let evaluation : Eval Value := do
    let env ← Decl.evalAll classes (invoke classes depth) p.decls [classFrame classes]
    p.body.eval classes (invoke classes depth) env
  evaluation.run {}

end Classlet
