import Classlet.Binding.Resolution

/-!
The names that occur in an expression. An expression declares nothing, so each
occurrence is bound by the scope around the whole expression: a name by the
innermost frame that has it, a method by the members of the class that its
receiver refers to, and an instantiated class by the classes of the program.
-/

namespace Classlet

/-- What is found at one occurrence of a name. -/
inductive Finding where
  | use (node : NodeId) (u : Use)
  | send (node : NodeId) (u : SendUse)
  | fault (error : BindingError)
deriving DecidableEq

namespace Finding

/-- The use of a name from the innermost frame. -/
def use? (s : Scope) (name : String) : Option Use :=
  (s.lookup? name).map fun (entry, _) => { entry, level := s.level }

def ofName (s : Scope) (node : NodeId) (kind : NameKind) (name : String) (pos : Position) :
    Finding :=
  match use? s name with
  | some u => .use node u
  | none => .fault ⟨pos, .undeclared kind name⟩

def ofClass (s : Scope) (b : Bindings) (node : NodeId) (cls : String) (pos : Position) : Finding :=
  match b.record? cls with
  | some record => .use node { entry := record.entry, level := s.level }
  | none => .fault ⟨pos, .noClass cls⟩

/-- A receiver of a class that does not exist leads to no finding: the class
was reported where the receiver is declared. -/
def ofSend? (s : Scope) (b : Bindings) (node : NodeId) (receiver method : String)
    (pos : Position) : Option Finding :=
  match use? s receiver with
  | none => some (.fault ⟨pos, .undeclared .variable receiver⟩)
  | some u =>
    match (b.entry? u.entry).bind fun e => e.type.referent? with
    | none => some (.fault ⟨pos, .notAReference receiver⟩)
    | some cls =>
      (b.record? cls).map fun record =>
        match record.members[method]? with
        | some entry => .send node { receiver := u, method := entry }
        | none => .fault ⟨pos, .noMethod cls method⟩

end Finding

namespace Expr

mutual

/-- The findings at all occurrences in an expression, from left to right. -/
def findings (s : Scope) (b : Bindings) : Expr → List Finding
  | .lit _ _ => []
  | .name id x pos => [.ofName s id .variable x pos]
  | .binary _ left right _ => findings s b left ++ findings s b right
  | .not e _ | .print e _ => findings s b e
  | .cond test yes no _ => findings s b test ++ findings s b yes ++ findings s b no
  | .call id callee args pos => .ofName s id .function callee pos :: findingsOfArgs s b args
  | .send id receiver method args pos =>
    (Finding.ofSend? s b id receiver method pos).toList ++ findingsOfArgs s b args
  | .new id cls args pos => .ofClass s b id cls pos :: findingsOfArgs s b args
termination_by structural e => e

def findingsOfArgs (s : Scope) (b : Bindings) : List Expr → List Finding
  | [] => []
  | e :: es => findings s b e ++ findingsOfArgs s b es
termination_by structural es => es

end

end Expr

namespace Resolution

def record (r : Resolution) : Finding → Resolution
  | .use node u => { r with bindings := r.bindings.fileUse node u }
  | .send node u => { r with bindings := r.bindings.fileSend node u }
  | .fault e => { r with errors := r.errors ++ [e] }

/-- Binds the names of an expression. -/
def bindExpr (r : Resolution) (e : Expr) : Resolution :=
  (e.findings r.scope r.bindings).foldl record r

end Resolution

end Classlet
