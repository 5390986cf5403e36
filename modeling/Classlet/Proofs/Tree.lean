import Classlet.Tree.Program

/-!
The numbered nodes of a program tree, and induction over trees. An expression
has lists of expressions inside and a function has a list of declarations, so
the induction principles speak of the lists as well. A property that goes down
from an expression to those directly in it goes down to all of its parts.
-/

namespace Classlet

namespace Expr

mutual

/-- The numbers of the nodes in an expression. -/
def ids : Expr → List NodeId
  | .lit _ _ => []
  | .name id _ _ => [id]
  | .binary _ left right _ => ids left ++ ids right
  | .not e _ | .print e _ => ids e
  | .cond test yes no _ => ids test ++ ids yes ++ ids no
  | .call id _ args _ | .send id _ _ args _ | .new id _ args _ => id :: idsOfArgs args
termination_by structural e => e

def idsOfArgs : List Expr → List NodeId
  | [] => []
  | e :: es => ids e ++ idsOfArgs es
termination_by structural es => es

end

mutual

/-- All expressions in an expression, itself included. -/
def parts : Expr → List Expr
  | .lit v pos => [.lit v pos]
  | .name id x pos => [.name id x pos]
  | .binary op left right pos => .binary op left right pos :: (parts left ++ parts right)
  | .not e pos => .not e pos :: parts e
  | .print e pos => .print e pos :: parts e
  | .cond test yes no pos => .cond test yes no pos :: (parts test ++ parts yes ++ parts no)
  | .call id callee args pos => .call id callee args pos :: partsOfArgs args
  | .send id receiver method args pos => .send id receiver method args pos :: partsOfArgs args
  | .new id cls args pos => .new id cls args pos :: partsOfArgs args
termination_by structural e => e

def partsOfArgs : List Expr → List Expr
  | [] => []
  | e :: es => parts e ++ partsOfArgs es
termination_by structural es => es

end

/-- Induction over expressions, where arguments are proved one by one. -/
@[elab_as_elim, induction_eliminator]
theorem induction {P : Expr → Prop}
    (lit : ∀ value pos, P (.lit value pos))
    (name : ∀ id x pos, P (.name id x pos))
    (binary : ∀ op left right pos, P left → P right → P (.binary op left right pos))
    (not : ∀ operand pos, P operand → P (.not operand pos))
    (cond : ∀ test yes no pos, P test → P yes → P no → P (.cond test yes no pos))
    (print : ∀ operand pos, P operand → P (.print operand pos))
    (call : ∀ id callee args pos, (∀ a ∈ args, P a) → P (.call id callee args pos))
    (send : ∀ id receiver method args pos, (∀ a ∈ args, P a) →
      P (.send id receiver method args pos))
    (new : ∀ id cls args pos, (∀ a ∈ args, P a) → P (.new id cls args pos))
    (e : Expr) : P e := by
  refine @Expr.rec P (fun es => ∀ a ∈ es, P a) lit name binary not cond print
    call send new ?_ ?_ e
  · intro a ha
    cases ha
  · intro e es he hes a ha
    rcases List.mem_cons.mp ha with rfl | ha
    · exact he
    · exact hes a ha

theorem mem_partsOfArgs {e : Expr} {args : List Expr} :
    e ∈ partsOfArgs args ↔ ∃ a ∈ args, e ∈ a.parts := by
  induction args with
  | nil => simp [partsOfArgs]
  | cons a as ih => simp [partsOfArgs, ih]

/-- What holds of an expression holds of the expressions directly in it. -/
structure Hereditary (P : Expr → Prop) : Prop where
  binary : ∀ {op left right pos}, P (.binary op left right pos) → P left ∧ P right
  not : ∀ {operand pos}, P (.not operand pos) → P operand
  print : ∀ {operand pos}, P (.print operand pos) → P operand
  cond : ∀ {test yes no pos}, P (.cond test yes no pos) → P test ∧ P yes ∧ P no
  call : ∀ {id callee args pos}, P (.call id callee args pos) → ∀ a ∈ args, P a
  send : ∀ {id receiver method args pos}, P (.send id receiver method args pos) → ∀ a ∈ args, P a
  new : ∀ {id cls args pos}, P (.new id cls args pos) → ∀ a ∈ args, P a

theorem Hereditary.true : Hereditary fun _ => True :=
  ⟨fun _ => ⟨trivial, trivial⟩, fun _ => trivial, fun _ => trivial,
    fun _ => ⟨trivial, trivial, trivial⟩, fun _ _ _ => trivial, fun _ _ _ => trivial,
    fun _ _ _ => trivial⟩

theorem Hereditary.part {P : Expr → Prop} (hP : Hereditary P) {e : Expr} (h : P e) :
    ∀ x ∈ e.parts, P x := by
  have args : ∀ es : List Expr, (∀ a ∈ es, P a → ∀ x ∈ a.parts, P x) → (∀ a ∈ es, P a) →
      ∀ x ∈ partsOfArgs es, P x := by
    intro es ih hes x hx
    obtain ⟨a, ha, hxa⟩ := mem_partsOfArgs.mp hx
    exact ih a ha (hes a ha) x hxa
  induction e with
  | lit value pos => simpa [parts] using h
  | name id y pos => simpa [parts] using h
  | binary op left right pos ihl ihr =>
    simp only [parts, List.mem_cons, List.mem_append]
    rintro x (rfl | hx | hx)
    · exact h
    · exact ihl (hP.binary h).1 x hx
    · exact ihr (hP.binary h).2 x hx
  | not operand pos ih =>
    simp only [parts, List.mem_cons]
    rintro x (rfl | hx)
    · exact h
    · exact ih (hP.not h) x hx
  | cond test yes no pos iht ihy ihn =>
    simp only [parts, List.mem_cons, List.mem_append]
    rintro x (rfl | (hx | hx) | hx)
    · exact h
    · exact iht (hP.cond h).1 x hx
    · exact ihy (hP.cond h).2.1 x hx
    · exact ihn (hP.cond h).2.2 x hx
  | print operand pos ih =>
    simp only [parts, List.mem_cons]
    rintro x (rfl | hx)
    · exact h
    · exact ih (hP.print h) x hx
  | call id callee es pos ih =>
    simp only [parts, List.mem_cons]
    rintro x (rfl | hx)
    · exact h
    · exact args es ih (hP.call h) x hx
  | send id receiver method es pos ih =>
    simp only [parts, List.mem_cons]
    rintro x (rfl | hx)
    · exact h
    · exact args es ih (hP.send h) x hx
  | new id cls es pos ih =>
    simp only [parts, List.mem_cons]
    rintro x (rfl | hx)
    · exact h
    · exact args es ih (hP.new h) x hx

end Expr

namespace Decl

def id : Decl → NodeId
  | .var id _ _ _ _ | .fn id _ _ _ _ _ _ => id

def name : Decl → String
  | .var _ name _ _ _ | .fn _ name _ _ _ _ _ => name

/-- The type of the declared name. -/
def type : Decl → Ty
  | .var _ _ type _ _ => type.lower
  | .fn _ _ params ret _ _ _ => .arrow (signatureOf params ret)

mutual

/-- The numbers of the nodes in a declaration. -/
def ids : Decl → List NodeId
  | .var id _ _ init _ => init.ids ++ [id]
  | .fn id _ params _ decls body _ =>
    id :: (params.map Binder.id ++ (idsOfAll decls ++ body.ids))
termination_by structural d => d

def idsOfAll : List Decl → List NodeId
  | [] => []
  | d :: ds => ids d ++ idsOfAll ds
termination_by structural ds => ds

end

mutual

/-- All expressions in a declaration. -/
def parts : Decl → List Expr
  | .var _ _ _ init _ => init.parts
  | .fn _ _ _ _ decls body _ => partsOfAll decls ++ body.parts
termination_by structural d => d

def partsOfAll : List Decl → List Expr
  | [] => []
  | d :: ds => parts d ++ partsOfAll ds
termination_by structural ds => ds

end

mutual

/-- All functions in a declaration: the parameters, the local declarations and the
body. -/
def routines : Decl → List (List Binder × List Decl × Expr)
  | .var .. => []
  | .fn _ _ params _ decls body _ => (params, decls, body) :: routinesOfAll decls
termination_by structural d => d

def routinesOfAll : List Decl → List (List Binder × List Decl × Expr)
  | [] => []
  | d :: ds => routines d ++ routinesOfAll ds
termination_by structural ds => ds

end

/-- Induction over declarations and lists of them at once. -/
theorem induction {P : Decl → Prop} {Q : List Decl → Prop}
    (var : ∀ id name type init pos, P (.var id name type init pos))
    (fn : ∀ id name params ret decls body pos, Q decls →
      P (.fn id name params ret decls body pos))
    (nil : Q [])
    (cons : ∀ d ds, P d → Q ds → Q (d :: ds)) :
    (∀ d, P d) ∧ ∀ ds, Q ds := by
  have one : ∀ d, P d := fun d => @Decl.rec P Q var fn nil cons d
  refine ⟨one, fun ds => ?_⟩
  induction ds with
  | nil => exact nil
  | cons d ds ih => exact cons d ds (one d) ih

end Decl

/-- The numbers of the nodes inside a method, its own left out. -/
def MethodDecl.innerIds (m : MethodDecl) : List NodeId :=
  m.params.map Binder.id ++ (Decl.idsOfAll m.decls ++ m.body.ids)

def MethodDecl.parts (m : MethodDecl) : List Expr := Decl.partsOfAll m.decls ++ m.body.parts

def MethodDecl.routines (m : MethodDecl) : List (List Binder × List Decl × Expr) :=
  (m.params, m.decls, m.body) :: Decl.routinesOfAll m.decls

/-- The numbers of a class and of its members. -/
def ClassDecl.headerIds (c : ClassDecl) : List NodeId :=
  c.id :: (c.fields.map Binder.id ++ c.methods.map MethodDecl.id)

/-- The numbers of the nodes inside the methods of a class. -/
def ClassDecl.innerIds (c : ClassDecl) : List NodeId := c.methods.flatMap MethodDecl.innerIds

/-- The numbers of all nodes of a program that have one, in the order in which
their names are bound. -/
def Program.ids (p : Program) : List NodeId :=
  p.classes.flatMap ClassDecl.headerIds ++
    (p.classes.flatMap ClassDecl.innerIds ++ (Decl.idsOfAll p.decls ++ p.body.ids))

/-- All expressions in a program. -/
def Program.parts (p : Program) : List Expr :=
  (p.classes.flatMap fun c => c.methods.flatMap MethodDecl.parts) ++
    (Decl.partsOfAll p.decls ++ p.body.parts)

/-- All functions and methods in a program. -/
def Program.routines (p : Program) : List (List Binder × List Decl × Expr) :=
  (p.classes.flatMap fun c => c.methods.flatMap MethodDecl.routines) ++ Decl.routinesOfAll p.decls

end Classlet
