import Mathlib.Data.List.Perm.Basic
import Classlet.Proofs.Tree
import Classlet.Tree.Node

/-!
Numbers tell the nodes of a program apart. A program is built node by node with one supply,
in any order in which a node comes after those below it; the nodes that are built and not
yet part of another one wait in a pool. What the supply has handed out is what is in the
pool, each number once. So all numbers of a finished program are different, none is left
out, and a node has a greater number than every node below it.
-/

namespace Classlet

/-- A node of any kind that a program is built from. -/
inductive Node where
  | expr (e : Expr)
  | binder (b : Binder)
  | decl (d : Decl)
  | method (m : MethodDecl)
  | cls (c : ClassDecl)

/-- The expressions that an expression is made of. -/
def Expr.operands : Expr → List Expr
  | .lit _ _ | .name _ _ _ => []
  | .binary _ left right _ => [left, right]
  | .not e _ | .print e _ => [e]
  | .cond test yes no _ => [test, yes, no]
  | .call _ _ args _ | .send _ _ _ args _ | .new _ _ args _ => args

/-- The parameters, declarations and body of a function or method. -/
def routineNodes (params : List Binder) (decls : List Decl) (body : Expr) : List Node :=
  params.map .binder ++ (decls.map .decl ++ [.expr body])

namespace Node

def id? : Node → Option NodeId
  | .expr e => e.id?
  | .binder b => some b.id
  | .decl d => some d.id
  | .method m => some m.id
  | .cls c => some c.id

/-- The nodes that a node is made of. -/
def children : Node → List Node
  | .expr e => e.operands.map .expr
  | .binder _ => []
  | .decl (.var _ _ _ init _) => [.expr init]
  | .decl (.fn _ _ params _ decls body _) => routineNodes params decls body
  | .method m => routineNodes m.params m.decls m.body
  | .cls c => c.fields.map .binder ++ c.methods.map .method

/-- The first node stands somewhere below the second. -/
inductive Under : Node → Node → Prop
  | child {x y : Node} (h : y ∈ x.children) : Under y x
  | deeper {x y z : Node} (h : y ∈ x.children) (hz : Under z y) : Under z x

/-- The numbers of a node and of those below it. -/
def ids : Node → List NodeId
  | .expr e => e.ids
  | .binder b => [b.id]
  | .decl d => d.ids
  | .method m => m.id :: m.innerIds
  | .cls c => c.headerIds ++ c.innerIds

/-- Every node from this one down has a greater number than the nodes below it. -/
def Descending (x : Node) : Prop :=
  ∀ y, y = x ∨ Under y x → ∀ z, Under z y → ∀ i ∈ y.id?, ∀ k ∈ z.id?, k < i

end Node

/-- The nodes that a program is made of. -/
def Program.children (p : Program) : List Node :=
  p.classes.map .cls ++ (p.decls.map .decl ++ [.expr p.body])

/-- A node stands somewhere in a program. -/
def Program.Has (p : Program) (x : Node) : Prop := ∃ y ∈ p.children, x = y ∨ x.Under y

namespace Build

/-- What is asked for when a node is built. -/
inductive Request where
  | lit (value : Literal)
  | name (x : String)
  | binary (op : BinOp) (left right : Expr)
  | not (operand : Expr)
  | cond (test yes no : Expr)
  | print (operand : Expr)
  | call (callee : String) (args : List Expr)
  | send (receiver method : String) (args : List Expr)
  | new (cls : String) (args : List Expr)
  | binder (name : String) (type : WrittenType)
  | var (name : String) (type : WrittenType) (init : Expr)
  | fn (name : String) (ret : WrittenType) (params : List Binder) (decls : List Decl) (body : Expr)
  | method (name : String) (ret : WrittenType) (params : List Binder) (decls : List Decl)
      (body : Expr)
  | cls (name : String) (parent? : Option String) (fields : List Binder)
      (methods : List MethodDecl)

def Request.build : Request → Build Node
  | .lit value => .expr <$> Build.lit value
  | .name x => .expr <$> Build.name x
  | .binary op left right => .expr <$> Build.binary op left right
  | .not operand => .expr <$> Build.not operand
  | .cond test yes no => .expr <$> Build.cond test yes no
  | .print operand => .expr <$> Build.print operand
  | .call f args => .expr <$> Build.call f args
  | .send x f args => .expr <$> Build.send x f args
  | .new c args => .expr <$> Build.new c args
  | .binder x type => .binder <$> Build.binder x type
  | .var x type init => .decl <$> Build.var x type init
  | .fn f ret params decls body => .decl <$> Build.fn f ret params decls body
  | .method f ret params decls body => .method <$> Build.method f ret params decls body
  | .cls c parent? fields methods => .cls <$> Build.cls c parent? fields methods

/-- Nodes have been built with one supply, each for use in one place; those in the pool are
not part of another node yet. -/
inductive Pool : List Node → Supply → Prop
  | empty : Pool [] {}
  | setLine {pool : List Node} {s s' : Supply} (h : Pool pool s) (line : Nat)
    (hs : (Build.setLine line).run s = ((), s')) : Pool pool s'
  | node {pool rest : List Node} {s s' : Supply} {x : Node} (h : Pool pool s) (r : Request)
    (hx : r.build.run s = (x, s')) (huse : pool.Perm (x.children ++ rest)) : Pool (x :: rest) s'

end Build

/-- A program is built with one supply, from the start, out of all nodes that have been
built. -/
def Program.Built (p : Program) (s : Supply) : Prop :=
  ∃ pool s₀, Build.Pool pool s₀ ∧ pool.Perm p.children ∧
    (Build.program p.classes p.decls p.body).run s₀ = (p, s)

theorem Expr.idsOfArgs_eq (args : List Expr) : idsOfArgs args = args.flatMap ids := by
  induction args with
  | nil => rfl
  | cons e es ih => rw [idsOfArgs, ih, List.flatMap_cons]

theorem Decl.idsOfAll_eq (ds : List Decl) : idsOfAll ds = ds.flatMap ids := by
  induction ds with
  | nil => rfl
  | cons d ds ih => rw [idsOfAll, ih, List.flatMap_cons]

theorem flatMap_ids_routineNodes (params : List Binder) (decls : List Decl) (body : Expr) :
    (routineNodes params decls body).flatMap Node.ids =
      params.map Binder.id ++ (Decl.idsOfAll decls ++ body.ids) := by
  rw [routineNodes, List.flatMap_append, List.flatMap_append, List.flatMap_map, List.flatMap_map,
    List.flatMap_singleton, Decl.idsOfAll_eq, List.map_eq_flatMap]
  rfl

namespace Node

/-- The numbers from a node down are its own, if it has one, and those from its children
down. -/
theorem ids_perm (x : Node) : x.ids.Perm (x.id?.toList ++ x.children.flatMap ids) := by
  cases x with
  | expr e =>
    rw [children, List.flatMap_map]
    cases e with
    | lit value pos | name id x pos => exact .refl _
    | binary op left right pos | not e pos | cond test yes no pos | print e pos =>
      simp [ids, Expr.ids, id?, Expr.id?, Expr.operands]
    | call id callee args pos | send id receiver method args pos | new id cls args pos =>
      simp [ids, Expr.ids, id?, Expr.id?, Expr.operands, Expr.idsOfArgs_eq]
  | binder b => exact .refl _
  | decl d =>
    cases d with
    | var id name type init pos =>
      rw [children, List.flatMap_singleton]
      exact List.perm_append_comm
    | fn id name params ret decls body pos =>
      rw [children, flatMap_ids_routineNodes]
      exact .refl _
  | method m =>
    rw [children, flatMap_ids_routineNodes]
    exact .refl _
  | cls c =>
    have hmethods := List.flatMap_append_perm c.methods (fun m => [m.id]) MethodDecl.innerIds
    rw [← List.map_eq_flatMap] at hmethods
    rw [children, List.flatMap_append, List.flatMap_map, List.flatMap_map, ids, ClassDecl.headerIds,
      List.cons_append, List.append_assoc, List.map_eq_flatMap]
    exact .cons _ (hmethods.append_left _)

theorem mem_ids {x : Node} {k : NodeId} : k ∈ x.ids ↔ k ∈ x.id? ∨ ∃ y ∈ x.children, k ∈ y.ids := by
  rw [x.ids_perm.mem_iff, List.mem_append, Option.mem_toList, List.mem_flatMap, Option.mem_def]

theorem Under.mem_ids {x y : Node} (h : Under y x) {k : NodeId} (hk : k ∈ y.id?) :
    ∃ z ∈ x.children, k ∈ z.ids := by
  induction h with
  | child hy => exact ⟨_, hy, Node.mem_ids.mpr (Or.inl hk)⟩
  | deeper hy _ ih => exact ⟨_, hy, Node.mem_ids.mpr (Or.inr (ih hk))⟩

theorem descending_of_children {x : Node} (hchildren : ∀ y ∈ x.children, y.Descending)
    (hbelow : ∀ i ∈ x.id?, ∀ y ∈ x.children, ∀ k ∈ y.ids, k < i) : x.Descending := by
  intro y hy z hz i hi k hk
  rcases hy with rfl | hy
  · obtain ⟨w, hw, hkw⟩ := hz.mem_ids hk
    exact hbelow i hi w hw k hkw
  · cases hy with
    | child hc => exact hchildren y hc y (Or.inl rfl) z hz i hi k hk
    | deeper hc hy => exact hchildren _ hc y (Or.inr hy) z hz i hi k hk

end Node

namespace Build

/-- A node that is built has no number, or the next one, which is handed out with it. -/
theorem Request.number {r : Request} {s s' : Supply} {x : Node} (h : r.build.run s = (x, s')) :
    (x.id? = none ∧ s'.next = s.next) ∨ (x.id? = some s.next ∧ s'.next = s.next + 1) := by
  cases r with
  | lit value | binary op left right | not operand | cond test yes no | print operand =>
    cases h
    exact Or.inl ⟨rfl, rfl⟩
  | name x | call callee args | send receiver method args | new cls args | binder name type
  | var name type init | fn name ret params decls body | method name ret params decls body
  | cls name parent? fields methods =>
    cases h
    exact Or.inr ⟨rfl, rfl⟩

namespace Pool

variable {pool : List Node} {s : Supply}

/-- The numbers in the pool are those that have been handed out. -/
theorem ids_perm (h : Pool pool s) : (pool.flatMap Node.ids).Perm (List.range s.next) := by
  induction h with
  | empty => exact .refl _
  | setLine _ line hs ih =>
    cases hs
    exact ih
  | @node pool rest s s' x _ r hx huse ih =>
    have hall : ((x :: rest).flatMap Node.ids).Perm (x.id?.toList ++ List.range s.next) := by
      calc
        _ = x.ids ++ rest.flatMap Node.ids := List.flatMap_cons
        List.Perm _ (x.id?.toList ++ x.children.flatMap Node.ids ++ rest.flatMap Node.ids) :=
          x.ids_perm.append_right _
        _ = x.id?.toList ++ (x.children ++ rest).flatMap Node.ids := by
          rw [List.append_assoc, List.flatMap_append]
        List.Perm _ (x.id?.toList ++ pool.flatMap Node.ids) :=
          (huse.symm.flatMap_right _).append_left _
        List.Perm _ (x.id?.toList ++ List.range s.next) := ih.append_left _
    rcases Request.number hx with ⟨hnone, hnext⟩ | ⟨hsome, hnext⟩
    · rw [hnone] at hall
      rw [hnext]
      exact hall
    · rw [hsome] at hall
      rw [hnext, List.range_succ]
      exact hall.trans (List.perm_append_singleton s.next _).symm

theorem descending (h : Pool pool s) : ∀ x ∈ pool, x.Descending := by
  induction h with
  | empty =>
    intro x hx
    cases hx
  | setLine _ _ _ ih => exact ih
  | @node pool rest s s' x hpool r hx huse ih =>
    have hin : ∀ y ∈ x.children ++ rest, y ∈ pool := fun y hy => huse.mem_iff.mpr hy
    intro y hy
    rcases List.mem_cons.mp hy with rfl | hy
    · refine Node.descending_of_children (fun z hz => ih z (hin z (List.mem_append_left _ hz))) ?_
      intro i hi z hz k hk
      have hmem : k ∈ pool.flatMap Node.ids :=
        List.mem_flatMap.mpr ⟨z, hin z (List.mem_append_left _ hz), hk⟩
      have hlt := List.mem_range.mp (hpool.ids_perm.mem_iff.mp hmem)
      rcases Request.number hx with ⟨hnone, -⟩ | ⟨hsome, -⟩
      · rw [hnone] at hi
        cases hi
      · rw [hsome] at hi
        cases hi
        exact hlt
    · exact ih y (hin y (List.mem_append_right _ hy))

end Pool

end Build

namespace Program

theorem ids_perm (p : Program) : p.ids.Perm (p.children.flatMap Node.ids) := by
  have hclasses := List.flatMap_append_perm p.classes ClassDecl.headerIds ClassDecl.innerIds
  rw [children, List.flatMap_append, List.flatMap_append, List.flatMap_map, List.flatMap_map,
    List.flatMap_singleton, ids, ← List.append_assoc, Decl.idsOfAll_eq]
  exact hclasses.append_right _

/-- The numbers in a program that is built are different, they are all that the supply has
handed out, and each node has a greater one than the nodes below it. -/
theorem built_numbered {p : Program} {s : Supply} (h : p.Built s) :
    p.ids.Nodup ∧ (∀ k, k ∈ p.ids ↔ k < s.next) ∧
      ∀ x y : Node, p.Has x → y.Under x → ∀ i ∈ x.id?, ∀ k ∈ y.id?, k < i := by
  obtain ⟨pool, s₀, hpool, hperm, hrun⟩ := h
  have hnext : s.next = s₀.next := by rw [← (Prod.mk.inj hrun).2]
  have hids : p.ids.Perm (List.range s.next) := by
    rw [hnext]
    exact p.ids_perm.trans ((hperm.symm.flatMap_right _).trans hpool.ids_perm)
  refine ⟨hids.nodup_iff.mpr List.nodup_range, fun k => ?_, ?_⟩
  · rw [hids.mem_iff, List.mem_range]
  · rintro x y ⟨top, htop, hx⟩ hy i hi k hk
    exact hpool.descending top (hperm.mem_iff.mpr htop) x hx y hy i hi k hk

end Program

/-- A class with a field and a method. -/
def countedClass : ClassDecl where
  id := 4
  name := "A"
  parent? := none
  fields := [⟨3, "f", .int (.ofLine 1), .ofLine 1⟩]
  methods := [⟨2, "m", [⟨1, "x", .int (.ofLine 1), .ofLine 1⟩], .int (.ofLine 1), [],
    .name 0 "x" (.ofLine 1), .ofLine 1⟩]
  pos := .ofLine 1

def countedVariable : Decl := .var 7 "v" (.int (.ofLine 2)) (.lit (.int 1) (.ofLine 2)) (.ofLine 2)

/-- The body is built before the variable that is used in it. -/
def countedProgram : Program where
  classes := [countedClass]
  decls := [countedVariable]
  body := .new 6 "A" [.name 5 "v" (.ofLine 2)] (.ofLine 2)
  pos := .ofLine 2

theorem built_countedProgram : countedProgram.Built ⟨8, 2⟩ := by
  have huse := Build.Pool.empty.node (.name "x") rfl (.refl _)
  have hparam := huse.node (.binder "x" (.int (.ofLine 1))) rfl (.refl _)
  have hmethod := hparam.node (.method "m" (.int (.ofLine 1)) [_] [] _) rfl (.refl _)
  have hfield := hmethod.node (.binder "f" (.int (.ofLine 1))) rfl (.refl _)
  have hcls : Build.Pool [.cls countedClass] ⟨5, 1⟩ :=
    hfield.node (.cls "A" none [_] [_]) rfl (.refl _)
  have hline : Build.Pool [.cls countedClass] ⟨5, 2⟩ := hcls.setLine 2 rfl
  have harg := hline.node (.name "v") rfl (.refl _)
  have hbody : Build.Pool [.expr countedProgram.body, .cls countedClass] ⟨7, 2⟩ :=
    harg.node (.new "A" [_]) rfl (.refl _)
  have hinit := hbody.node (.lit (.int 1)) rfl (.refl _)
  have hvar : Build.Pool ([.decl countedVariable, .expr countedProgram.body] ++ [.cls countedClass])
      ⟨8, 2⟩ := hinit.node (.var "v" (.int (.ofLine 2)) _) rfl (.refl _)
  exact ⟨_, _, hvar, List.perm_append_singleton _ _, rfl⟩

theorem countedProgram_numbered :
    countedProgram.Built ⟨8, 2⟩ ∧ countedProgram.ids = [4, 3, 2, 1, 0, 7, 6, 5] ∧
      countedProgram.ids.Nodup ∧ (∀ k, k ∈ countedProgram.ids ↔ k < 8) ∧
      ∀ y : Node, y.Under (.cls countedClass) → ∀ k ∈ y.id?, k < 4 := by
  obtain ⟨hnodup, hall, hbelow⟩ := Program.built_numbered built_countedProgram
  refine ⟨built_countedProgram, rfl, hnodup, hall, fun y hy k hk => ?_⟩
  exact hbelow (.cls countedClass) y ⟨_, List.mem_cons_self, Or.inl rfl⟩ hy 4 rfl k hk

end Classlet
