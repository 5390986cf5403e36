import Classlet.Proofs.Labels
import Classlet.Proofs.Layout
import Classlet.Proofs.Lexical
import Mathlib.Algebra.GroupWithZero.Nat

/-!
Where the code of each expression of a program stands. How many code words an expression
takes follows from its bindings, and so does the number of code words before it: the code
of a program begins with the dispatch tables, then come the declarations and the body,
and then the blocks of the functions and methods, each behind those of the functions in
it. Two expressions may have the same code, but not at the same place: no two expressions
end at the same place, apart from a conditional, which ends where its last branch does.
-/

namespace Classlet

/-- A function or method, with the frames of names around it. -/
structure Block where
  scope : List Naming
  params : List Binder
  decls : List Decl
  body : Expr

/-- An expression, with the frames of names around it and the number of code words before
its code. -/
structure Site where
  scope : List Naming
  start : Nat
  expr : Expr

/-! Sizes. -/

namespace Bindings

/-- The number of access links from the use of a name to the frame of its declaration. -/
def distance (b : Bindings) (node : NodeId) : Nat :=
  (b.used? node).elim 0 fun (u, e) => u.distance e

/-- Whether a call by name is one of a method. -/
def callsMethod (b : Bindings) (node : NodeId) : Bool :=
  (b.used? node).any fun (_, e) => e.isMethod

/-- The number of access links from a method call to the frame of its receiver. -/
def receiverDistance (b : Bindings) (node : NodeId) : Nat :=
  (b.sends[node]?).elim 0 fun u => (b.entry? u.receiver.entry).elim 0 u.receiver.distance

end Bindings

/-- The code words of an operation, without its operands. -/
def BinOp.width : BinOp → Nat
  | .equal | .lessEqual | .greaterEqual => 8
  | .or => 11
  | .and | .add | .sub | .mul | .div => 1

/-- The code words of a return. -/
def returnWidth (params locals : Nat) : Nat := locals + params + 7

namespace Expr

mutual

/-- The number of code words of an expression. -/
def width (t : Target) : Expr → Nat
  | .lit _ _ => 2
  | .name id _ _ => t.bindings.distance id + 5
  | .binary op left right _ => width t left + width t right + op.width
  | .not e _ => width t e + 6
  | .cond test yes no _ => width t test + 4 + width t no + 2 + width t yes
  | .print e _ => width t e + 1
  | .call id _ args _ =>
    1 + widthOfArgs t args + (t.bindings.distance id + (t.bindings.callsMethod id).toNat + 9)
  | .send id _ _ args _ => 1 + widthOfArgs t args + (t.bindings.receiverDistance id + 14)
  | .new _ _ args _ => widthOfArgs t args + (7 * args.length + 11)
termination_by structural e => e

def widthOfArgs (t : Target) : List Expr → Nat
  | [] => 0
  | e :: es => width t e + widthOfArgs t es
termination_by structural es => es

end

theorem width_pos (t : Target) (e : Expr) : 0 < e.width t := by
  cases e with
  | binary op left right pos => cases op <;> simp [width, BinOp.width]
  | lit | name | not | cond | print | call | send | new =>
    simp only [width]
    omega

end Expr

/-- The number of code words of declarations. A function is the address of its code. -/
def Decl.widths (t : Target) : List Decl → Nat
  | [] => 0
  | .var _ _ _ init _ :: ds => init.width t + widths t ds
  | .fn .. :: ds => 2 + widths t ds

namespace Block

/-- The number of code words up to the place where the result has been computed. -/
def bodyWidth (t : Target) (b : Block) : Nat := 2 + Decl.widths t b.decls + b.body.width t

def width (t : Target) (b : Block) : Nat :=
  b.bodyWidth t + returnWidth b.params.length b.decls.length

end Block

/-- The number of code words that lay out the dispatch tables. -/
def Program.tablesWidth (p : Program) : Nat :=
  (p.classes.map fun c =>
    1 + 9 * (layout? p.classes.reverse c.name).elim 0 fun l => l.methods.length).sum

/-- The number of code words before the declarations of a program. -/
def Program.declsStart (p : Program) : Nat := (if p.declaresAny then 2 else 0) + p.tablesWidth

/-- The number of code words before the first block. -/
def Program.blocksStart (p : Program) (t : Target) : Nat :=
  p.declsStart + Decl.widths t p.decls + p.body.width t + 1

/-! Places. -/

/-- The number of code words before the end of the code. -/
def Site.stop (t : Target) (x : Site) : Nat := x.start + x.expr.width t

namespace Expr

mutual

/-- All expressions in an expression, in the order in which their code ends. -/
def sites (t : Target) (Γ : List Naming) : Expr → Nat → List Site
  | .lit value pos, start => [⟨Γ, start, .lit value pos⟩]
  | .name id x pos, start => [⟨Γ, start, .name id x pos⟩]
  | .binary op left right pos, start =>
    (if op = .greaterEqual then sites t Γ right start ++ sites t Γ left (start + right.width t)
      else sites t Γ left start ++ sites t Γ right (start + left.width t)) ++
      [⟨Γ, start, .binary op left right pos⟩]
  | .not e pos, start => sites t Γ e start ++ [⟨Γ, start, .not e pos⟩]
  | .cond test yes no pos, start =>
    sites t Γ test start ++ sites t Γ no (start + test.width t + 4) ++
      sites t Γ yes (start + test.width t + 4 + no.width t + 2) ++
      [⟨Γ, start, .cond test yes no pos⟩]
  | .print e pos, start => sites t Γ e start ++ [⟨Γ, start, .print e pos⟩]
  | .call id callee args pos, start =>
    sitesBackwards t Γ args (start + 1) ++ [⟨Γ, start, .call id callee args pos⟩]
  | .send id receiver method args pos, start =>
    sitesBackwards t Γ args (start + 1) ++ [⟨Γ, start, .send id receiver method args pos⟩]
  | .new id cls args pos, start =>
    sitesOfArgs t Γ args start ++ [⟨Γ, start, .new id cls args pos⟩]
termination_by structural e => e

def sitesOfArgs (t : Target) (Γ : List Naming) : List Expr → Nat → List Site
  | [], _ => []
  | e :: es, start => sites t Γ e start ++ sitesOfArgs t Γ es (start + e.width t)
termination_by structural es => es

/-- The arguments of a call, of which the last one is computed first. -/
def sitesBackwards (t : Target) (Γ : List Naming) : List Expr → Nat → List Site
  | [], _ => []
  | e :: es, start => sitesBackwards t Γ es start ++ sites t Γ e (start + widthOfArgs t es)
termination_by structural es => es

end

end Expr

theorem Expr.mem_sites_self (t : Target) (Γ : List Naming) (e : Expr) (start : Nat) :
    ⟨Γ, start, e⟩ ∈ e.sites t Γ start := by
  cases e with
  | lit | name => exact List.mem_singleton_self _
  | binary | not | cond | print | call | send | new =>
    exact List.mem_append_right _ (List.mem_singleton_self _)

/-- All expressions in that of a site. -/
def Site.inner (t : Target) (x : Site) : List Site := x.expr.sites t x.scope x.start

namespace Decl

/-- The values of the variables among declarations. -/
def roots (t : Target) (outer : List Naming) :
    List (String × NodeId) → List Decl → Nat → List Site
  | _, [], _ => []
  | before, .var id x _ init _ :: ds, start =>
    ⟨.ofList before :: outer, start, init⟩ ::
      roots t outer (before ++ [(x, id)]) ds (start + init.width t)
  | before, .fn id f _ _ _ _ _ :: ds, start => roots t outer (before ++ [(f, id)]) ds (start + 2)

mutual

/-- The functions in a declaration, each behind those that are declared in it; `before` are
the declarations before it in its own frame. -/
def blocks (outer : List Naming) (before : List (String × NodeId)) : Decl → List Block
  | .var .. => []
  | .fn id name params _ decls body _ =>
    let Γ := Naming.ofList (before ++ [(name, id)]) :: outer
    blocksOfAll Γ (params.map Binder.named) decls ++ [⟨Γ, params, decls, body⟩]
termination_by structural d => d

def blocksOfAll (outer : List Naming) (before : List (String × NodeId)) : List Decl → List Block
  | [] => []
  | d :: ds => blocks outer before d ++ blocksOfAll outer (before ++ [d.named]) ds
termination_by structural ds => ds

end

end Decl

namespace Block

/-- The names of a function or method. -/
def names (b : Block) : List (String × NodeId) :=
  b.params.map Binder.named ++ b.decls.map Decl.named

/-- The values of the variables and the body, where the code begins at `start`. -/
def roots (t : Target) (start : Nat) (b : Block) : List Site :=
  Decl.roots t b.scope (b.params.map Binder.named) b.decls (start + 2) ++
    [⟨.ofList b.names :: b.scope, start + 2 + Decl.widths t b.decls, b.body⟩]

/-- The same for blocks that follow one another. -/
def rootsFrom (t : Target) : Nat → List Block → List Site
  | _, [] => []
  | start, b :: bs => b.roots t start ++ rootsFrom t (start + b.width t) bs

/-- Where a block begins among blocks that follow one another. -/
def startOf (t : Target) (start : Nat) (bs : List Block) (k : Nat) : Nat :=
  start + ((bs.take k).map (Block.width t)).sum

end Block

def MethodDecl.blocks (Γ : List Naming) (m : MethodDecl) : List Block :=
  Decl.blocksOfAll Γ (m.params.map Binder.named) m.decls ++ [⟨Γ, m.params, m.decls, m.body⟩]

def ClassDecl.blocks (Γ : List Naming) (c : ClassDecl) : List Block :=
  c.methods.flatMap (MethodDecl.blocks Γ)

namespace Program

/-- The frame of the classes of a program. -/
def classNaming (p : Program) : Naming := .ofList (p.classes.map ClassDecl.named)

/-- The functions and methods of a program, in the order of their code. -/
def blocks (p : Program) : List Block :=
  (p.classes.zip (ClassDecl.namings [] p.classes)).flatMap
      (fun q => q.1.blocks [q.2, p.classNaming]) ++
    Decl.blocksOfAll [] (p.classes.map ClassDecl.named) p.decls

/-- The expressions of a program that are not part of another one. -/
def roots (p : Program) (t : Target) : List Site :=
  Decl.roots t [] (p.classes.map ClassDecl.named) p.decls p.declsStart ++
    ⟨[.ofList (p.classes.map ClassDecl.named ++ p.decls.map Decl.named)],
      p.declsStart + Decl.widths t p.decls, p.body⟩ ::
    Block.rootsFrom t (p.blocksStart t) p.blocks

/-- All expressions of a program where their code stands, in the order in which it ends. -/
def sites (p : Program) (t : Target) : List Site := (p.roots t).flatMap (Site.inner t)

/-- Where the block of the given number begins. -/
def blockStart (p : Program) (t : Target) (k : Nat) : Nat :=
  Block.startOf t (p.blocksStart t) p.blocks k

end Program

/-! Parts of an expression. -/

namespace Site

/-- The arguments of `new`. -/
def args (t : Target) (Γ : List Naming) : Nat → List Expr → List Site
  | _, [] => []
  | start, e :: es => ⟨Γ, start, e⟩ :: args t Γ (start + e.width t) es

/-- The arguments of a call, of which the last one is computed first. -/
def argsBackwards (t : Target) (Γ : List Naming) (start : Nat) : List Expr → List Site
  | [] => []
  | e :: es => argsBackwards t Γ start es ++ [⟨Γ, start + Expr.widthOfArgs t es, e⟩]

/-- The expressions that an expression is made of. -/
def children (t : Target) (x : Site) : List Site :=
  match x.expr with
  | .lit .. | .name .. => []
  | .binary op left right _ =>
    if op = .greaterEqual then
      [⟨x.scope, x.start, right⟩, ⟨x.scope, x.start + right.width t, left⟩]
    else [⟨x.scope, x.start, left⟩, ⟨x.scope, x.start + left.width t, right⟩]
  | .not e _ | .print e _ => [⟨x.scope, x.start, e⟩]
  | .cond test yes no _ =>
    [⟨x.scope, x.start, test⟩, ⟨x.scope, x.start + test.width t + 4, no⟩,
      ⟨x.scope, x.start + test.width t + 4 + no.width t + 2, yes⟩]
  | .call _ _ es _ | .send _ _ _ es _ => argsBackwards t x.scope (x.start + 1) es
  | .new _ _ es _ => args t x.scope x.start es

variable {t : Target} {Γ : List Naming}

theorem flatMap_args (start : Nat) (es : List Expr) :
    (args t Γ start es).flatMap (inner t) = Expr.sitesOfArgs t Γ es start := by
  induction es generalizing start with
  | nil => rfl
  | cons e es ih => rw [args, List.flatMap_cons, ih, Expr.sitesOfArgs, inner]

theorem flatMap_argsBackwards (start : Nat) (es : List Expr) :
    (argsBackwards t Γ start es).flatMap (inner t) = Expr.sitesBackwards t Γ es start := by
  induction es with
  | nil => rfl
  | cons e es ih =>
    rw [argsBackwards, List.flatMap_append, ih, List.flatMap_singleton, Expr.sitesBackwards, inner]

theorem inner_eq (x : Site) : x.inner t = (x.children t).flatMap (inner t) ++ [x] := by
  obtain ⟨Γ, start, e⟩ := x
  cases e with
  | lit | name => rfl
  | binary op left right pos =>
    simp only [inner, Expr.sites, children]
    split <;> simp [inner]
  | not operand pos => simp [inner, Expr.sites, children]
  | cond test yes no pos => simp [inner, Expr.sites, children]
  | print operand pos => simp [inner, Expr.sites, children]
  | call id callee es pos => simp [inner, Expr.sites, children, ← flatMap_argsBackwards]
  | send id receiver method es pos => simp [inner, Expr.sites, children, ← flatMap_argsBackwards]
  | new id cls es pos => simp [inner, Expr.sites, children, ← flatMap_args]

theorem mem_args {start : Nat} {es : List Expr} {y : Site} (hy : y ∈ args t Γ start es) :
    ∃ e ∈ es, ∃ start, y = ⟨Γ, start, e⟩ := by
  induction es generalizing start with
  | nil => cases hy
  | cons e es ih =>
    rcases List.mem_cons.mp hy with rfl | hy
    · exact ⟨e, List.mem_cons_self, start, rfl⟩
    · obtain ⟨e', he', hy⟩ := ih hy
      exact ⟨e', List.mem_cons_of_mem _ he', hy⟩

theorem mem_argsBackwards {start : Nat} {es : List Expr} {y : Site}
    (hy : y ∈ argsBackwards t Γ start es) : ∃ e ∈ es, ∃ start, y = ⟨Γ, start, e⟩ := by
  induction es with
  | nil => cases hy
  | cons e es ih =>
    rcases List.mem_append.mp hy with hy | hy
    · obtain ⟨e', he', hy⟩ := ih hy
      exact ⟨e', List.mem_cons_of_mem _ he', hy⟩
    · exact ⟨e, List.mem_cons_self, _, List.mem_singleton.mp hy⟩

/-- Induction over the parts of expressions. -/
theorem induction (t : Target) {P : Site → Prop}
    (h : ∀ x : Site, (∀ y ∈ x.children t, P y) → P x) (x : Site) : P x := by
  obtain ⟨Γ, start, e⟩ := x
  induction e generalizing start with
  | lit value pos => exact h _ fun y hy => by cases hy
  | name id x pos => exact h _ fun y hy => by cases hy
  | binary op left right pos ihl ihr =>
    refine h _ fun y hy => ?_
    simp only [children] at hy
    split at hy
    · simp only [List.mem_cons, List.not_mem_nil, or_false] at hy
      rcases hy with rfl | rfl
      · exact ihr _
      · exact ihl _
    · simp only [List.mem_cons, List.not_mem_nil, or_false] at hy
      rcases hy with rfl | rfl
      · exact ihl _
      · exact ihr _
  | not operand pos ih =>
    refine h _ fun y hy => ?_
    rw [List.mem_singleton.mp hy]
    exact ih _
  | cond test yes no pos iht ihy ihn =>
    refine h _ fun y hy => ?_
    simp only [children, List.mem_cons, List.not_mem_nil, or_false] at hy
    rcases hy with rfl | rfl | rfl
    · exact iht _
    · exact ihn _
    · exact ihy _
  | print operand pos ih =>
    refine h _ fun y hy => ?_
    rw [List.mem_singleton.mp hy]
    exact ih _
  | call id callee es pos ih =>
    refine h _ fun y hy => ?_
    obtain ⟨e, he, start', rfl⟩ := mem_argsBackwards hy
    exact ih e he _
  | send id receiver method es pos ih =>
    refine h _ fun y hy => ?_
    obtain ⟨e, he, start', rfl⟩ := mem_argsBackwards hy
    exact ih e he _
  | new id cls es pos ih =>
    refine h _ fun y hy => ?_
    obtain ⟨e, he, start', rfl⟩ := mem_args hy
    exact ih e he _

theorem mem_inner_self (t : Target) (x : Site) : x ∈ x.inner t := x.expr.mem_sites_self t _ _

/-- All of an expression's part is in the expression. -/
theorem inner_subset {x y : Site} (hy : y ∈ x.inner t) : y.inner t ⊆ x.inner t := by
  induction x using induction t with
  | h x ih =>
    rw [inner_eq, List.mem_append, List.mem_singleton] at hy
    rcases hy with hy | rfl
    · obtain ⟨z, hz, hy⟩ := List.mem_flatMap.mp hy
      intro w hw
      rw [inner_eq]
      exact List.mem_append_left _ (List.mem_flatMap.mpr ⟨z, hz, ih z hz hy hw⟩)
    · exact fun w hw => hw

theorem mem_inner_child {x y : Site} (hy : y ∈ x.children t) : y ∈ x.inner t := by
  rw [inner_eq]
  exact List.mem_append_left _ (List.mem_flatMap.mpr ⟨y, hy, y.mem_inner_self t⟩)

end Site

/-! No two expressions end at the same place. -/

def Expr.isCond : Expr → Bool
  | .cond .. => true
  | _ => false

/-- The code of the first expression ends before that of the second one; if that is a
conditional they may end at the same place. -/
def Site.Before (t : Target) (x y : Site) : Prop :=
  x.stop t < y.stop t ∨ x.stop t = y.stop t ∧ y.expr.isCond

/-- Expressions that end one after the other, between two places. -/
structure Site.Ordered (t : Target) (low high : Nat) (xs : List Site) : Prop where
  within : ∀ x ∈ xs, low < x.stop t ∧ x.stop t ≤ high
  pairwise : xs.Pairwise (Site.Before t)

namespace Site.Ordered

variable {t : Target} {low mid high : Nat} {xs ys : List Site}

theorem nil (low high : Nat) : Ordered t low high [] := ⟨by simp, .nil⟩

theorem mono {low' high' : Nat} (h : Ordered t low high xs) (hl : low' ≤ low) (hh : high ≤ high') :
    Ordered t low' high' xs := by
  refine ⟨fun x hx => ?_, h.pairwise⟩
  obtain ⟨hlow, hhigh⟩ := h.within x hx
  omega

theorem append (h : Ordered t low mid xs) (h' : Ordered t mid high ys) (hl : low ≤ mid)
    (hh : mid ≤ high) : Ordered t low high (xs ++ ys) := by
  refine ⟨fun x hx => ?_, List.pairwise_append.mpr ⟨h.pairwise, h'.pairwise, ?_⟩⟩
  · rcases List.mem_append.mp hx with hx | hx
    · exact (h.mono (Nat.le_refl _) hh).within x hx
    · exact (h'.mono hl (Nat.le_refl _)).within x hx
  · intro x hx y hy
    have hle := (h.within x hx).2
    have hlt := (h'.within y hy).1
    exact Or.inl (by omega)

/-- An expression that ends behind all others. -/
theorem snoc (h : Ordered t low mid xs) {x : Site} (hx : x.stop t = high) (hl : low < high)
    (hlast : mid < high ∨ mid = high ∧ x.expr.isCond) : Ordered t low high (xs ++ [x]) := by
  refine ⟨fun y hy => ?_, List.pairwise_append.mpr ⟨h.pairwise, List.pairwise_singleton _ _, ?_⟩⟩
  · rcases List.mem_append.mp hy with hy | hy
    · exact (h.mono (Nat.le_refl _) (by omega)).within y hy
    · rw [List.mem_singleton.mp hy]
      omega
  · intro y hy z hz
    rw [List.mem_singleton.mp hz]
    have hle := (h.within y hy).2
    rcases hlast with hlt | ⟨heq, hcond⟩
    · exact Or.inl (by omega)
    · by_cases hend : y.stop t = x.stop t
      · exact Or.inr ⟨hend, hcond⟩
      · exact Or.inl (by omega)

/-- Of two expressions that end at the same place one is a conditional. -/
theorem unique (h : Ordered t low high xs) {x y : Site} (hx : x ∈ xs) (hy : y ∈ xs)
    (hxc : x.expr.isCond = false) (hyc : y.expr.isCond = false) (hend : x.stop t = y.stop t) :
    x = y := by
  have hnot : ∀ a b : Site, b.expr.isCond = false → a.stop t = b.stop t → ¬ a.Before t b := by
    rintro a b hb heq (hlt | ⟨-, hcond⟩)
    · omega
    · rw [hb] at hcond
      cases hcond
  obtain ⟨i, hi, rfl⟩ := List.getElem_of_mem hx
  obtain ⟨j, hj, rfl⟩ := List.getElem_of_mem hy
  have hpairs := List.pairwise_iff_getElem.mp h.pairwise
  rcases Nat.lt_trichotomy i j with hlt | heq | hgt
  · exact absurd (hpairs i j hi hj hlt) (hnot _ _ hyc hend)
  · simp only [heq]
  · exact absurd (hpairs j i hj hi hgt) (hnot _ _ hxc hend.symm)

end Site.Ordered

section

open Site (Ordered)

variable (t : Target) (Γ : List Naming)

theorem Expr.ordered_sitesOfArgs {args : List Expr}
    (h : ∀ a ∈ args, ∀ start, Ordered t start (start + a.width t) (a.sites t Γ start))
    (start : Nat) :
    Ordered t start (start + widthOfArgs t args) (sitesOfArgs t Γ args start) := by
  induction args generalizing start with
  | nil => exact .nil _ _
  | cons e es ih =>
    have hrest := ih (fun a ha => h a (List.mem_cons_of_mem _ ha)) (start + e.width t)
    rw [sitesOfArgs, widthOfArgs, ← Nat.add_assoc]
    exact (h e List.mem_cons_self start).append hrest (by omega) (by omega)

theorem Expr.ordered_sitesBackwards {args : List Expr}
    (h : ∀ a ∈ args, ∀ start, Ordered t start (start + a.width t) (a.sites t Γ start))
    (start : Nat) :
    Ordered t start (start + widthOfArgs t args) (sitesBackwards t Γ args start) := by
  induction args generalizing start with
  | nil => exact .nil _ _
  | cons e es ih =>
    have hrest := ih (fun a ha => h a (List.mem_cons_of_mem _ ha)) start
    rw [sitesBackwards, widthOfArgs, Nat.add_comm (e.width t), ← Nat.add_assoc]
    exact hrest.append (h e List.mem_cons_self _) (by omega) (by omega)

/-- An expression ends behind its parts, or with them if it is a conditional. -/
theorem Expr.ordered_self {e : Expr} {start mid : Nat} {xs : List Site} (h : Ordered t start mid xs)
    (hlast : mid < start + e.width t ∨ mid = start + e.width t ∧ e.isCond) :
    Ordered t start (start + e.width t) (xs ++ [⟨Γ, start, e⟩]) := by
  have hpos := e.width_pos t
  exact h.snoc rfl (by omega) hlast

theorem Expr.ordered_sites (e : Expr) (start : Nat) :
    Ordered t start (start + e.width t) (e.sites t Γ start) := by
  induction e generalizing start with
  | lit value pos => exact ordered_self t Γ (.nil start start) (Or.inl (by simp [width]))
  | name id x pos => exact ordered_self t Γ (.nil start start) (Or.inl (by simp [width]))
  | binary op left right pos ihl ihr =>
    have hop : 0 < op.width := by cases op <;> simp [BinOp.width]
    have hparts : Ordered t start (start + left.width t + right.width t)
        (if op = .greaterEqual then sites t Γ right start ++ sites t Γ left (start + right.width t)
          else sites t Γ left start ++ sites t Γ right (start + left.width t)) := by
      split
      · rw [Nat.add_right_comm]
        exact (ihr start).append (ihl _) (by omega) (by omega)
      · exact (ihl start).append (ihr _) (by omega) (by omega)
    rw [sites]
    exact ordered_self t Γ hparts (Or.inl (by rw [width]; omega))
  | not operand pos ih =>
    rw [sites]
    exact ordered_self t Γ (ih start) (Or.inl (by rw [width]; omega))
  | cond test yes no pos iht ihy ihn =>
    have hno := (iht start).append ((ihn (start + test.width t + 4)).mono (by omega)
      (Nat.le_refl _)) (by omega) (by omega)
    have hyes := hno.append ((ihy (start + test.width t + 4 + no.width t + 2)).mono (by omega)
      (Nat.le_refl _)) (by omega) (by omega)
    rw [sites]
    exact ordered_self t Γ hyes (Or.inr ⟨by rw [width]; omega, rfl⟩)
  | print operand pos ih =>
    rw [sites]
    exact ordered_self t Γ (ih start) (Or.inl (by rw [width]; omega))
  | call id callee args pos ih =>
    have hargs := (ordered_sitesBackwards t Γ ih (start + 1)).mono (Nat.le_succ start)
      (Nat.le_refl _)
    rw [sites]
    exact ordered_self t Γ hargs (Or.inl (by rw [width]; omega))
  | send id receiver method args pos ih =>
    have hargs := (ordered_sitesBackwards t Γ ih (start + 1)).mono (Nat.le_succ start)
      (Nat.le_refl _)
    rw [sites]
    exact ordered_self t Γ hargs (Or.inl (by rw [width]; omega))
  | new id cls args pos ih =>
    rw [sites]
    exact ordered_self t Γ (ordered_sitesOfArgs t Γ ih start) (Or.inl (by rw [width]; omega))

variable {t} in
theorem Site.Ordered.flatMap_cons {low mid high : Nat} {r : Site} {rs : List Site}
    (h : Ordered t mid high (rs.flatMap (Site.inner t))) (hl : low ≤ r.start)
    (hm : r.stop t ≤ mid) (hh : mid ≤ high) :
    Ordered t low high ((r :: rs).flatMap (Site.inner t)) := by
  rw [List.flatMap_cons]
  refine ((r.expr.ordered_sites t r.scope r.start).mono hl hm).append h ?_ hh
  have hle : r.start ≤ r.stop t := Nat.le_add_right _ _
  omega

theorem Decl.ordered_roots (outer : List Naming) (ds : List Decl) (before : List (String × NodeId))
    (start : Nat) : Ordered t start (start + widths t ds)
      ((roots t outer before ds start).flatMap (Site.inner t)) := by
  induction ds generalizing before start with
  | nil => exact .nil _ _
  | cons d ds ih =>
    cases d with
    | var id x type init pos =>
      rw [roots, widths, ← Nat.add_assoc]
      exact (ih _ _).flatMap_cons (Nat.le_refl _) (Nat.le_refl _) (by omega)
    | fn id f params ret decls body pos =>
      rw [roots, widths, ← Nat.add_assoc]
      exact (ih _ _).mono (by omega) (Nat.le_refl _)

theorem Block.ordered_roots (b : Block) (start : Nat) : Ordered t start (start + b.bodyWidth t)
    ((b.roots t start).flatMap (Site.inner t)) := by
  have hdecls := Decl.ordered_roots t b.scope b.decls (b.params.map Binder.named) (start + 2)
  have hbody : Ordered t (start + 2 + Decl.widths t b.decls) (start + b.bodyWidth t)
      (Site.inner t ⟨.ofList b.names :: b.scope, start + 2 + Decl.widths t b.decls, b.body⟩) :=
    (b.body.ordered_sites t _ _).mono (Nat.le_refl _) (by simp only [bodyWidth]; omega)
  rw [roots, List.flatMap_append, List.flatMap_singleton]
  exact (hdecls.mono (by omega) (Nat.le_refl _)).append hbody (by omega) (by rw [bodyWidth]; omega)

theorem Block.ordered_rootsFrom (bs : List Block) (start : Nat) :
    Ordered t start (start + (bs.map (Block.width t)).sum)
      ((rootsFrom t start bs).flatMap (Site.inner t)) := by
  induction bs generalizing start with
  | nil => exact .nil _ _
  | cons b bs ih =>
    rw [rootsFrom, List.flatMap_append, List.map_cons, List.sum_cons, ← Nat.add_assoc]
    refine ((b.ordered_roots t start).mono (Nat.le_refl _) ?_).append (ih _) (by omega) (by omega)
    rw [Block.width]
    omega

/-- All expressions of a program end one after the other. -/
theorem Program.ordered_sites (p : Program) :
    Ordered t 0 (p.blocksStart t + (p.blocks.map (Block.width t)).sum) (p.sites t) := by
  have hdecls := Decl.ordered_roots t [] p.decls (p.classes.map ClassDecl.named) p.declsStart
  have hblocks := Block.ordered_rootsFrom t p.blocks (p.blocksStart t)
  rw [sites, roots, List.flatMap_append]
  refine (hdecls.mono (Nat.zero_le _) (Nat.le_refl _)).append (hblocks.flatMap_cons (Nat.le_refl _)
    ?_ (by omega)) (Nat.zero_le _) ?_
  · simp only [Site.stop, blocksStart]
    omega
  · rw [blocksStart]
    omega

end

end Classlet
