import Classlet.Proofs.Evaluation
import Classlet.Proofs.Tree

/-!
The depth of calls that is allowed does not matter to an evaluation that ends for
another reason. Hence a program has one value, or one reason to have none, or there
is no depth that its calls keep to.
-/

namespace Classlet

/-- The second evaluation is as the first, unless calls in the first nest too
deeply. -/
def Eval.Upto {α : Type} (m m' : Eval α) : Prop :=
  ∀ st, m.run st = .error .depth ∨ m'.run st = m.run st

namespace Eval.Upto

variable {α β : Type}

theorem refl (m : Eval α) : Upto m m := fun _ => Or.inr rfl

theorem bind {m m' : Eval α} {f f' : α → Eval β} (hm : Upto m m') (hf : ∀ a, Upto (f a) (f' a)) :
    Upto (m >>= f) (m' >>= f') := by
  intro st
  simp only [StateT.run_bind]
  rcases hm st with hdepth | hsame
  · rw [hdepth]
    exact Or.inl rfl
  · rw [hsame]
    rcases m.run st with e | ⟨a, st'⟩
    · exact Or.inr rfl
    · exact hf a st'

end Eval.Upto

open Eval (Upto)

section

variable {classes : List ClassDecl} {call call' : Closure → List Value → Eval Value}
  (h : ∀ f args, Upto (call f args) (call' f args))

include h

theorem upto_dispatch (self : ObjectId) (x : String) (args : List Value) :
    Upto (dispatch classes call self x args) (dispatch classes call' self x args) :=
  .bind (.refl _) fun _ => .bind (.refl _) fun _ => .bind (.refl _) fun _ => .bind (.refl _)
    fun _ => h _ _

theorem upto_callName (env : Env) (f : String) (args : List Value) :
    Upto (callName classes call env f args) (callName classes call' env f args) := by
  unfold callName
  split
  · exact h _ _
  · exact upto_dispatch h _ _ _
  · exact .refl _

theorem upto_sendTo (env : Env) (x method : String) (args : List Value) :
    Upto (sendTo classes call env x method args) (sendTo classes call' env x method args) := by
  unfold sendTo
  split
  · exact upto_dispatch h _ _ _
  · exact .refl _
  · exact .refl _

omit h in
theorem upto_operate {op : BinOp} {l l' r r' : Eval Value} (hl : Upto l l') (hr : Upto r r') :
    Upto (Eval.operate op l r) (Eval.operate op l' r') := by
  unfold Eval.operate
  split
  · exact .bind hr fun _ => .bind hl fun _ => .refl _
  · exact .bind hl fun _ => .bind hr fun _ => .refl _

omit h in
theorem upto_args {args : List Expr} {env : Env}
    (ih : ∀ e ∈ args, Upto (e.eval classes call env) (e.eval classes call' env)) :
    Upto (Expr.evalArgs classes call env args) (Expr.evalArgs classes call' env args) ∧
      Upto (Expr.evalArgsBackwards classes call env args)
        (Expr.evalArgsBackwards classes call' env args) := by
  induction args with
  | nil => exact ⟨.refl _, .refl _⟩
  | cons e es ihes =>
    have he := ih e List.mem_cons_self
    obtain ⟨hforth, hback⟩ := ihes fun a ha => ih a (List.mem_cons_of_mem _ ha)
    unfold Expr.evalArgs Expr.evalArgsBackwards
    exact ⟨.bind he fun _ => .bind hforth fun _ => .refl _,
      .bind hback fun _ => .bind he fun _ => .refl _⟩

theorem upto_eval (env : Env) (e : Expr) :
    Upto (e.eval classes call env) (e.eval classes call' env) := by
  induction e with
  | lit value pos | name id x pos => unfold Expr.eval; exact .refl _
  | binary op left right pos ihl ihr => unfold Expr.eval; exact upto_operate ihl ihr
  | not operand pos ih | print operand pos ih => unfold Expr.eval; exact .bind ih fun _ => .refl _
  | cond test yes no pos iht ihy ihn =>
    unfold Expr.eval
    refine .bind iht fun _ => .bind (.refl _) fun b => ?_
    cases b
    · exact ihn
    · exact ihy
  | call id callee args pos ih =>
    unfold Expr.eval
    exact .bind (upto_args ih).2 fun _ => upto_callName h env callee _
  | send id receiver method args pos ih =>
    unfold Expr.eval
    exact .bind (upto_args ih).2 fun _ => upto_sendTo h env receiver method _
  | new id cls args pos ih =>
    unfold Expr.eval
    exact .bind (upto_args ih).1 fun _ => .refl _

theorem upto_evalAll (ds : List Decl) (env : Env) :
    Upto (Decl.evalAll classes call ds env) (Decl.evalAll classes call' ds env) := by
  induction ds generalizing env with
  | nil => exact .refl _
  | cons d ds ih =>
    cases d with
    | var id x type init pos =>
      unfold Decl.evalAll
      exact .bind (upto_eval h env init) fun _ => ih _
    | fn id f params ret decls body pos =>
      unfold Decl.evalAll
      exact ih _

theorem upto_enter (f : Closure) (args : List Value) :
    Upto (f.enter classes call args) (f.enter classes call' args) := by
  unfold Closure.enter
  split
  · exact .bind (upto_evalAll h _ _) fun _ => upto_eval h _ _
  · exact .refl _

end

theorem upto_invoke (classes : List ClassDecl) (depth : Nat) (f : Closure) (args : List Value) :
    Upto (invoke classes depth f args) (invoke classes (depth + 1) f args) := by
  induction depth generalizing f args with
  | zero => exact fun _ => Or.inl rfl
  | succ depth ih => exact upto_enter ih f args

namespace Program

variable {p : Program} {depth depth' : Nat} {r r' : Except Abort (Value × Store)}

/-- The evaluation of a program ends, at some depth of calls. -/
def Ends (p : Program) (r : Except Abort (Value × Store)) : Prop :=
  r ≠ .error .depth ∧ ∃ depth, p.eval depth = r

theorem eval_succ (h : p.eval depth = r) (hr : r ≠ .error .depth) : p.eval (depth + 1) = r := by
  have hcall := upto_invoke p.classes.reverse depth
  have hdecls : ∀ env, Upto (Decl.evalAll p.classes.reverse _ p.decls env) _ :=
    upto_evalAll hcall p.decls
  have hbody : ∀ env, Upto (p.body.eval p.classes.reverse _ env) _ :=
    fun env => upto_eval hcall env p.body
  rcases Upto.bind (hdecls [classFrame p.classes.reverse]) hbody {} with hdepth | hsame
  · exact absurd (h.symm.trans hdepth) hr
  · exact hsame.trans h

/-- An evaluation that ends at some depth ends in the same way at every greater
depth. -/
theorem eval_mono (h : p.eval depth = r) (hr : r ≠ .error .depth) (hle : depth ≤ depth') :
    p.eval depth' = r := by
  induction hle with
  | refl => exact h
  | step _ ih => exact eval_succ ih hr

/-- An evaluation ends in one way at most. -/
theorem Ends.unique (h : p.Ends r) (h' : p.Ends r') : r = r' := by
  obtain ⟨hr, depth, hd⟩ := h
  obtain ⟨hr', depth', hd'⟩ := h'
  rw [← eval_mono hd hr (Nat.le_max_left depth depth'),
    eval_mono hd' hr' (Nat.le_max_right depth depth')]

end Program

end Classlet
