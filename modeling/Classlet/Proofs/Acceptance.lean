import Classlet.Proofs.Typing

/-!
What obeys the typing rules is accepted. An expression with a type is found to have it,
whatever has been checked before, and a program that obeys the rules is checked without a
fault. Since one thing only is found, an expression has one type.
-/

namespace Classlet

namespace Check

variable {α β : Type}

/-- A check finds the value, whatever the log is, and adds no fault. -/
def Finds (m : Check α) (a : α) : Prop :=
  ∀ log : TypingLog, ∃ log', m.result log = (.ok a, log') ∧ log'.errors = log.errors

theorem Finds.pure (a : α) : Finds (Pure.pure a : Check α) a := fun log => ⟨log, rfl, rfl⟩

theorem Finds.require {o : Option α} {a : α} (h : o = some a) : Finds (require o) a :=
  h ▸ .pure a

theorem Finds.file (node : NodeId) (t : Ty) : Finds (file node t) t :=
  fun log => ⟨_, result_file node t log, rfl⟩

theorem Finds.bind {m : Check α} {f : α → Check β} {a : α} {b : β} (hm : m.Finds a)
    (hf : (f a).Finds b) : (m >>= f).Finds b := by
  intro log
  obtain ⟨log₁, h₁, he₁⟩ := hm log
  obtain ⟨log₂, h₂, he₂⟩ := hf log₁
  refine ⟨log₂, ?_, he₂.trans he₁⟩
  rw [result_bind, h₁]
  exact h₂

theorem Finds.settle {m : Check Unit} (h : m.Finds ()) (log : TypingLog) :
    ((settle m).run log).2.errors = log.errors := by
  obtain ⟨log', hr, he⟩ := h log
  rw [TypingContext.settle_log, hr]
  exact he

end Check

namespace TypingContext

open Check

variable {c : TypingContext}

theorem fitCount_finds {callee : String} {expected : List Ty} {args : List Expr} {pos : Position}
    (h : expected.length = args.length) : (fitCount callee expected args pos).Finds () := by
  rw [fitCount, if_pos h]
  exact .pure ()

theorem fitArgs_finds {args : List Expr}
    (ih : ∀ e ∈ args, ∀ t, c.HasType e t → (c.typeOf e).Finds t) {expected : List Ty}
    (h : c.Fits args expected) (callee : String) (place : Nat) :
    (c.fitArgs callee place args expected).Finds () := by
  induction args generalizing expected place with
  | nil =>
    cases h
    exact .pure ()
  | cons e es ihs =>
    cases h with
    | cons he hsub hrest =>
      unfold fitArgs
      refine (ih e (by simp) _ he).bind ?_
      rw [if_pos hsub]
      exact ihs (fun a ha => ih a (List.mem_cons_of_mem _ ha)) hrest _

/-- Arguments that fit are accepted, and the type of the call is filed. -/
theorem fit_file_finds {args : List Expr}
    (ih : ∀ e ∈ args, ∀ t, c.HasType e t → (c.typeOf e).Finds t) {expected : List Ty}
    (h : c.Fits args expected) (callee : String) (pos : Position) (id : NodeId) (ret : Ty) :
    Check.Finds (do
      fitCount callee expected args pos
      c.fitArgs callee 1 args expected
      file id ret) ret :=
  (fitCount_finds h.length_eq).bind ((fitArgs_finds ih h callee 1).bind (.file id ret))

theorem typeOf_finds (e : Expr) : ∀ t, c.HasType e t → (c.typeOf e).Finds t := by
  induction e with
  | lit value pos =>
    intro t h
    cases h
    exact .pure _
  | name id x pos =>
    intro t h
    cases h with
    | name hu hk =>
      unfold typeOf
      refine (Finds.require hu).bind ?_
      simp only [hk]
      exact .file id _
  | binary op left right pos ihl ihr =>
    intro t h
    cases h with
    | binary hl hr hop =>
      unfold typeOf
      refine (ihl _ hl).bind ((ihr _ hr).bind ?_)
      rw [hop]
      exact .pure _
  | not operand pos ih =>
    intro t h
    cases h with
    | not ho hsub =>
      unfold typeOf
      refine (ih _ ho).bind ?_
      rw [if_pos hsub]
      exact .pure _
  | cond test yes no pos iht ihy ihn =>
    intro t h
    cases h with
    | cond ht hsub hy hn hjoin =>
      unfold typeOf
      refine (iht _ ht).bind ?_
      rw [if_pos hsub]
      refine (ihy _ hy).bind ((ihn _ hn).bind ?_)
      rw [hjoin]
      exact .pure _
  | print operand pos ih =>
    intro t h
    cases h with
    | print ho =>
      unfold typeOf
      exact ih _ ho
  | call id callee args pos ih =>
    intro t h
    cases h with
    | call hu hsig hargs =>
      unfold typeOf
      refine (Finds.require hu).bind ?_
      simp only [hsig]
      exact fit_file_finds ih hargs _ _ _ _
  | send id receiver method args pos ih =>
    intro t h
    cases h with
    | send hu he hsig hargs =>
      unfold typeOf
      refine (Finds.require hu).bind ((Finds.require he).bind ?_)
      simp only [hsig]
      exact fit_file_finds ih hargs _ _ _ _
  | new id cls args pos ih =>
    intro t h
    cases h with
    | new hu hshape hargs =>
      unfold typeOf
      refine (Finds.require hu).bind ?_
      simp only [hshape]
      exact fit_file_finds ih hargs _ _ _ _

theorem typeBody_finds {ret : WrittenType} {body : Expr} (h : c.BodyTyped ret body)
    (kind : NameKind) (name : String) (pos : Position) :
    (c.typeBody kind name ret body pos).Finds () := by
  obtain ⟨t, hbody, hsub⟩ := h
  unfold typeBody
  refine (typeOf_finds body t hbody).bind ?_
  rw [if_pos hsub]
  exact .pure ()

/-- Declarations that obey the typing rules are checked without a fault. -/
theorem typeDecls_finds :
    (∀ d : Decl, c.DeclTyped d → (c.typeDecl d).Finds ()) ∧
    ∀ ds : List Decl, c.DeclsTyped ds → ∀ log : TypingLog,
      ((c.typeDecls ds).run log).2.errors = log.errors := by
  apply Decl.induction
  · intro id name type init pos h
    obtain ⟨t, hinit, hsub⟩ := h
    unfold typeDecl
    refine (typeOf_finds init t hinit).bind ?_
    rw [if_pos hsub]
    exact .pure ()
  · intro id name params ret decls body pos ih h log
    obtain ⟨log', hr, he⟩ := typeBody_finds h.2 .function name pos ((c.typeDecls decls).run log).2
    exact ⟨log', (typeDecl_fn c id name params ret decls body pos log).trans hr,
      he.trans (ih h.1 log)⟩
  · intro _ log
    rfl
  · intro d ds ihd ihs h log
    rw [typeDecls_cons, ihs h.2, (ihd h.1).settle]

theorem typeMethod_finds {m : MethodDecl} (hdecls : c.DeclsTyped m.decls)
    (hbody : c.BodyTyped m.ret m.body) : (c.typeMethod m).Finds () := by
  intro log
  obtain ⟨log', hr, he⟩ :=
    typeBody_finds hbody .method m.name m.pos ((c.typeDecls m.decls).run log).2
  exact ⟨log', (typeMethod_result c m log).trans hr, he.trans (typeDecls_finds.2 _ hdecls log)⟩

theorem methodsLog_errors {ms : List MethodDecl}
    (h : ∀ m ∈ ms, c.DeclsTyped m.decls ∧ c.BodyTyped m.ret m.body) (log : TypingLog) :
    (ms.foldl c.methodLog log).errors = log.errors := by
  induction ms generalizing log with
  | nil => rfl
  | cons m ms ih =>
    obtain ⟨hdecls, hbody⟩ := h m List.mem_cons_self
    rw [List.foldl_cons, ih (fun k hk => h k (List.mem_cons_of_mem _ hk)), methodLog,
      (typeMethod_finds hdecls hbody).settle]

theorem classesLog_errors {ds : List ClassDecl}
    (hm : ∀ d ∈ ds, ∀ m ∈ d.methods, c.DeclsTyped m.decls ∧ c.BodyTyped m.ret m.body)
    (ho : ∀ d ∈ ds, c.misfits d = []) (log : TypingLog) :
    (ds.foldl c.classLog log).errors = log.errors := by
  induction ds generalizing log with
  | nil => rfl
  | cons d ds ih =>
    rw [List.foldl_cons, ih (fun k hk => hm k (List.mem_cons_of_mem _ hk))
      fun k hk => ho k (List.mem_cons_of_mem _ hk)]
    simp only [classLog, ho d List.mem_cons_self, List.append_nil]
    exact methodsLog_errors (hm d List.mem_cons_self) log

/-- What is found for the body of a program is what the check of the body finds. -/
theorem programType?_eq_some (p : Program) (t : Ty) :
    (c.check p).programType? = some t ↔ c.HasType p.body t := by
  rw [check_eq]
  simp only [typeMain_run]
  constructor
  · intro h
    rcases hr : (c.typeOf p.body).result (c.declsLog p) with ⟨stop | t', log⟩
    · simp [hr] at h
    · simp only [hr, Option.some.injEq] at h
      exact h ▸ (derives_typeOf c p.body _ _ _ hr).1
  · intro h
    obtain ⟨log, hr, -⟩ := typeOf_finds p.body t h (c.declsLog p)
    simp [hr]

/-- A program that obeys the typing rules is checked without a fault. -/
theorem check_clean {p : Program} {t : Ty} (h : c.ProgramTyped p t) : (c.check p).errors = [] := by
  rw [check_eq]
  simp only [typeMain_run]
  obtain ⟨log, hr, he⟩ := typeOf_finds p.body t h.body (c.declsLog p)
  rw [hr]
  calc log.errors
    _ = (c.declsLog p).errors := he
    _ = (p.classes.foldl c.classLog {}).errors := typeDecls_finds.2 _ h.decls _
    _ = [] := classesLog_errors h.methods h.overrides {}

/-- An expression has one type. -/
theorem HasType.unique {e : Expr} {t t' : Ty} (h : c.HasType e t) (h' : c.HasType e t') :
    t = t' := by
  obtain ⟨log, hfound, -⟩ := typeOf_finds e t h {}
  obtain ⟨log', hfound', -⟩ := typeOf_finds e t' h' {}
  rw [hfound] at hfound'
  exact Except.ok.inj (Prod.mk.inj hfound').1

end TypingContext

end Classlet
