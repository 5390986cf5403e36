import Classlet.Proofs.Acceptance
import Classlet.Proofs.StaticChain

/-!
Incomplete expressions. Whatever the tables say, an expression that is found to have a type
has all its nodes bound to entries that there are. A declared type is held against the type
that its expression is found to have, so of an expression with a node that is not bound
nothing of this kind is reported; and what is reported of one declaration does not depend on
the others.
-/

namespace Classlet

/-- The node of an expression is filed with an entry that there is. A method call is filed
with the entry of its method; expressions that name nothing have no node. -/
def Bindings.binds (b : Bindings) : Expr → Bool
  | .name id _ _ | .call id _ _ _ | .new id _ _ _ =>
    b.uses[id]?.any fun u => u.entry < b.entries.size
  | .send id _ _ _ _ => b.sends[id]?.any fun u => u.method < b.entries.size
  | .lit _ _ | .binary _ _ _ _ | .not _ _ | .cond _ _ _ _ | .print _ _ => true

/-- All nodes in an expression are bound. -/
def Expr.complete (b : Bindings) (e : Expr) : Bool := e.parts.all b.binds

/-- An expression that is declared to have a type: the value of a variable, or the body of a
function or method. -/
structure Demand where
  kind : NameKind
  name : String
  type : Ty
  expr : Expr
  pos : Position

mutual

/-- The demands of a declaration, in the order in which they are checked. -/
def Decl.demands : Decl → List Demand
  | .var _ name type init pos => [⟨.variable, name, type.lower, init, pos⟩]
  | .fn _ name _ ret decls body pos =>
    demandsOfAll decls ++ [⟨.function, name, ret.lower, body, pos⟩]
termination_by structural d => d

def Decl.demandsOfAll : List Decl → List Demand
  | [] => []
  | d :: ds => demands d ++ demandsOfAll ds
termination_by structural ds => ds

end

def MethodDecl.demands (m : MethodDecl) : List Demand :=
  Decl.demandsOfAll m.decls ++ [⟨.method, m.name, m.ret.lower, m.body, m.pos⟩]

def Program.demands (p : Program) : List Demand :=
  (p.classes.flatMap fun d => d.methods.flatMap MethodDecl.demands) ++ Decl.demandsOfAll p.decls

/-- The fault of a demand whose expression is found to have another type. -/
def Demand.fault (d : Demand) (found : Ty) : TypingFault :=
  if d.kind = .variable then .initialType d.name d.type found
  else .returnType d.kind d.name d.type found

def TypingLog.unmet (log : TypingLog) : List TypingError :=
  log.errors.filter fun e => e.cause.isUnmet

theorem TypingLog.unmet_add (log : TypingLog) (e : TypingError) :
    unmet { log with errors := log.errors ++ [e] } =
      log.unmet ++ if e.cause.isUnmet then [e] else [] := by
  rw [unmet, List.filter_append, unmet, List.filter_singleton]
  cases e.cause.isUnmet <;> rfl

namespace TypingContext

/-- What is reported of a demand, by itself: its expression has a type, but no subtype of
the type that is declared. -/
def unmet? (c : TypingContext) (d : Demand) : Option TypingError :=
  match ((c.typeOf d.expr).result {}).1 with
  | .ok found =>
    if found.subtypeOf c.ancestry d.type then none else some ⟨d.pos, d.fault found⟩
  | .error _ => none

/-- Checks the expression of a demand against the type. -/
def meet (c : TypingContext) (d : Demand) : Check Unit := do
  let found ← c.typeOf d.expr
  if found.subtypeOf c.ancestry d.type then return
  else Check.fail d.pos (d.fault found)

end TypingContext

theorem Demand.isUnmet_fault (d : Demand) (found : Ty) : (d.fault found).isUnmet = true := by
  unfold fault
  split <;> rfl

/-! The check of an expression reads nothing from the log. -/

namespace Check

variable {α β : Type}

/-- A check that comes out the same whatever the log is, and adds no fault to it. If it
stops at a fault, this is not the fault of a demand. -/
structure Steady (m : Check α) : Prop where
  outcome : ∀ log, (m.result log).1 = (m.result {}).1
  errors : ∀ log, (m.result log).2.errors = log.errors
  stops : ∀ e, (m.result {}).1 = .error (.fault e) → e.cause.isUnmet = false

theorem Steady.unmet {m : Check α} (h : m.Steady) (log : TypingLog) :
    (m.result log).2.unmet = log.unmet := by
  rw [TypingLog.unmet, h.errors, TypingLog.unmet]

theorem Steady.pure (a : α) : Steady (Pure.pure a : Check α) :=
  ⟨fun _ => rfl, fun _ => rfl, fun _ h => by cases h⟩

theorem Steady.fail {pos : Position} {cause : TypingFault} (h : cause.isUnmet = false) :
    Steady (fail pos cause : Check α) := by
  refine ⟨fun _ => rfl, fun _ => rfl, fun e he => ?_⟩
  cases he
  exact h

theorem Steady.require (o : Option α) : Steady (require o) := by
  cases o with
  | none => exact ⟨fun _ => rfl, fun _ => rfl, fun _ h => by cases h⟩
  | some a => exact .pure a

theorem Steady.file (node : NodeId) (t : Ty) : Steady (file node t) :=
  ⟨fun _ => rfl, fun _ => rfl, fun _ h => by cases h⟩

theorem Steady.bind {m : Check α} {f : α → Check β} (hm : m.Steady) (hf : ∀ a, (f a).Steady) :
    (m >>= f).Steady := by
  -- Both runs of the first check come out the same, so they go on with the same check.
  have hrun : ∀ log, ∃ log₁, log₁.errors = log.errors ∧ (m >>= f).result log =
      match (m.result {}).1 with
      | .ok a => (f a).result log₁
      | .error s => (.error s, log₁) := by
    intro log
    have hout := hm.outcome log
    have herr := hm.errors log
    rw [result_bind]
    rcases hr : m.result log with ⟨s | a, log₁⟩
    · rw [hr] at hout herr
      exact ⟨log₁, herr, by rw [← hout]⟩
    · rw [hr] at hout herr
      exact ⟨log₁, herr, by rw [← hout]⟩
  obtain ⟨log₀, -, hrun₀⟩ := hrun {}
  cases hout : (m.result {}).1 with
  | error s =>
    simp only [hout] at hrun hrun₀
    refine ⟨fun log => ?_, fun log => ?_, fun e he => ?_⟩
    · obtain ⟨log₁, -, h⟩ := hrun log
      rw [h, hrun₀]
    · obtain ⟨log₁, herr, h⟩ := hrun log
      rw [h]
      exact herr
    · rw [hrun₀] at he
      cases he
      exact hm.stops e hout
  | ok a =>
    simp only [hout] at hrun hrun₀
    refine ⟨fun log => ?_, fun log => ?_, fun e he => ?_⟩
    · obtain ⟨log₁, -, h⟩ := hrun log
      rw [h, hrun₀, (hf a).outcome log₁, (hf a).outcome log₀]
    · obtain ⟨log₁, herr, h⟩ := hrun log
      rw [h, (hf a).errors, herr]
    · rw [hrun₀, (hf a).outcome] at he
      exact (hf a).stops e he

theorem Steady.closed : Closed @Steady where
  pure := .pure
  fail := fun _ _ => .fail
  file := .file
  bind := .bind

end Check

namespace TypingContext

open Check

variable {c : TypingContext}

theorem steady_typeOf (e : Expr) : (c.typeOf e).Steady :=
  typeOf_closed Steady.closed (fun _ _ => looks_of_require Steady.require) .true trivial

/-! Demands are checked one after the other. -/

/-- What settling a check leaves depends on what the check finds and leaves. -/
theorem settle_congr {m m' : Check Unit} {log log' : TypingLog}
    (h : m.result log = m'.result log') :
    ((settle m).run log).2 = ((settle m').run log').2 := by
  rw [settle_log, settle_log, h]

theorem typeDecl_var (id : NodeId) (name : String) (type : WrittenType) (init : Expr)
    (pos : Position) :
    c.typeDecl (.var id name type init pos) = c.meet ⟨.variable, name, type.lower, init, pos⟩ := rfl

theorem typeBody_function (name : String) (ret : WrittenType) (body : Expr) (pos : Position) :
    c.typeBody .function name ret body pos = c.meet ⟨.function, name, ret.lower, body, pos⟩ := rfl

theorem typeBody_method (name : String) (ret : WrittenType) (body : Expr) (pos : Position) :
    c.typeBody .method name ret body pos = c.meet ⟨.method, name, ret.lower, body, pos⟩ := rfl

/-- A demand that is not met adds its fault, and no other demand has a part in it. -/
theorem unmet_meet (d : Demand) (log : TypingLog) :
    ((settle (c.meet d)).run log).2.unmet = log.unmet ++ [d].filterMap c.unmet? := by
  have hs : (c.typeOf d.expr).Steady := steady_typeOf d.expr
  have hunmet := hs.unmet log
  have hout := hs.outcome log
  rw [List.filterMap_eq_flatMap_toList, List.flatMap_singleton, settle_log, meet, result_bind,
    unmet?, ← hout]
  rcases hr : (c.typeOf d.expr).result log with ⟨stop | found, log'⟩ <;> rw [hr] at hunmet hout
  · cases stop with
    | incomplete => exact hunmet.trans (List.append_nil _).symm
    | fault e =>
      have he := hs.stops e hout.symm
      simp only [TypingLog.unmet_add, he]
      exact congrArg (· ++ []) hunmet
  · by_cases hsub : found.subtypeOf c.ancestry d.type
    · simp only [hsub, if_true]
      exact hunmet.trans (List.append_nil _).symm
    · simp only [hsub, if_false, Bool.false_eq_true]
      have hlast : (fail d.pos (d.fault found) : Check Unit).result log' =
          (.error (.fault ⟨d.pos, d.fault found⟩), log') := rfl
      simp only [hlast, TypingLog.unmet_add, Demand.isUnmet_fault, if_true]
      exact congrArg (· ++ [_]) hunmet

theorem unmet_typeDecls :
    (∀ (d : Decl) (log : TypingLog), ((settle (c.typeDecl d)).run log).2.unmet =
      log.unmet ++ d.demands.filterMap c.unmet?) ∧
    ∀ (ds : List Decl) (log : TypingLog), ((c.typeDecls ds).run log).2.unmet =
      log.unmet ++ (Decl.demandsOfAll ds).filterMap c.unmet? := by
  apply Decl.induction
  · intro id name type init pos log
    rw [typeDecl_var, unmet_meet, Decl.demands]
  · intro id name params ret decls body pos ih log
    rw [settle_congr (typeDecl_fn c id name params ret decls body pos log), typeBody_function,
      unmet_meet, ih, Decl.demands, List.filterMap_append, List.append_assoc]
  · intro log
    exact (List.append_nil _).symm
  · intro d ds ihd ihs log
    rw [typeDecls_cons, ihs, ihd, Decl.demandsOfAll, List.filterMap_append, List.append_assoc]

theorem unmet_methods (ms : List MethodDecl) (log : TypingLog) :
    (ms.foldl c.methodLog log).unmet =
      log.unmet ++ (ms.flatMap MethodDecl.demands).filterMap c.unmet? := by
  induction ms generalizing log with
  | nil => exact (List.append_nil _).symm
  | cons m ms ih =>
    rw [List.foldl_cons, ih, methodLog, settle_congr (typeMethod_result c m log), typeBody_method,
      unmet_meet, unmet_typeDecls.2, List.flatMap_cons, MethodDecl.demands]
    simp only [List.filterMap_append, List.append_assoc]

theorem isUnmet_misfits (d : ClassDecl) : ∀ e ∈ c.misfits d, e.cause.isUnmet = false := by
  intro e he
  unfold misfits at he
  split at he
  · cases he
  · rcases List.mem_append.mp he with he | he
    · obtain ⟨f, -, hf⟩ := List.mem_filterMap.mp he
      simp only [fieldOverride?, Option.bind_eq_bind, Option.bind_eq_some_iff] at hf
      obtain ⟨_, _, _, _, _, _, _, _, hf⟩ := hf
      split at hf
      · cases hf
      · cases hf
        rfl
    · obtain ⟨m, -, hm⟩ := List.mem_filterMap.mp he
      simp only [methodOverride?, Option.bind_eq_bind, Option.bind_eq_some_iff] at hm
      obtain ⟨_, _, _, _, _, _, hm⟩ := hm
      split at hm
      · cases hm
      · cases hm
        rfl

theorem unmet_classes (ds : List ClassDecl) (log : TypingLog) :
    (ds.foldl c.classLog log).unmet =
      log.unmet ++
        (ds.flatMap fun d => d.methods.flatMap MethodDecl.demands).filterMap c.unmet? := by
  induction ds generalizing log with
  | nil => exact (List.append_nil _).symm
  | cons d ds ih =>
    have hmisfits : (c.misfits d).filter (fun e => e.cause.isUnmet) = [] := by
      rw [List.filter_eq_nil_iff]
      intro e he
      simp [isUnmet_misfits d e he]
    have hone : (c.classLog log d).unmet =
        log.unmet ++ (d.methods.flatMap MethodDecl.demands).filterMap c.unmet? := by
      rw [← unmet_methods, TypingLog.unmet, classLog, List.filter_append, hmisfits, List.append_nil]
      rfl
    rw [List.foldl_cons, ih, hone, List.flatMap_cons, List.filterMap_append, List.append_assoc]

/-- The faults that are reported of the demands of a program are those of each demand by
itself, in the order of the demands. -/
theorem check_unmet (p : Program) :
    (c.check p).errors.filter (fun e => e.cause.isUnmet) = p.demands.filterMap c.unmet? := by
  have hs : (c.typeOf p.body).Steady := steady_typeOf p.body
  have hdecls : (c.declsLog p).unmet = p.demands.filterMap c.unmet? := by
    rw [declsLog, unmet_typeDecls.2, unmet_classes, Program.demands, List.filterMap_append]
    rfl
  have hunmet := (hs.unmet (c.declsLog p)).trans hdecls
  have hout := hs.outcome (c.declsLog p)
  rw [check_eq]
  simp only [typeMain_run]
  rcases hr : (c.typeOf p.body).result (c.declsLog p) with ⟨stop | t, log⟩ <;>
    rw [hr] at hunmet hout
  · have hlast : (throw stop : Check Unit).result log = (.error stop, log) := rfl
    change TypingLog.unmet ((settle (throw stop)).run log).2 = _
    rw [settle_log, hlast]
    cases stop with
    | incomplete => exact hunmet
    | fault e =>
      have he := hs.stops e hout.symm
      simp only [TypingLog.unmet_add, he]
      exact (List.append_nil _).trans hunmet
  · exact hunmet

/-! What has a type is bound throughout. -/

theorem HasType.binds {e : Expr} {t : Ty} (h : c.HasType e t) : c.bindings.binds e = true := by
  have hrange : ∀ {i : EntryId} {entry : Entry}, c.bindings.entry? i = some entry →
      i < c.bindings.entries.size := fun he => (Array.getElem?_eq_some_iff.mp he).1
  cases h with
  | lit | binary | not | cond | print => rfl
  | name hu | call hu | new hu =>
    obtain ⟨hu, he⟩ := (Bindings.used?_eq_some _ _ _ _).mp hu
    simp [Bindings.binds, hu, hrange he]
  | send hu he => simp [Bindings.binds, hu, hrange he]

/-- An expression that has a type is complete. -/
theorem HasType.complete {e : Expr} {t : Ty} (h : c.HasType e t) :
    e.complete c.bindings = true := by
  rw [Expr.complete, List.all_eq_true]
  intro x hx
  obtain ⟨s, hs⟩ := h.part x hx
  exact hs.binds

theorem complete_of_unmet? {d : Demand} {e : TypingError} (h : c.unmet? d = some e) :
    d.expr.complete c.bindings = true := by
  unfold unmet? at h
  split at h
  · rename_i found hfound
    exact (derives_typeOf c d.expr {} found _ (Prod.ext hfound rfl)).1.complete
  · cases h

/-- Whatever the tables say, an expression for which a type is found has all its nodes bound
to entries that there are, and a type is filed for each of them. So of all variables,
functions and methods with a declared type, faults are reported only where the value or body
is bound throughout, and these are the faults of each by itself; and a program whose body is
not bound throughout has no type. -/
theorem incomplete_unreported (c : TypingContext) (p : Program) :
    (∀ (e : Expr) (t : Ty) (log log' : TypingLog), (c.typeOf e).result log = (.ok t, log') →
      ∀ x ∈ e.parts, c.bindings.binds x = true ∧
        ∀ id, x.id? = some id → ∃ s, log'.types[id]? = some s) ∧
    (c.check p).errors.filter (fun e => e.cause.isUnmet) =
      (p.demands.filter fun d => d.expr.complete c.bindings).filterMap c.unmet? ∧
    (p.body.complete c.bindings = false → (c.check p).programType? = none) := by
  refine ⟨?_, ?_, ?_⟩
  · intro e t log log' h x hx
    obtain ⟨htype, hcovers⟩ := derives_typeOf c e log t log' h
    refine ⟨List.all_eq_true.mp htype.complete x hx, fun id hid => ?_⟩
    exact ⟨_, Std.TreeMap.getElem?_eq_some_getElem (hcovers x hx id hid)⟩
  · rw [check_unmet, List.filterMap_filter]
    refine List.filterMap_congr fun d _ => ?_
    split
    · rfl
    · rename_i hd
      cases hu : c.unmet? d with
      | none => rfl
      | some e => exact absurd (complete_of_unmet? hu) hd
  · intro hbody
    cases ht : (c.check p).programType? with
    | none => rfl
    | some t =>
      rw [((programType?_eq_some p t).mp ht).complete] at hbody
      cases hbody

end TypingContext

/-- A program in which a name without a declaration stands in the value of a variable, in
the body of a function and in the body of the program. -/
def ghostProgram : Program :=
  let pos := Position.ofLine 1
  let one : Expr := .lit (.int 1) pos
  { classes := []
    decls := [
      .var 0 "x" (.bool pos) (.binary .add (.name 1 "ghost" pos) one pos) pos,
      .var 2 "y" (.bool pos) one pos,
      .fn 3 "f" [] (.bool pos) [] (.cond (.lit (.bool true) pos) one (.name 4 "ghost" pos) pos) pos]
    body := .binary .equal (.call 5 "f" [] pos) (.name 6 "ghost" pos) pos
    pos }

/-- Only the fault of the variable whose value is bound throughout is reported, and the
program has no type, though a type is found for the call in its body. -/
theorem ghostProgram_unreported :
    (ghostProgram.demands.map fun d => (d.name, d.expr.complete ghostProgram.resolve.bindings)) =
      [("x", false), ("y", true), ("f", false)] ∧
    (ghostProgram.typingContext.check ghostProgram).errors.filter (fun e => e.cause.isUnmet) =
      [⟨.ofLine 1, .initialType "y" .bool .int⟩] ∧
    (ghostProgram.typingContext.check ghostProgram).programType? = none ∧
    ghostProgram.resolve.bindings.binds (.call 5 "f" [] (.ofLine 1)) = true := by
  obtain ⟨hbound, hreported, htype⟩ := ghostProgram.typingContext.incomplete_unreported ghostProgram
  have hcall : ((ghostProgram.typingContext.typeOf (.call 5 "f" [] (.ofLine 1))).result {}).1 =
      .ok .bool := by
    rfl
  refine ⟨by decide +kernel, hreported.trans (by decide +kernel), htype (by decide +kernel), ?_⟩
  exact (hbound _ .bool {} _ (Prod.ext hcall rfl) _ List.mem_cons_self).1

end Classlet
