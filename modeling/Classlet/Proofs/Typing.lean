import Classlet.Proofs.Resolved
import Classlet.Typing.Check

/-!
What the check of types establishes. The typing rules are stated as a relation
over the entries that the nodes are bound to. A check that succeeds derives the
type of the expression and files a type for each of its nodes; it never stops for
want of a binding in a program whose names are all bound. So a program without a
fault is well typed throughout. What each step of a check does, such as only adding
to the log, the check of an expression does; this is proved once for all such
properties.
-/

namespace Classlet

namespace TypingContext

mutual

/-- An expression has a type. -/
inductive HasType (c : TypingContext) : Expr → Ty → Prop
  | lit {value : Literal} {pos : Position} : HasType c (.lit value pos) value.type
  | name {id : NodeId} {x : String} {pos : Position} {u : Use} {e : Entry} :
    c.bindings.used? id = some (u, e) → e.type.nameKind? = none → HasType c (.name id x pos) e.type
  | binary {op : BinOp} {left right : Expr} {pos : Position} {l r t : Ty} :
    HasType c left l → HasType c right r → op.resultType c.ancestry l r = .ok t →
    HasType c (.binary op left right pos) t
  | not {operand : Expr} {pos : Position} {t : Ty} :
    HasType c operand t → t.subtypeOf c.ancestry .bool → HasType c (.not operand pos) .bool
  | cond {test yes no : Expr} {pos : Position} {s y n t : Ty} :
    HasType c test s → s.subtypeOf c.ancestry .bool → HasType c yes y → HasType c no n →
    y.join? c.ancestry n = some t → HasType c (.cond test yes no pos) t
  | print {operand : Expr} {pos : Position} {t : Ty} :
    HasType c operand t → HasType c (.print operand pos) t
  | call {id : NodeId} {callee : String} {args : List Expr} {pos : Position} {u : Use} {e : Entry}
      {sig : Signature Ty} :
    c.bindings.used? id = some (u, e) → e.type.signature? = some sig → Fits c args sig.params →
    HasType c (.call id callee args pos) sig.ret
  | send {id : NodeId} {receiver method : String} {args : List Expr} {pos : Position}
      {u : SendUse} {e : Entry} {sig : Signature Ty} :
    c.bindings.sends[id]? = some u → c.bindings.entry? u.method = some e →
    e.type.signature? = some sig → Fits c args sig.params →
    HasType c (.send id receiver method args pos) sig.ret
  | new {id : NodeId} {cls : String} {args : List Expr} {pos : Position} {u : Use} {e : Entry}
      {shape : ClassShape} :
    c.bindings.used? id = some (u, e) → e.type.shape? = some shape → Fits c args shape.fields →
    HasType c (.new id cls args pos) (.ref cls)

/-- Arguments, one for each type, have subtypes of the types. -/
inductive Fits (c : TypingContext) : List Expr → List Ty → Prop
  | nil : Fits c [] []
  | cons {e : Expr} {es : List Expr} {t a : Ty} {as : List Ty} :
    HasType c e t → t.subtypeOf c.ancestry a → Fits c es as → Fits c (e :: es) (a :: as)

end

theorem Fits.length_eq {c : TypingContext} {args : List Expr} {ss : List Ty} (h : c.Fits args ss) :
    ss.length = args.length := by
  induction args generalizing ss with
  | nil => cases h; rfl
  | cons e es ih =>
    cases h with
    | cons _ _ hrest => rw [List.length_cons, List.length_cons, ih hrest]

/-- A body has a subtype of the result type. -/
def BodyTyped (c : TypingContext) (ret : WrittenType) (body : Expr) : Prop :=
  ∃ t, c.HasType body t ∧ t.subtypeOf c.ancestry ret.lower

mutual

/-- A declaration obeys the typing rules. -/
def DeclTyped (c : TypingContext) : Decl → Prop
  | .var _ _ type init _ => ∃ t, c.HasType init t ∧ t.subtypeOf c.ancestry type.lower
  | .fn _ _ _ ret decls body _ => DeclsTyped c decls ∧ c.BodyTyped ret body
termination_by structural d => d

def DeclsTyped (c : TypingContext) : List Decl → Prop
  | [] => True
  | d :: ds => DeclTyped c d ∧ DeclsTyped c ds
termination_by structural ds => ds

end

/-- A program obeys the typing rules, and its body has the given type. -/
structure ProgramTyped (c : TypingContext) (p : Program) (t : Ty) : Prop where
  methods : ∀ d ∈ p.classes, ∀ m ∈ d.methods, c.DeclsTyped m.decls ∧ c.BodyTyped m.ret m.body
  overrides : ∀ d ∈ p.classes, c.misfits d = []
  decls : c.DeclsTyped p.decls
  body : c.HasType p.body t

end TypingContext

/-- The faults that are reported of a declared type, not of an expression by itself. -/
def TypingFault.isUnmet : TypingFault → Bool
  | .initialType _ _ _ | .returnType _ _ _ _ => true
  | _ => false

theorem BinOp.isUnmet_resultType {h : Ancestry} {op : BinOp} {l r : Ty} {cause : TypingFault}
    (hop : op.resultType h l r = .error cause) : cause.isUnmet = false := by
  unfold resultType at hop
  split at hop
  · split at hop
    · cases hop
    · cases hop
      rfl
  · split at hop
    · cases hop
      rfl
    · split at hop
      · cases hop
      · cases hop
        rfl

/-- Nothing is taken back from a log. -/
structure TypingLog.Extends (log log' : TypingLog) : Prop where
  errors : log.errors <+: log'.errors
  types : ∀ n, n ∈ log.types → n ∈ log'.types

/-- Every node of the expressions has a type in the log. -/
def TypingLog.Covers (log : TypingLog) (es : List Expr) : Prop :=
  ∀ e ∈ es, ∀ id, e.id? = some id → id ∈ log.types

namespace TypingLog

variable {log log' log'' : TypingLog}

theorem Extends.refl (log : TypingLog) : log.Extends log := ⟨List.prefix_refl _, fun _ h => h⟩

theorem Extends.trans (h : log.Extends log') (h' : log'.Extends log'') : log.Extends log'' :=
  ⟨h.errors.trans h'.errors, fun n hn => h'.types n (h.types n hn)⟩

theorem Extends.clean (h : log.Extends log') (he : log'.errors = []) : log.errors = [] :=
  List.prefix_nil.mp (he ▸ h.errors)

theorem Covers.extends {es : List Expr} (h : log.Covers es) (hx : log.Extends log') :
    log'.Covers es := fun e he id hid => hx.types id (h e he id hid)

theorem covers_nil (log : TypingLog) : log.Covers [] := fun _ h => by cases h

theorem covers_append {es es' : List Expr} :
    log.Covers (es ++ es') ↔ log.Covers es ∧ log.Covers es' := by
  simp only [Covers, List.mem_append]
  grind

theorem covers_cons {e : Expr} {es : List Expr} :
    log.Covers (e :: es) ↔ (∀ id, e.id? = some id → id ∈ log.types) ∧ log.Covers es := by
  simp only [Covers, List.mem_cons]
  grind

end TypingLog

namespace Check

variable {α β : Type}

/-- What a check finds and the log that it leaves. -/
def result (m : Check α) (log : TypingLog) : Except Stop α × TypingLog := m.run log

theorem result_bind (m : Check α) (f : α → Check β) (log : TypingLog) :
    (m >>= f).result log = match m.result log with
      | (.ok a, log') => (f a).result log'
      | (.error s, log') => (.error s, log') := by
  change (ExceptT.bind m f).run log = _
  simp only [result, ExceptT.run, ExceptT.bind, ExceptT.mk]
  change (match m log with | (a, s) => ExceptT.bindCont f a s) = _
  rcases m log with ⟨a | a, log'⟩ <;> rfl

theorem result_bind_ok {m : Check α} {f : α → Check β} {log log'' : TypingLog} {b : β}
    (h : (m >>= f).result log = (.ok b, log'')) :
    ∃ a log', m.result log = (.ok a, log') ∧ (f a).result log' = (.ok b, log'') := by
  rw [result_bind] at h
  rcases hm : m.result log with ⟨s | a, log'⟩
  · rw [hm] at h
    cases h
  · rw [hm] at h
    exact ⟨a, log', rfl, h⟩

/-- A property of checks that is kept when they are put together, and that ends of checks
have. Of the faults, those that an expression can have are meant. -/
structure Closed (P : ∀ {α : Type}, Check α → Prop) : Prop where
  pure : ∀ {α : Type} (a : α), P (Pure.pure a : Check α)
  fail : ∀ {α : Type} (pos : Position) {cause : TypingFault}, cause.isUnmet = false →
    P (Check.fail pos cause : Check α)
  file : ∀ (node : NodeId) (t : Ty), P (Check.file node t)
  bind : ∀ {α β : Type} {m : Check α} {f : α → Check β}, P m → (∀ a, P (f a)) → P (m >>= f)

/-- After a look-up, a check goes on with what was looked up only. -/
theorem Closed.seek {P : ∀ {α : Type}, Check α → Prop} (hP : Closed @P) {o : Option α}
    {f : α → Check β} (ho : P (require o)) (hf : ∀ a, o = some a → P (f a)) :
    P (require o >>= f) := by
  cases o with
  | some a => exact hf a rfl
  | none =>
    -- The check stops here, whatever would come next.
    exact hP.bind (f := fun _ => Check.fail ⟨0, 0⟩ (.notCallable "")) ho fun _ => hP.fail _ rfl

/-- A check only adds to the log. -/
def Extends (m : Check α) : Prop := ∀ log : TypingLog, log.Extends (m.result log).2

/-- A check does not stop for want of a binding. -/
def Complete (m : Check α) : Prop := ∀ log : TypingLog, (m.result log).1 ≠ .error .incomplete

theorem Extends.pure (a : α) : Extends (Pure.pure a : Check α) := fun log => .refl log

theorem Extends.fail (pos : Position) (cause : TypingFault) : Extends (fail pos cause : Check α) :=
  fun log => .refl log

theorem Extends.require (o : Option α) : Extends (require o) := by
  cases o with
  | none => exact fun log => .refl log
  | some a => exact .pure a

theorem Extends.file (node : NodeId) (t : Ty) : Extends (file node t) := by
  intro log
  refine ⟨List.prefix_refl _, fun n hn => ?_⟩
  change n ∈ log.types.insert node t
  exact Std.TreeMap.mem_insert.mpr (Or.inr hn)

theorem Extends.bind {m : Check α} {f : α → Check β} (hm : m.Extends) (hf : ∀ a, (f a).Extends) :
    (m >>= f).Extends := by
  intro log
  have h := hm log
  rw [result_bind]
  rcases hr : m.result log with ⟨s | a, log'⟩
  · rw [hr] at h
    exact h
  · rw [hr] at h
    exact h.trans (hf a log')

theorem Extends.closed : Closed @Extends where
  pure := .pure
  fail := fun pos cause _ => .fail pos cause
  file := .file
  bind := .bind

theorem Extends.ok {m : Check α} (h : m.Extends) {log log' : TypingLog} {a : α}
    (hr : m.result log = (.ok a, log')) : log.Extends log' := by
  have := h log
  rwa [hr] at this

theorem Complete.pure (a : α) : Complete (Pure.pure a : Check α) := fun log h => by cases h

theorem Complete.fail (pos : Position) (cause : TypingFault) :
    Complete (fail pos cause : Check α) := fun log h => by cases h

theorem Complete.require {o : Option α} {a : α} (h : o = some a) : Complete (require o) :=
  h ▸ .pure a

theorem Complete.file (node : NodeId) (t : Ty) : Complete (file node t) := fun log h => by cases h

theorem Complete.bind {m : Check α} {f : α → Check β} (hm : m.Complete)
    (hf : ∀ a, (f a).Complete) : (m >>= f).Complete := by
  intro log h
  rw [result_bind] at h
  have hc := hm log
  rcases hr : m.result log with ⟨s | a, log'⟩
  · rw [hr] at h hc
    cases h
    exact hc rfl
  · rw [hr] at h
    exact hf a log' h

theorem Complete.closed : Closed @Complete where
  pure := .pure
  fail := fun pos cause _ => .fail pos cause
  file := .file
  bind := .bind

theorem result_file (node : NodeId) (t : Ty) (log : TypingLog) :
    (file node t).result log = (.ok t, { log with types := log.types.insert node t }) := rfl

theorem result_require_ok {o : Option α} {a : α} {log log' : TypingLog}
    (h : (require o).result log = (.ok a, log')) : o = some a ∧ log' = log := by
  cases o with
  | none => cases h
  | some b =>
    cases h
    exact ⟨rfl, rfl⟩

/-- A look-up that a check went on from has found something, and filed nothing. -/
theorem result_seek_ok {o : Option α} {f : α → Check β} {log log' : TypingLog} {b : β}
    (h : (require o >>= f).result log = (.ok b, log')) :
    ∃ a, o = some a ∧ (f a).result log = (.ok b, log') := by
  obtain ⟨a, log₁, hrequire, hrest⟩ := result_bind_ok h
  obtain ⟨ha, rfl⟩ := result_require_ok hrequire
  exact ⟨a, ha, hrest⟩

theorem result_fail_ok {pos : Position} {cause : TypingFault} {a : α} {log log' : TypingLog}
    (h : (fail pos cause : Check α).result log = (.ok a, log')) : False := by
  cases h

end Check

namespace TypingContext

open Check

/-! What all steps of a check do, the check of an expression does. -/

section

variable {P : ∀ {α : Type}, Check α → Prop}

/-- The look-ups for a node have the property. -/
def Looks (P : ∀ {α : Type}, Check α → Prop) (c : TypingContext) : Expr → Prop
  | .name id _ _ | .call id _ _ _ | .new id _ _ _ => P (require (c.bindings.used? id))
  | .send id _ _ _ _ => P (require c.bindings.sends[id]?) ∧
      ∀ u, c.bindings.sends[id]? = some u → P (require (c.bindings.entry? u.method))
  | .lit _ _ | .binary _ _ _ _ | .not _ _ | .cond _ _ _ _ | .print _ _ => True

theorem looks_of_require {c : TypingContext} (h : ∀ {α : Type} (o : Option α), P (require o))
    {e : Expr} : Looks @P c e := by
  cases e with
  | name | call | new => exact h _
  | send => exact ⟨h _, fun _ _ => h _⟩
  | lit | binary | not | cond | print => trivial

variable (hP : Closed @P)

include hP

theorem fitCount_closed (callee : String) (expected : List Ty) (args : List Expr)
    (pos : Position) : P (fitCount callee expected args pos) := by
  unfold fitCount
  split
  · exact hP.pure _
  · exact hP.fail _ rfl

theorem fitArgs_closed {c : TypingContext} {args : List Expr} (h : ∀ e ∈ args, P (c.typeOf e))
    (callee : String) (place : Nat) (expected : List Ty) :
    P (c.fitArgs callee place args expected) := by
  induction args generalizing place expected with
  | nil => exact hP.pure _
  | cons e es ih =>
    cases expected with
    | nil => exact hP.pure _
    | cons t ts =>
      unfold fitArgs
      refine hP.bind (h e List.mem_cons_self) fun found => ?_
      split
      · exact ih (fun a ha => h a (List.mem_cons_of_mem _ ha)) _ _
      · exact hP.fail _ rfl

/-- The arguments of a call are checked, and then its type is filed. -/
theorem fit_file_closed {c : TypingContext} {args : List Expr} (h : ∀ e ∈ args, P (c.typeOf e))
    (callee : String) (expected : List Ty) (pos : Position) (id : NodeId) (ret : Ty) :
    P (do
      fitCount callee expected args pos
      c.fitArgs callee 1 args expected
      file id ret) :=
  hP.bind (fitCount_closed hP callee expected args pos) fun _ =>
    hP.bind (fitArgs_closed hP h callee 1 expected) fun _ => hP.file id ret

theorem typeOf_closed {c : TypingContext} {Q : Expr → Prop} (hlook : ∀ x, Q x → Looks @P c x)
    (hQ : Expr.Hereditary Q) {e : Expr} (he : Q e) : P (c.typeOf e) := by
  have hnode := hlook e he
  induction e with
  | lit value pos => exact hP.pure _
  | name id x pos =>
    unfold typeOf
    refine hP.bind hnode fun p => ?_
    simp only
    split
    · exact hP.fail _ rfl
    · exact hP.file _ _
  | binary op left right pos ihl ihr =>
    obtain ⟨hl, hr⟩ := hQ.binary he
    unfold typeOf
    refine hP.bind (ihl hl (hlook _ hl)) fun l => hP.bind (ihr hr (hlook _ hr)) fun r => ?_
    split
    · exact hP.pure _
    · rename_i hop
      exact hP.fail _ (BinOp.isUnmet_resultType hop)
  | not operand pos ih =>
    have ho := hQ.not he
    unfold typeOf
    refine hP.bind (ih ho (hlook _ ho)) fun found => ?_
    split
    · exact hP.pure _
    · exact hP.fail _ rfl
  | cond test yes no pos iht ihy ihn =>
    obtain ⟨ht, hy, hn⟩ := hQ.cond he
    unfold typeOf
    refine hP.bind (iht ht (hlook _ ht)) fun found => ?_
    split
    · refine hP.bind (ihy hy (hlook _ hy)) fun y => hP.bind (ihn hn (hlook _ hn)) fun n => ?_
      split
      · exact hP.pure _
      · exact hP.fail _ rfl
    · exact hP.fail _ rfl
  | print operand pos ih =>
    have ho := hQ.print he
    unfold typeOf
    exact ih ho (hlook _ ho)
  | call id callee args pos ih =>
    have hargs := fun a ha => ih a ha (hQ.call he a ha) (hlook a (hQ.call he a ha))
    unfold typeOf
    refine hP.bind hnode fun p => ?_
    simp only
    split
    · exact hP.fail _ rfl
    · exact fit_file_closed hP hargs _ _ _ _ _
  | send id receiver method args pos ih =>
    have hargs := fun a ha => ih a ha (hQ.send he a ha) (hlook a (hQ.send he a ha))
    unfold typeOf
    refine hP.seek hnode.1 fun u hu => hP.bind (hnode.2 u hu) fun e => ?_
    simp only
    split
    · exact hP.fail _ rfl
    · exact fit_file_closed hP hargs _ _ _ _ _
  | new id cls args pos ih =>
    have hargs := fun a ha => ih a ha (hQ.new he a ha) (hlook a (hQ.new he a ha))
    unfold typeOf
    refine hP.bind hnode fun p => ?_
    simp only
    split
    · exact hP.fail _ rfl
    · exact fit_file_closed hP hargs _ _ _ _ _

end

/-- The check of an expression adds to the log. -/
theorem extends_typeOf (c : TypingContext) (e : Expr) : (c.typeOf e).Extends :=
  typeOf_closed Extends.closed (fun _ _ => looks_of_require Extends.require) .true trivial

theorem extends_fitArgs (c : TypingContext) (callee : String) (place : Nat) (args : List Expr)
    (expected : List Ty) : (c.fitArgs callee place args expected).Extends :=
  fitArgs_closed Extends.closed (fun e _ => extends_typeOf c e) callee place expected

/-- Where all nodes are bound, nothing is incomplete. -/
theorem complete_typeOf (c : TypingContext) {Γ : Nest Entry} {e : Expr}
    (hb : e.Bound c.bindings Γ) : (c.typeOf e).Complete := by
  refine typeOf_closed Complete.closed (fun x hx => ?_) (Expr.Bound.hereditary c.bindings Γ) hb
  have hfiled := hx.node_filed
  cases x with
  | name | call | new =>
    obtain ⟨u, e, hu⟩ := hfiled
    exact Complete.require hu
  | send =>
    obtain ⟨u, receiver, method, hu, -, hm⟩ := hfiled
    refine ⟨Complete.require hu, fun u' hu' => ?_⟩
    cases hu.symm.trans hu'
    exact Complete.require hm
  | lit | binary | not | cond | print => trivial

/-! A check that succeeds derives the type and files all nodes. -/

/-- What is said of an expression whose check succeeds. -/
def Derives (c : TypingContext) (e : Expr) : Prop :=
  ∀ log t log', (c.typeOf e).result log = (.ok t, log') → c.HasType e t ∧ log'.Covers e.parts

theorem fitCount_ok {callee : String} {expected : List Ty} {args : List Expr} {pos : Position}
    {log log' : TypingLog} (h : (fitCount callee expected args pos).result log = (.ok (), log')) :
    expected.length = args.length := by
  unfold fitCount at h
  split at h
  · assumption
  · exact (result_fail_ok h).elim

theorem fitArgs_ok (c : TypingContext) (callee : String) (args : List Expr)
    (ih : ∀ e ∈ args, c.Derives e) :
    ∀ (place : Nat) (expected : List Ty) (log log' : TypingLog),
      expected.length = args.length →
      (c.fitArgs callee place args expected).result log = (.ok (), log') →
      c.Fits args expected ∧ log'.Covers (Expr.partsOfArgs args) := by
  induction args with
  | nil =>
    intro place expected log log' hlen h
    obtain rfl : expected = [] := List.length_eq_zero_iff.mp hlen
    exact ⟨.nil, log'.covers_nil⟩
  | cons e es ihs =>
    intro place expected log log' hlen h
    cases expected with
    | nil => simp at hlen
    | cons t ts =>
      unfold fitArgs at h
      obtain ⟨found, log₁, h₁, h⟩ := result_bind_ok h
      obtain ⟨hty, hcov⟩ := ih e (by simp) log found log₁ h₁
      split at h
      · rename_i hsub
        obtain ⟨hfits, hcov'⟩ := ihs (fun a ha => ih a (List.mem_cons_of_mem _ ha)) _ ts _ _
          (by simpa using hlen) h
        have hext := extends_fitArgs c callee (place + 1) es ts
        exact ⟨.cons hty hsub hfits,
          TypingLog.covers_append.mpr ⟨hcov.extends (hext.ok h), hcov'⟩⟩
      · exact (result_fail_ok h).elim

theorem covers_file {log : TypingLog} {e : Expr} {id : NodeId} {t : Ty} {es : List Expr}
    (hid : e.id? = some id) (h : log.Covers es) :
    TypingLog.Covers { log with types := log.types.insert id t } (e :: es) := by
  rw [TypingLog.covers_cons]
  refine ⟨?_, h.extends (Extends.file id t log)⟩
  intro id' hid'
  rw [hid] at hid'
  cases hid'
  exact Std.TreeMap.mem_insert_self

/-- The arguments of a call that is checked and filed. -/
theorem fit_file_ok (c : TypingContext) {callee : String} {args : List Expr} {expected : List Ty}
    {pos : Position} {e : Expr} {id : NodeId} {ret t : Ty} {log log' : TypingLog}
    (ih : ∀ a ∈ args, c.Derives a) (hid : e.id? = some id)
    (h : Check.result (do
      fitCount callee expected args pos
      c.fitArgs callee 1 args expected
      file id ret) log = (.ok t, log')) :
    t = ret ∧ c.Fits args expected ∧ log'.Covers (e :: Expr.partsOfArgs args) := by
  obtain ⟨_, log₁, h₁, h⟩ := result_bind_ok h
  obtain ⟨_, log₂, h₂, h⟩ := result_bind_ok h
  obtain ⟨hfits, hcov⟩ := fitArgs_ok c callee args ih 1 expected log₁ log₂ (fitCount_ok h₁) h₂
  rw [result_file] at h
  cases h
  exact ⟨rfl, hfits, covers_file hid hcov⟩

theorem derives_typeOf (c : TypingContext) (e : Expr) : c.Derives e := by
  induction e with
  | lit value pos =>
    intro log t log' h
    cases h
    exact ⟨.lit, by simp [TypingLog.Covers, Expr.parts, Expr.id?]⟩
  | name id x pos =>
    intro log t log' h
    unfold typeOf at h
    obtain ⟨⟨u, e⟩, hu, hrest⟩ := result_seek_ok h
    simp only at hrest
    split at hrest
    · exact (result_fail_ok hrest).elim
    · rename_i hk
      rw [result_file] at hrest
      cases hrest
      exact ⟨.name hu hk, covers_file rfl log.covers_nil⟩
  | binary op left right pos ihl ihr =>
    intro log t log' h
    unfold typeOf at h
    obtain ⟨l, log₁, h₁, h⟩ := result_bind_ok h
    obtain ⟨r, log₂, h₂, h⟩ := result_bind_ok h
    obtain ⟨hl, hcl⟩ := ihl _ _ _ h₁
    obtain ⟨hr, hcr⟩ := ihr _ _ _ h₂
    split at h
    · rename_i hop
      cases h
      refine ⟨.binary hl hr hop, ?_⟩
      simp only [Expr.parts, TypingLog.covers_cons, TypingLog.covers_append]
      exact ⟨by simp [Expr.id?], hcl.extends ((extends_typeOf c right).ok h₂), hcr⟩
    · exact (result_fail_ok h).elim
  | not operand pos ih =>
    intro log t log' h
    unfold typeOf at h
    obtain ⟨found, log₁, h₁, h⟩ := result_bind_ok h
    obtain ⟨hty, hcov⟩ := ih _ _ _ h₁
    split at h
    · rename_i hsub
      cases h
      refine ⟨.not hty hsub, ?_⟩
      simp only [Expr.parts, TypingLog.covers_cons]
      exact ⟨by simp [Expr.id?], hcov⟩
    · exact (result_fail_ok h).elim
  | cond test yes no pos iht ihy ihn =>
    intro log t log' h
    unfold typeOf at h
    obtain ⟨found, log₁, h₁, h⟩ := result_bind_ok h
    obtain ⟨ht, hct⟩ := iht _ _ _ h₁
    split at h
    · rename_i hsub
      obtain ⟨y, log₂, h₂, h⟩ := result_bind_ok h
      obtain ⟨n, log₃, h₃, h⟩ := result_bind_ok h
      obtain ⟨hy, hcy⟩ := ihy _ _ _ h₂
      obtain ⟨hn, hcn⟩ := ihn _ _ _ h₃
      have hx₂ := (extends_typeOf c yes).ok h₂
      have hx₃ := (extends_typeOf c no).ok h₃
      split at h
      · rename_i hjoin
        cases h
        refine ⟨.cond ht hsub hy hn hjoin, ?_⟩
        simp only [Expr.parts, TypingLog.covers_cons, TypingLog.covers_append]
        exact ⟨by simp [Expr.id?], ⟨hct.extends (hx₂.trans hx₃), hcy.extends hx₃⟩, hcn⟩
      · exact (result_fail_ok h).elim
    · exact (result_fail_ok h).elim
  | print operand pos ih =>
    intro log t log' h
    unfold typeOf at h
    obtain ⟨hty, hcov⟩ := ih _ _ _ h
    refine ⟨.print hty, ?_⟩
    simp only [Expr.parts, TypingLog.covers_cons]
    exact ⟨by simp [Expr.id?], hcov⟩
  | call id callee args pos ih =>
    intro log t log' h
    unfold typeOf at h
    obtain ⟨⟨u, e⟩, hu, hrest⟩ := result_seek_ok h
    simp only at hrest
    split at hrest
    · exact (result_fail_ok hrest).elim
    · rename_i sig hsig
      obtain ⟨rfl, hfits, hcov⟩ :=
        fit_file_ok c ih (show (Expr.call id callee args pos).id? = some id from rfl) hrest
      exact ⟨.call hu hsig hfits, hcov⟩
  | send id receiver method args pos ih =>
    intro log t log' h
    unfold typeOf at h
    obtain ⟨u, hu, hrest⟩ := result_seek_ok h
    obtain ⟨e, he, hrest'⟩ := result_seek_ok hrest
    simp only at hrest'
    split at hrest'
    · exact (result_fail_ok hrest').elim
    · rename_i sig hsig
      obtain ⟨rfl, hfits, hcov⟩ :=
        fit_file_ok c ih (show (Expr.send id receiver method args pos).id? = some id from rfl)
          hrest'
      exact ⟨.send hu he hsig hfits, hcov⟩
  | new id cls args pos ih =>
    intro log t log' h
    unfold typeOf at h
    obtain ⟨⟨u, e⟩, hu, hrest⟩ := result_seek_ok h
    simp only at hrest
    split at hrest
    · exact (result_fail_ok hrest).elim
    · rename_i shape hshape
      obtain ⟨rfl, hfits, hcov⟩ :=
        fit_file_ok c ih (show (Expr.new id cls args pos).id? = some id from rfl) hrest
      exact ⟨.new hu hshape hfits, hcov⟩

/-! Declarations. A fault of a declaration is added to the log when its check is
settled, so a log without faults shows that all checks succeeded. -/

theorem settle_log (m : Check Unit) (log : TypingLog) :
    ((settle m).run log).2 = match m.result log with
      | (.error (.fault e), log') => { log' with errors := log'.errors ++ [e] }
      | (_, log') => log' := by
  rw [settle, StateT.run_bind]
  rcases h : m.result log with ⟨(_ | e) | _, log'⟩
  all_goals
    rw [show StateT.run (ExceptT.run m) log = _ from h]
    rfl

theorem extends_settle {m : Check Unit} (h : m.Extends) (log : TypingLog) :
    log.Extends ((settle m).run log).2 := by
  have hx := h log
  rw [settle_log]
  rcases hr : m.result log with ⟨(_ | e) | _, log'⟩ <;> rw [hr] at hx
  · exact hx
  · exact hx.trans ⟨List.prefix_append _ _, fun _ hn => hn⟩
  · exact hx

theorem settle_clean {m : Check Unit} (hc : m.Complete) {log : TypingLog}
    (he : ((settle m).run log).2.errors = []) :
    m.result log = (.ok (), ((settle m).run log).2) := by
  have hx := hc log
  rw [settle_log] at he ⊢
  rcases hr : m.result log with ⟨(_ | e) | _, log'⟩ <;> rw [hr] at hx he
  · exact absurd rfl hx
  · simp at he

theorem typeDecl_fn (c : TypingContext) (id : NodeId) (name : String) (params : List Binder)
    (ret : WrittenType) (decls : List Decl) (body : Expr) (pos : Position) (log : TypingLog) :
    (c.typeDecl (.fn id name params ret decls body pos)).result log =
      (c.typeBody .function name ret body pos).result ((c.typeDecls decls).run log).2 := rfl

theorem typeMethod_result (c : TypingContext) (m : MethodDecl) (log : TypingLog) :
    (c.typeMethod m).result log =
      (c.typeBody .method m.name m.ret m.body m.pos).result ((c.typeDecls m.decls).run log).2 :=
  rfl

theorem typeDecls_cons (c : TypingContext) (d : Decl) (ds : List Decl) (log : TypingLog) :
    ((c.typeDecls (d :: ds)).run log).2 =
      ((c.typeDecls ds).run ((settle (c.typeDecl d)).run log).2).2 := rfl

theorem extends_typeBody (c : TypingContext) (kind : NameKind) (name : String) (ret : WrittenType)
    (body : Expr) (pos : Position) : (c.typeBody kind name ret body pos).Extends := by
  unfold typeBody
  refine (extends_typeOf c body).bind fun found => ?_
  split
  · exact .pure _
  · exact .fail _ _

theorem extends_decls (c : TypingContext) :
    (∀ d : Decl, (c.typeDecl d).Extends) ∧
    ∀ (ds : List Decl) (log : TypingLog), log.Extends ((c.typeDecls ds).run log).2 := by
  apply Decl.induction
  · intro id name type init pos
    unfold typeDecl
    refine (extends_typeOf c init).bind fun found => ?_
    split
    · exact .pure _
    · exact .fail _ _
  · intro id name params ret decls body pos ih log
    rw [typeDecl_fn]
    exact (ih log).trans (extends_typeBody c _ _ _ _ _ _)
  · exact TypingLog.Extends.refl
  · intro d ds ihd ihs log
    rw [typeDecls_cons]
    exact (extends_settle ihd log).trans (ihs _)

theorem extends_typeMethod (c : TypingContext) (m : MethodDecl) : (c.typeMethod m).Extends := by
  intro log
  rw [typeMethod_result]
  exact ((extends_decls c).2 m.decls log).trans (extends_typeBody c _ _ _ _ _ _)

theorem complete_typeBody (c : TypingContext) {Γ : Nest Entry} {body : Expr}
    (hb : body.Bound c.bindings Γ) (kind : NameKind) (name : String) (ret : WrittenType)
    (pos : Position) : (c.typeBody kind name ret body pos).Complete := by
  unfold typeBody
  refine (complete_typeOf c hb).bind fun found => ?_
  split
  · exact .pure _
  · exact .fail _ _

theorem complete_typeDecl (c : TypingContext) {d : Decl} {frame : List (String × Entry)}
    {outer : Nest Entry} {k : Nat} (hb : d.Bound c.bindings frame outer k) :
    (c.typeDecl d).Complete := by
  cases d with
  | var id name type init pos =>
    unfold typeDecl
    refine (complete_typeOf c hb).bind fun found => ?_
    split
    · exact .pure _
    · exact .fail _ _
  | fn id name params ret decls body pos =>
    intro log
    rw [typeDecl_fn]
    exact complete_typeBody c hb.2.1 _ _ _ _ _

theorem typeBody_ok (c : TypingContext) {kind : NameKind} {name : String} {ret : WrittenType}
    {body : Expr} {pos : Position} {log log' : TypingLog}
    (h : (c.typeBody kind name ret body pos).result log = (.ok (), log')) :
    c.BodyTyped ret body ∧ log'.Covers body.parts := by
  unfold typeBody at h
  obtain ⟨found, log₁, h₁, h₂⟩ := result_bind_ok h
  obtain ⟨hty, hcov⟩ := derives_typeOf c body _ _ _ h₁
  split at h₂
  · rename_i hsub
    cases h₂
    exact ⟨⟨found, hty, hsub⟩, hcov⟩
  · exact (result_fail_ok h₂).elim

/-- Declarations that are checked without a fault obey the typing rules. -/
theorem typeDecls_clean (c : TypingContext) :
    (∀ (d : Decl) (frame : List (String × Entry)) (outer : Nest Entry) (k : Nat),
      d.Bound c.bindings frame outer k → ∀ log log' : TypingLog,
      (c.typeDecl d).result log = (.ok (), log') → log'.errors = [] →
      c.DeclTyped d ∧ log'.Covers d.parts) ∧
    ∀ (ds : List Decl) (frame : List (String × Entry)) (outer : Nest Entry) (k : Nat),
      Decl.AllBound c.bindings ds frame outer k → ∀ log : TypingLog,
      ((c.typeDecls ds).run log).2.errors = [] →
      c.DeclsTyped ds ∧ ((c.typeDecls ds).run log).2.Covers (Decl.partsOfAll ds) := by
  apply Decl.induction
  · intro id name type init pos frame outer k hb log log' h he
    unfold typeDecl at h
    obtain ⟨found, log₁, h₁, h₂⟩ := result_bind_ok h
    obtain ⟨hty, hcov⟩ := derives_typeOf c init _ _ _ h₁
    split at h₂
    · rename_i hsub
      cases h₂
      exact ⟨⟨found, hty, hsub⟩, hcov⟩
    · exact (result_fail_ok h₂).elim
  · intro id name params ret decls body pos ih frame outer k hb log log' h he
    rw [typeDecl_fn] at h
    have hext := (extends_typeBody c .function name ret body pos).ok h
    obtain ⟨hdecls, hcov⟩ := ih _ _ _ hb.1 log (hext.clean he)
    obtain ⟨hbody, hcov'⟩ := typeBody_ok c h
    exact ⟨⟨hdecls, hbody⟩, TypingLog.covers_append.mpr ⟨hcov.extends hext, hcov'⟩⟩
  · intro frame outer k _ log _
    exact ⟨trivial, TypingLog.covers_nil _⟩
  · intro d ds ihd ihs frame outer k hb log he
    rw [typeDecls_cons] at he ⊢
    have hext := (extends_decls c).2 ds ((settle (c.typeDecl d)).run log).2
    have heone := hext.clean he
    obtain ⟨hd, hcov⟩ := ihd _ _ _ hb.1 log _ (settle_clean (complete_typeDecl c hb.1) heone) heone
    obtain ⟨hds, hcov'⟩ := ihs _ _ _ hb.2 _ he
    exact ⟨⟨hd, hds⟩, TypingLog.covers_append.mpr ⟨hcov.extends hext, hcov'⟩⟩

/-! Classes and the program, as functions from log to log. -/

def methodLog (c : TypingContext) (log : TypingLog) (m : MethodDecl) : TypingLog :=
  ((settle (c.typeMethod m)).run log).2

def classLog (c : TypingContext) (log : TypingLog) (d : ClassDecl) : TypingLog :=
  let log := d.methods.foldl c.methodLog log
  { log with errors := log.errors ++ c.misfits d }

/-- The log before the body of the program is checked. -/
def declsLog (c : TypingContext) (p : Program) : TypingLog :=
  ((c.typeDecls p.decls).run (p.classes.foldl c.classLog {})).2

theorem typeMethods_log (c : TypingContext) (ms : List MethodDecl) (log : TypingLog) :
    ((ms.forM fun m => settle (c.typeMethod m) : StateM TypingLog Unit).run log).2 =
      ms.foldl c.methodLog log := by
  induction ms generalizing log with
  | nil => rfl
  | cons m ms ih => exact ih (c.methodLog log m)

theorem typeClasses_log (c : TypingContext) (ds : List ClassDecl) (log : TypingLog) :
    ((ds.forM c.typeClass : StateM TypingLog Unit).run log).2 = ds.foldl c.classLog log := by
  induction ds generalizing log with
  | nil => rfl
  | cons d ds ih =>
    have hone : ((c.typeClass d).run log).2 = c.classLog log d := by
      have h := typeMethods_log c d.methods log
      simp only [classLog, ← h]
      rfl
    rw [List.foldl_cons, ← hone]
    exact ih _

theorem check_eq (c : TypingContext) (p : Program) :
    let r := ((c.typeMain p.body).run (c.declsLog p))
    c.check p = { programType? := r.1, types := r.2.types, errors := r.2.errors } := by
  have h := typeClasses_log c p.classes {}
  simp only [declsLog, ← h]
  rfl

theorem typeMain_run (c : TypingContext) (body : Expr) (log : TypingLog) :
    (c.typeMain body).run log = match (c.typeOf body).result log with
      | (.ok t, log') => (some t, log')
      | (.error stop, log') => (none, ((settle (throw stop)).run log').2) := by
  rw [typeMain, StateT.run_bind]
  rcases h : (c.typeOf body).result log with ⟨_ | _, log'⟩
  all_goals
    rw [show StateT.run (ExceptT.run (c.typeOf body)) log = _ from h]
    rfl

theorem complete_typeMethod (c : TypingContext) {Γ : Nest Entry} {m : MethodDecl}
    (hb : RoutineBound c.bindings Γ m.params m.decls m.body) : (c.typeMethod m).Complete := by
  intro log
  rw [typeMethod_result]
  exact complete_typeBody c hb.2.1 _ _ _ _ _

theorem extends_methodsLog (c : TypingContext) (ms : List MethodDecl) (log : TypingLog) :
    log.Extends (ms.foldl c.methodLog log) := by
  induction ms generalizing log with
  | nil => exact .refl _
  | cons m ms ih => exact (extends_settle (extends_typeMethod c m) log).trans (ih _)

theorem methodsLog_clean (c : TypingContext) {Γ : Nest Entry} (ms : List MethodDecl)
    (hb : ∀ m ∈ ms, RoutineBound c.bindings Γ m.params m.decls m.body) (log : TypingLog)
    (he : (ms.foldl c.methodLog log).errors = []) :
    (∀ m ∈ ms, c.DeclsTyped m.decls ∧ c.BodyTyped m.ret m.body) ∧
      (ms.foldl c.methodLog log).Covers (ms.flatMap MethodDecl.parts) := by
  induction ms generalizing log with
  | nil => exact ⟨by simp, TypingLog.covers_nil _⟩
  | cons m ms ih =>
    rw [List.foldl_cons] at he ⊢
    have hrest := extends_methodsLog c ms (c.methodLog log m)
    have hm := hb m (by simp)
    have hone := settle_clean (complete_typeMethod c hm) (hrest.clean he)
    rw [typeMethod_result] at hone
    have hext := (extends_typeBody c .method m.name m.ret m.body m.pos).ok hone
    obtain ⟨hdecls, hcov⟩ := (typeDecls_clean c).2 _ _ _ _ hm.1 log
      (hext.clean (hrest.clean he))
    obtain ⟨hbody, hcov'⟩ := typeBody_ok c hone
    obtain ⟨hms, hcovs⟩ := ih (fun k hk => hb k (List.mem_cons_of_mem _ hk)) _ he
    refine ⟨?_, ?_⟩
    · intro k hk
      rcases List.mem_cons.mp hk with rfl | hk
      · exact ⟨hdecls, hbody⟩
      · exact hms k hk
    · rw [List.flatMap_cons, MethodDecl.parts]
      exact TypingLog.covers_append.mpr ⟨TypingLog.covers_append.mpr
        ⟨(hcov.extends hext).extends hrest, hcov'.extends hrest⟩, hcovs⟩

theorem extends_classLog (c : TypingContext) (d : ClassDecl) (log : TypingLog) :
    log.Extends (c.classLog log d) :=
  (extends_methodsLog c d.methods log).trans ⟨List.prefix_append _ _, fun _ hn => hn⟩

theorem extends_classesLog (c : TypingContext) (ds : List ClassDecl) (log : TypingLog) :
    log.Extends (ds.foldl c.classLog log) := by
  induction ds generalizing log with
  | nil => exact .refl _
  | cons d ds ih => exact (extends_classLog c d log).trans (ih _)

theorem classesLog_clean (c : TypingContext) (ds : List ClassDecl)
    (hb : ∀ d ∈ ds, ∃ Γ, ∀ m ∈ d.methods, RoutineBound c.bindings Γ m.params m.decls m.body)
    (log : TypingLog) (he : (ds.foldl c.classLog log).errors = []) :
    (∀ d ∈ ds, ∀ m ∈ d.methods, c.DeclsTyped m.decls ∧ c.BodyTyped m.ret m.body) ∧
      (∀ d ∈ ds, c.misfits d = []) ∧
      (ds.foldl c.classLog log).Covers
        (ds.flatMap fun d => d.methods.flatMap MethodDecl.parts) := by
  induction ds generalizing log with
  | nil => exact ⟨by simp, by simp, TypingLog.covers_nil _⟩
  | cons d ds ih =>
    rw [List.foldl_cons] at he ⊢
    have hrest := extends_classesLog c ds (c.classLog log d)
    have heone := hrest.clean he
    simp only [classLog, List.append_eq_nil_iff] at heone
    obtain ⟨Γ, hd⟩ := hb d (by simp)
    obtain ⟨hms, hcov⟩ := methodsLog_clean c d.methods hd log heone.1
    obtain ⟨hds, hmis, hcovs⟩ := ih (fun k hk => hb k (List.mem_cons_of_mem _ hk)) _ he
    refine ⟨?_, ?_, ?_⟩
    · intro k hk
      rcases List.mem_cons.mp hk with rfl | hk
      · exact hms
      · exact hds k hk
    · intro k hk
      rcases List.mem_cons.mp hk with rfl | hk
      · exact heone.2
      · exact hmis k hk
    · rw [List.flatMap_cons]
      refine TypingLog.covers_append.mpr ⟨TypingLog.Covers.extends ?_ hrest, hcovs⟩
      exact hcov.extends ⟨List.prefix_append _ _, fun _ hn => hn⟩

/-- A program whose names are bound and in which no fault is found obeys the
typing rules; its body has a type, and so has every node. -/
theorem check_typed (c : TypingContext) (p : Program) (hp : p.Resolved c.bindings c.ancestry)
    (he : (c.check p).errors = []) :
    ∃ t, (c.check p).programType? = some t ∧ c.ProgramTyped p t ∧
      ∀ e ∈ p.parts, ∀ id, e.id? = some id → id ∈ (c.check p).types := by
  have heq := c.check_eq p
  simp only [typeMain_run] at heq
  have hcomplete := complete_typeOf c hp.body (c.declsLog p)
  rcases hr : (c.typeOf p.body).result (c.declsLog p) with ⟨stop | t, log⟩
  · -- A body that stops has a fault, which is then in the log.
    rw [hr] at hcomplete heq
    cases stop with
    | incomplete => exact absurd rfl hcomplete
    | fault e =>
      rw [heq] at he
      simp only [settle_log] at he
      have hresult :
          Check.result (throw (.fault e) : Check Unit) log = (.error (.fault e), log) := rfl
      simp [hresult] at he
  · rw [hr] at heq
    simp only at heq
    rw [heq] at he ⊢
    have hbody := (extends_typeOf c p.body).ok hr
    obtain ⟨hty, hcov⟩ := derives_typeOf c p.body _ _ _ hr
    have hed : (c.declsLog p).errors = [] := hbody.clean he
    have hdecls := (extends_decls c).2 p.decls (p.classes.foldl c.classLog {})
    obtain ⟨hds, hcovd⟩ := (typeDecls_clean c).2 _ _ _ _ hp.decls _ hed
    obtain ⟨hms, hmis, hcovc⟩ := classesLog_clean c p.classes (fun d hd => by
      obtain ⟨l, -, hm⟩ := hp.methods d hd
      exact ⟨_, hm⟩) {} (hdecls.clean hed)
    refine ⟨t, rfl, ⟨hms, hmis, hds, hty⟩, ?_⟩
    have hall : log.Covers p.parts := TypingLog.covers_append.mpr
      ⟨(hcovc.extends hdecls).extends hbody,
        TypingLog.covers_append.mpr ⟨hcovd.extends hbody, hcov⟩⟩
    exact hall

end TypingContext

end Classlet
