import Classlet.Proofs.RenamedBinding
import Classlet.Proofs.Typing

/-!
Checking the types of two programs that are renamed into each other. Both checks go the same
way: they find types that are renamed into each other, or stop at the same place for the same
reason.
-/

namespace Classlet

def TypingLog.Renamed (ρ : Renaming) (log log' : TypingLog) : Prop :=
  List.Forall₂ (TypingError.Renamed ρ) log.errors log'.errors

inductive Stop.Renamed (ρ : Renaming) : Stop → Stop → Prop
  | incomplete : Renamed ρ .incomplete .incomplete
  | fault {e e' : TypingError} (h : e.Renamed ρ e') : Renamed ρ (.fault e) (.fault e')

/-- Two checks that agree from logs that do, and that leave such logs. -/
def Check.Renamed (ρ : Renaming) {α β : Type} (Q : α → β → Prop) (x : Check α) (x' : Check β) :
    Prop :=
  ∀ log log', log.Renamed ρ log' →
    Agrees (Stop.Renamed ρ) Q (x.result log).1 (x'.result log').1 ∧
      (x.result log).2.Renamed ρ (x'.result log').2

namespace Check.Renamed

variable {ρ : Renaming} {α β γ δ : Type} {Q : α → β → Prop} {S : γ → δ → Prop}

theorem pure {a : α} {b : β} (h : Q a b) :
    Renamed ρ Q (Pure.pure a : Check α) (Pure.pure b : Check β) :=
  fun _ _ hlog => ⟨.ok h, hlog⟩

theorem stop {s s' : Stop} (h : s.Renamed ρ s') :
    Renamed ρ Q (throw s : Check α) (throw s' : Check β) := fun _ _ hlog => ⟨.error h, hlog⟩

theorem fail {pos pos' : Position} {cause cause' : TypingFault} (hpos : ρ.place pos pos')
    (h : cause.Renamed ρ cause') :
    Renamed ρ Q (Check.fail pos cause : Check α) (Check.fail pos' cause' : Check β) :=
  stop (.fault ⟨hpos, h⟩)

theorem bind {x : Check α} {x' : Check β} {f : α → Check γ} {f' : β → Check δ}
    (hx : Renamed ρ Q x x') (hf : ∀ a b, Q a b → Renamed ρ S (f a) (f' b)) :
    Renamed ρ S (x >>= f) (x' >>= f') := by
  intro log log' hlog
  obtain ⟨hvalue, hnext⟩ := hx log log' hlog
  rw [result_bind, result_bind]
  generalize x.result log = y, x'.result log' = y' at hvalue hnext ⊢
  obtain ⟨a, log₁⟩ := y
  obtain ⟨b, log₁'⟩ := y'
  cases hvalue with
  | ok h => exact hf _ _ h _ _ hnext
  | error h => exact ⟨.error h, hnext⟩

theorem require {a : Option α} {b : Option β} (h : Option.Rel Q a b) :
    Renamed ρ Q (Check.require a) (Check.require b) := by
  cases h with
  | some hab => exact pure hab
  | none => exact stop .incomplete

theorem file (node : NodeId) (t : Ty) :
    Renamed ρ (fun t t' => t' = t.rename ρ.name) (Check.file node t)
      (Check.file node (t.rename ρ.name)) := fun _ _ hlog => ⟨.ok rfl, hlog⟩

end Check.Renamed

theorem optionRel_map {α β : Type} (o : Option α) (f : α → β) :
    Option.Rel (fun a b => b = f a) o (o.map f) := by
  cases o with
  | some a => exact .some rfl
  | none => exact .none

structure TypingContext.Renamed (ρ : Renaming) (c c' : TypingContext) : Prop where
  bindings : c.bindings.Renamed ρ c'.bindings
  ancestry : c.ancestry.Renamed ρ c'.ancestry

theorem BinOp.resultType_renamed {ρ : Renaming} {h h' : Ancestry} (hr : h.Renamed ρ h')
    (op : BinOp) (l r : Ty) :
    Agrees (TypingFault.Renamed ρ) (fun t t' => t' = t.rename ρ.name) (op.resultType h l r)
      (op.resultType h' (l.rename ρ.name) (r.rename ρ.name)) := by
  have hsignature : ∀ operand result, op.signature? = some (operand, result) →
      operand.rename ρ.name = operand ∧ result.rename ρ.name = result := by
    intro operand result heq
    cases op <;> cases heq <;> exact ⟨rfl, rfl⟩
  unfold resultType
  cases hsig : op.signature? with
  | some pair =>
    obtain ⟨operand, result⟩ := pair
    obtain ⟨hoperand, hresult⟩ := hsignature operand result hsig
    have hl := Ty.subtypeOf_rename hr l operand
    have hright := Ty.subtypeOf_rename hr r operand
    rw [hoperand] at hl hright
    simp only [hl, hright]
    split
    · exact .ok hresult.symm
    · exact .error .operandTypes
  | none =>
    simp only [Ty.hasSignature_rename, Ty.subtypeOf_rename hr]
    split
    · exact .error .functionEquality
    split
    · exact .ok rfl
    · exact .error .operandTypes

namespace TypingContext

open Check

section

variable {ρ : Renaming} {c c' : TypingContext} (hc : c.Renamed ρ c')

theorem fitCount_renamed {x x' : String} (hx : ρ.Callee x x') (ts : List Ty) {es es' : List Expr}
    (hes : es'.length = es.length) {p q : Position} (hpos : ρ.place p q) :
    Check.Renamed ρ (fun _ _ => True) (fitCount x ts es p)
      (fitCount x' (ts.map (Ty.rename ρ.name)) es' q) := by
  unfold fitCount
  rw [List.length_map, hes]
  split
  · exact .pure trivial
  · exact .fail hpos (.argumentCount hx)

include hc

theorem fitArgs_renamed {x x' : String} (hx : ρ.Callee x x') {es es' : List Expr}
    (hes : List.Forall₂ (Expr.Renamed ρ) es es')
    (hall : List.Forall₂ (fun e e' => Check.Renamed ρ (fun t t' => t' = t.rename ρ.name)
      (c.typeOf e) (c'.typeOf e')) es es') :
    ∀ (place : Nat) (ts : List Ty), Check.Renamed ρ (fun _ _ => True) (c.fitArgs x place es ts)
      (c'.fitArgs x' place es' (ts.map (Ty.rename ρ.name))) := by
  induction hes with
  | nil =>
    intro place ts
    exact .pure trivial
  | cons he _ ih =>
    intro place ts
    cases hall with
    | cons htype hall =>
      cases ts with
      | nil => exact .pure trivial
      | cons t ts =>
        unfold fitArgs
        refine htype.bind fun found found' hfound => ?_
        rw [hfound, Ty.subtypeOf_rename hc.ancestry]
        split
        · exact ih hall (place + 1) ts
        · exact .fail he.pos (.argumentType hx)

theorem used?_renamed (node : NodeId) :
    Option.Rel (fun x x' => x' = (x.1, x.2.rename ρ.name)) (c.bindings.used? node)
      (c'.bindings.used? node) := by
  rw [hc.bindings.used?]
  exact optionRel_map _ _

/-- A call to something with a signature, once it has been looked up. -/
theorem fitCall_renamed {x x' : String} (hx : ρ.Callee x x') {es es' : List Expr}
    (hes : List.Forall₂ (Expr.Renamed ρ) es es')
    (hall : List.Forall₂ (fun e e' => Check.Renamed ρ (fun t t' => t' = t.rename ρ.name)
      (c.typeOf e) (c'.typeOf e')) es es') (ts : List Ty) (id : NodeId) (t : Ty)
    {p q : Position} (hpos : ρ.place p q) :
    Check.Renamed ρ (fun t t' => t' = t.rename ρ.name)
      (do
        fitCount x ts es p
        c.fitArgs x 1 es ts
        file id t)
      (do
        fitCount x' (ts.map (Ty.rename ρ.name)) es' q
        c'.fitArgs x' 1 es' (ts.map (Ty.rename ρ.name))
        file id (t.rename ρ.name)) :=
  (fitCount_renamed hx ts hes.length_eq.symm hpos).bind fun _ _ _ =>
    (fitArgs_renamed hc hx hes hall 1 ts).bind fun _ _ _ => .file id t

/-- Expressions that are renamed into each other have types that are, or no type for the same
reason. -/
theorem typeOf_renamed {e e' : Expr} (he : e.Renamed ρ e') :
    Check.Renamed ρ (fun t t' => t' = t.rename ρ.name) (c.typeOf e) (c'.typeOf e') := by
  refine Expr.Renamed.induction ?_ ?_ ?_ ?_ ?_ ?_ ?_ ?_ ?_ he
  · intro value p q _
    refine .pure ?_
    cases value <;> rfl
  · intro id x p q hpos
    unfold typeOf
    refine (Check.Renamed.require (used?_renamed hc id)).bind ?_
    rintro ⟨u, entry⟩ _ rfl
    simp only [Entry.rename, Ty.nameKind?_rename]
    cases entry.type.nameKind? with
    | some kind => exact .fail hpos .notAValue
    | none => exact .file id entry.type
  · intro op a a' b b' p q ha hb hpos
    unfold typeOf
    refine ha.bind fun l l' hl => hb.bind fun r r' hr => ?_
    have hresult := op.resultType_renamed hc.ancestry l r
    rw [hl, hr]
    generalize op.resultType c.ancestry l r = y, op.resultType c'.ancestry _ _ = y' at hresult
    cases hresult with
    | ok h => exact .pure h
    | error h => exact .fail hpos h
  · intro a a' p q ha hpos
    unfold typeOf
    refine ha.bind fun t t' ht => ?_
    have hbool := Ty.subtypeOf_rename hc.ancestry t .bool
    simp only [Ty.rename] at hbool
    rw [ht, hbool]
    split
    · exact .pure rfl
    · exact .fail hpos .negationType
  · intro a a' b b' d d' p q hrel ha hb hd hpos
    unfold typeOf
    refine ha.bind fun t t' ht => ?_
    have hbool := Ty.subtypeOf_rename hc.ancestry t .bool
    simp only [Ty.rename] at hbool
    rw [ht, hbool]
    split
    · refine hb.bind fun y y' hy => hd.bind fun n n' hn => ?_
      rw [hy, hn, Ty.join?_rename hc.ancestry]
      cases y.join? c.ancestry n with
      | some t => exact .pure rfl
      | none => exact .fail hpos .branchTypes
    · exact .fail hrel.pos .conditionType
  · intro a a' p q ha _
    unfold typeOf
    exact ha
  · intro id x es es' p q hes hall hpos
    unfold typeOf
    refine (Check.Renamed.require (used?_renamed hc id)).bind ?_
    rintro ⟨u, entry⟩ _ rfl
    simp only [Entry.rename, Ty.signature?_rename]
    cases entry.type.signature? with
    | none => exact .fail hpos (.notCallable (.name x))
    | some sig =>
      simp only [Option.map_some, Ty.renameSignature_params, Ty.renameSignature_ret]
      exact fitCall_renamed hc (.name x) hes hall sig.params id sig.ret hpos
  · intro id x y es es' p q hes hall hpos
    unfold typeOf
    rw [hc.bindings.sends]
    have hsend : Option.Rel Eq c.bindings.sends[id]? c.bindings.sends[id]? := by
      cases c.bindings.sends[id]? with
      | some u => exact .some rfl
      | none => exact .none
    refine (Check.Renamed.require hsend).bind ?_
    rintro u _ rfl
    rw [hc.bindings.entry?]
    refine (Check.Renamed.require (optionRel_map _ _)).bind ?_
    rintro entry _ rfl
    simp only [Entry.rename, Ty.signature?_rename]
    cases entry.type.signature? with
    | none => exact .fail hpos (.notCallable (.member x y))
    | some sig =>
      simp only [Option.map_some, Ty.renameSignature_params, Ty.renameSignature_ret]
      exact fitCall_renamed hc (.member x y) hes hall sig.params id sig.ret hpos
  · intro id x es es' p q hes hall hpos
    unfold typeOf
    refine (Check.Renamed.require (used?_renamed hc id)).bind ?_
    rintro ⟨u, entry⟩ _ rfl
    simp only [Entry.rename, Ty.shape?_rename]
    cases entry.type.shape? with
    | none => exact .fail hpos .notAClass
    | some shape => exact fitCall_renamed hc (.name x) hes hall shape.fields id (.ref x) hpos

theorem typeBody_renamed (kind : NameKind) (x : String) {a a' : WrittenType} (ha : a.Renamed ρ a')
    {e e' : Expr} (he : e.Renamed ρ e') {p q : Position} (hpos : ρ.place p q) :
    Check.Renamed ρ (fun _ _ => True) (c.typeBody kind x a e p)
      (c'.typeBody kind (ρ.name x) a' e' q) := by
  unfold typeBody
  refine (typeOf_renamed hc he).bind fun t t' ht => ?_
  rw [ht, ha.lower, Ty.subtypeOf_rename hc.ancestry]
  split
  · exact .pure trivial
  · exact .fail hpos .returnType

end

theorem settle_renamed {ρ : Renaming} {x x' : Check Unit}
    (h : Check.Renamed ρ (fun _ _ => True) x x') {log log' : TypingLog}
    (hlog : log.Renamed ρ log') :
    ((settle x).run log).2.Renamed ρ ((settle x').run log').2 := by
  obtain ⟨hvalue, hnext⟩ := h log log' hlog
  rw [settle_log, settle_log]
  generalize x.result log = y, x'.result log' = y' at hvalue hnext ⊢
  obtain ⟨a, log₁⟩ := y
  obtain ⟨b, log₁'⟩ := y'
  cases hvalue with
  | ok _ => exact hnext
  | error hstop =>
    cases hstop with
    | incomplete => exact hnext
    | fault he => exact List.rel_append hnext (.cons he .nil)

section

variable {ρ : Renaming} {c c' : TypingContext}

theorem typeDecls_renamed_of {ds ds' : List Decl}
    (hds : List.Forall₂ (fun d d' => Check.Renamed ρ (fun _ _ => True) (c.typeDecl d)
      (c'.typeDecl d')) ds ds') :
    ∀ {log log' : TypingLog}, log.Renamed ρ log' →
      ((c.typeDecls ds).run log).2.Renamed ρ ((c'.typeDecls ds').run log').2 := by
  induction hds with
  | nil =>
    intro log log' hlog
    exact hlog
  | cons hd _ ih =>
    intro log log' hlog
    rw [typeDecls_cons, typeDecls_cons]
    exact ih (settle_renamed hd hlog)

variable (hc : c.Renamed ρ c')

include hc

theorem typeDecl_renamed {d d' : Decl} (hd : d.Renamed ρ d') :
    Check.Renamed ρ (fun _ _ => True) (c.typeDecl d) (c'.typeDecl d') := by
  refine Decl.Renamed.induction ?_ ?_ hd
  · intro id x a a' e e' p q ha he hpos
    unfold typeDecl
    refine (typeOf_renamed hc he).bind fun t t' ht => ?_
    rw [ht, ha.lower, Ty.subtypeOf_rename hc.ancestry]
    split
    · exact .pure trivial
    · exact .fail hpos .initialType
  · intro id x bs bs' a a' ds ds' e e' p q _ ha _ hds he hpos log log' hlog
    rw [typeDecl_fn, typeDecl_fn]
    exact typeBody_renamed hc .function x ha he hpos _ _ (typeDecls_renamed_of hds hlog)

theorem typeDecls_renamed {ds ds' : List Decl} (hds : List.Forall₂ (Decl.Renamed ρ) ds ds')
    {log log' : TypingLog} (hlog : log.Renamed ρ log') :
    ((c.typeDecls ds).run log).2.Renamed ρ ((c'.typeDecls ds').run log').2 :=
  typeDecls_renamed_of (hds.imp fun _ _ hd => typeDecl_renamed hc hd) hlog

theorem methodLog_renamed {m m' : MethodDecl} (hm : m.Renamed ρ m') {log log' : TypingLog}
    (hlog : log.Renamed ρ log') : (c.methodLog log m).Renamed ρ (c'.methodLog log' m') := by
  refine settle_renamed (fun log log' hlog => ?_) hlog
  rw [typeMethod_result, typeMethod_result, hm.name]
  exact typeBody_renamed hc .method m.name hm.ret hm.body hm.pos _ _
    (typeDecls_renamed hc hm.decls hlog)

/-! Overriding. -/

theorem shapes?_renamed {d d' : ClassDecl} (hd : d.Renamed ρ d') :
    c'.shapes? d' = (c.shapes? d).map fun (own, parent) =>
      (own.rename ρ.name, parent.rename ρ.name) := by
  unfold shapes?
  rw [hd.id, hc.bindings.classes]
  cases c.bindings.classes[d.id]? with
  | none => rfl
  | some binding =>
    simp only [Option.map_some, Option.bind_eq_bind, Option.bind_some, ClassBinding.rename]
    cases binding.parent? with
    | none => rfl
    | some parent =>
      simp only [Option.map_some, Option.bind_some, hc.bindings.shape?, hc.bindings.entry?]
      cases c.bindings.shape? parent with
      | none => rfl
      | some shape =>
        simp only [Option.map_some, Option.bind_some]
        cases c.bindings.entry? binding.entry with
        | none => rfl
        | some entry =>
          simp only [Option.map_some, Option.bind_some, Entry.rename, Ty.shape?_rename]
          cases entry.type.shape? <;> rfl

theorem fieldOverride?_renamed (cls : String) (own parent : ClassShape) {f f' : Binder}
    (hf : f.Renamed ρ f') :
    Option.Rel (TypingError.Renamed ρ) (c.fieldOverride? cls own parent f)
      (c'.fieldOverride? (ρ.name cls) (own.rename ρ.name) (parent.rename ρ.name) f') := by
  unfold fieldOverride?
  rw [hf.id, hf.name, hc.bindings.declared?]
  cases c.bindings.declared? f.id with
  | none => exact .none
  | some entry =>
    have hposition : (entry.rename ρ.name).fieldPosition? = entry.fieldPosition? := rfl
    simp only [Option.map_some, Option.bind_eq_bind, Option.bind_some, hposition]
    cases entry.fieldPosition? with
    | none => exact .none
    | some i =>
      simp only [Option.bind_some, ClassShape.rename, List.getElem?_map]
      cases own.fields[i]? with
      | none => exact .none
      | some t =>
        cases parent.fields[i]? with
        | none => exact .none
        | some u =>
          simp only [Option.map_some, Option.bind_some, Ty.subtypeOf_rename hc.ancestry]
          split
          · exact .none
          · exact .some ⟨hf.pos, .fieldOverride⟩

theorem methodOverride?_renamed (cls : String) (own parent : ClassShape) {m m' : MethodDecl}
    (hm : m.Renamed ρ m') :
    Option.Rel (TypingError.Renamed ρ) (c.methodOverride? cls own parent m)
      (c'.methodOverride? (ρ.name cls) (own.rename ρ.name) (parent.rename ρ.name) m') := by
  unfold methodOverride?
  rw [hm.id, hm.name, hc.bindings.slots]
  cases c.bindings.slots[m.id]? with
  | none => exact .none
  | some slot =>
    simp only [Option.bind_eq_bind, Option.bind_some, ClassShape.rename, List.getElem?_map]
    cases own.methods[slot.index]? with
    | none => exact .none
    | some s =>
      cases parent.methods[slot.index]? with
      | none => exact .none
      | some t =>
        simp only [Option.map_some, Option.bind_some, Signature.subtypeOf_rename hc.ancestry]
        split
        · exact .none
        · exact .some ⟨hm.pos, .methodOverride⟩

omit hc in
theorem forall₂_filterMap {α β γ δ : Type} {A : α → β → Prop} {B : γ → δ → Prop}
    {f : α → Option γ} {g : β → Option δ} {as : List α} {bs : List β} (h : List.Forall₂ A as bs)
    (hfg : ∀ a b, A a b → Option.Rel B (f a) (g b)) :
    List.Forall₂ B (as.filterMap f) (bs.filterMap g) := by
  induction h with
  | nil => exact .nil
  | cons hab _ ih =>
    have hrel := hfg _ _ hab
    rw [List.filterMap_cons, List.filterMap_cons]
    generalize f _ = x, g _ = y at hrel
    cases hrel with
    | some h => exact .cons h ih
    | none => exact ih

theorem misfits_renamed {d d' : ClassDecl} (hd : d.Renamed ρ d') :
    List.Forall₂ (TypingError.Renamed ρ) (c.misfits d) (c'.misfits d') := by
  unfold misfits
  rw [shapes?_renamed hc hd]
  cases c.shapes? d with
  | none => exact .nil
  | some shapes =>
    obtain ⟨own, parent⟩ := shapes
    simp only [Option.map_some, hd.name]
    exact List.rel_append
      (forall₂_filterMap hd.fields fun f f' hf => fieldOverride?_renamed hc d.name own parent hf)
      (forall₂_filterMap hd.methods fun m m' hm => methodOverride?_renamed hc d.name own parent hm)

theorem classLog_renamed {d d' : ClassDecl} (hd : d.Renamed ρ d') {log log' : TypingLog}
    (hlog : log.Renamed ρ log') : (c.classLog log d).Renamed ρ (c'.classLog log' d') := by
  have hmethods : ∀ {ms ms' : List MethodDecl}, List.Forall₂ (MethodDecl.Renamed ρ) ms ms' →
      ∀ {log log' : TypingLog}, log.Renamed ρ log' →
        (ms.foldl c.methodLog log).Renamed ρ (ms'.foldl c'.methodLog log') := by
    intro ms ms' hms
    induction hms with
    | nil =>
      intro log log' hlog
      exact hlog
    | cons hm _ ih =>
      intro log log' hlog
      exact ih (methodLog_renamed hc hm hlog)
  exact List.rel_append (hmethods hd.methods hlog) (misfits_renamed hc hd)

theorem declsLog_renamed {p p' : Program} (hp : p.Renamed ρ p') :
    (c.declsLog p).Renamed ρ (c'.declsLog p') := by
  have hclasses : ∀ {ds ds' : List ClassDecl}, List.Forall₂ (ClassDecl.Renamed ρ) ds ds' →
      ∀ {log log' : TypingLog}, log.Renamed ρ log' →
        (ds.foldl c.classLog log).Renamed ρ (ds'.foldl c'.classLog log') := by
    intro ds ds' hds
    induction hds with
    | nil =>
      intro log log' hlog
      exact hlog
    | cons hd _ ih =>
      intro log log' hlog
      exact ih (classLog_renamed hc hd hlog)
  exact typeDecls_renamed hc hp.decls (hclasses hp.classes .nil)

/-- The checks of programs that are renamed into each other find the same type, renamed, and
the same faults. -/
theorem check_renamed {p p' : Program} (hp : p.Renamed ρ p') :
    (c'.check p').programType? = (c.check p).programType?.map (Ty.rename ρ.name) ∧
      List.Forall₂ (TypingError.Renamed ρ) (c.check p).errors (c'.check p').errors := by
  obtain ⟨hvalue, hnext⟩ := typeOf_renamed hc hp.body _ _ (declsLog_renamed hc hp)
  rw [check_eq, check_eq]
  simp only [typeMain_run]
  generalize (c.typeOf p.body).result _ = y, (c'.typeOf p'.body).result _ = y' at hvalue hnext ⊢
  obtain ⟨a, log⟩ := y
  obtain ⟨b, log'⟩ := y'
  cases hvalue with
  | ok h => exact ⟨congrArg some h, hnext⟩
  | error hstop => exact ⟨rfl, settle_renamed (.stop hstop) hnext⟩

end

end TypingContext

end Classlet
