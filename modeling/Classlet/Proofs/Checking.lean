import Classlet.Proofs.Acceptance
import Classlet.Proofs.TypingRules
import Mathlib.Data.List.Pairwise

/-!
The check decides the typing rules. An expression is found to have a type exactly if the
rules give it that type, whatever has been checked before it. A program whose names are
bound is checked without a fault exactly if it is well typed. Even with faults, every type
that is filed for a node is the one that the rules give.
-/

namespace Classlet

namespace Check

variable {α β : Type}

/-- A check keeps what holds of the log, and what it finds has the given property. -/
def Keeps (I : TypingLog → Prop) (m : Check α) (Q : α → Prop) : Prop :=
  ∀ log, I log → I (m.result log).2 ∧ ∀ a, (m.result log).1 = .ok a → Q a

variable {I : TypingLog → Prop} {Q : α → Prop} {R : β → Prop}

theorem Keeps.pure {a : α} (h : Q a) : Keeps I (Pure.pure a : Check α) Q := by
  intro log hI
  refine ⟨hI, fun a' ha => ?_⟩
  cases ha
  exact h

theorem Keeps.stop (s : Stop) : Keeps I (throw s : Check α) Q := by
  intro log hI
  exact ⟨hI, fun a ha => by cases ha⟩

theorem Keeps.fail (pos : Position) (cause : TypingFault) :
    Keeps I (fail pos cause : Check α) Q := .stop _

theorem Keeps.require (o : Option α) : Keeps I (require o) fun a => o = some a := by
  cases o with
  | none => exact .stop _
  | some a => exact .pure rfl

theorem Keeps.bind {m : Check α} {f : α → Check β} (hm : m.Keeps I Q)
    (hf : ∀ a, Q a → (f a).Keeps I R) : (m >>= f).Keeps I R := by
  intro log hI
  obtain ⟨hI₁, hQ⟩ := hm log hI
  rw [result_bind]
  rcases hr : m.result log with ⟨s | a, log₁⟩ <;> rw [hr] at hI₁ hQ
  · exact ⟨hI₁, fun b hb => by cases hb⟩
  · exact hf a (hQ a rfl) log₁ hI₁

end Check

namespace TypingContext

open Check

variable {c : TypingContext}

/-! Whatever is filed is derived. -/

/-- Every type in the log is derived, for a node of one of the expressions. -/
def Derived (c : TypingContext) (es : List Expr) (log : TypingLog) : Prop :=
  ∀ (node : NodeId) (t : Ty), log.types[node]? = some t →
    ∃ e ∈ es, e.id? = some node ∧ c.HasType e t

variable {es : List Expr}

theorem file_keeps {e : Expr} (he : e ∈ es) {id : NodeId} (hid : e.id? = some id) {t : Ty}
    (ht : c.HasType e t) : Keeps (c.Derived es) (file id t) (c.HasType e) := by
  intro log hlog
  rw [result_file]
  constructor
  · intro node t' hnode
    simp only [Std.TreeMap.getElem?_insert, Std.LawfulEqCmp.compare_eq_iff_eq] at hnode
    by_cases heq : id = node
    · rw [if_pos heq] at hnode
      exact ⟨e, he, heq ▸ hid, Option.some.inj hnode ▸ ht⟩
    · rw [if_neg heq] at hnode
      exact hlog node t' hnode
  · intro t' ht'
    cases ht'
    exact ht

theorem fitCount_keeps {I : TypingLog → Prop} (callee : String) (expected : List Ty)
    (args : List Expr) (pos : Position) :
    Keeps I (fitCount callee expected args pos) fun _ => expected.length = args.length := by
  unfold fitCount
  split
  · rename_i hlen
    exact .pure hlen
  · exact .fail _ _

theorem fitArgs_keeps {I : TypingLog → Prop} {args : List Expr}
    (ih : ∀ a ∈ args, Keeps I (c.typeOf a) (c.HasType a)) {expected : List Ty}
    (hlen : expected.length = args.length) (callee : String) (place : Nat) :
    Keeps I (c.fitArgs callee place args expected) fun _ => c.Fits args expected := by
  induction args generalizing expected place with
  | nil =>
    obtain rfl : expected = [] := List.length_eq_zero_iff.mp hlen
    exact .pure .nil
  | cons e es ihs =>
    cases expected with
    | nil => simp at hlen
    | cons t ts =>
      unfold fitArgs
      refine (ih e List.mem_cons_self).bind fun found hfound => ?_
      split
      · rename_i hsub
        have hrest := ihs (fun a ha => ih a (List.mem_cons_of_mem _ ha)) (by simpa using hlen)
          (place + 1)
        exact fun log hI => ⟨(hrest log hI).1,
          fun a ha => .cons hfound hsub ((hrest log hI).2 a ha)⟩
      · exact .fail _ _

/-- The arguments of a call are checked, and then its type is filed. -/
theorem fit_file_keeps {args : List Expr} {e : Expr} (he : e ∈ es) {id : NodeId}
    (hid : e.id? = some id) (ih : ∀ a ∈ args, Keeps (c.Derived es) (c.typeOf a) (c.HasType a))
    {expected : List Ty} {ret : Ty} (hrule : c.Fits args expected → c.HasType e ret)
    (callee : String) (pos : Position) :
    Keeps (c.Derived es) (do
      fitCount callee expected args pos
      c.fitArgs callee 1 args expected
      file id ret) (c.HasType e) :=
  (fitCount_keeps callee expected args pos).bind fun _ hlen =>
    (fitArgs_keeps ih hlen callee 1).bind fun _ hfits => file_keeps he hid (hrule hfits)

/-- The check of an expression files derived types only, and finds the derived one. -/
theorem typeOf_keeps (e : Expr) (hes : ∀ x ∈ e.parts, x ∈ es) :
    Keeps (c.Derived es) (c.typeOf e) (c.HasType e) := by
  induction e with
  | lit value pos => exact .pure .lit
  | name id x pos =>
    unfold typeOf
    refine (Keeps.require _).bind fun q hq => ?_
    obtain ⟨u, e⟩ := q
    simp only
    split
    · exact .fail _ _
    · rename_i hk
      exact file_keeps (hes _ List.mem_cons_self) rfl (.name hq hk)
  | binary op left right pos ihl ihr =>
    have hl := ihl fun x hx => hes x (List.mem_cons_of_mem _ (List.mem_append_left _ hx))
    have hr := ihr fun x hx => hes x (List.mem_cons_of_mem _ (List.mem_append_right _ hx))
    unfold typeOf
    refine hl.bind fun l hl => hr.bind fun r hr => ?_
    split
    · rename_i hop
      exact .pure (.binary hl hr hop)
    · exact .fail _ _
  | not operand pos ih =>
    unfold typeOf
    refine (ih fun x hx => hes x (List.mem_cons_of_mem _ hx)).bind fun found hfound => ?_
    split
    · rename_i hsub
      exact .pure (.not hfound hsub)
    · exact .fail _ _
  | cond test yes no pos iht ihy ihn =>
    have htest := iht fun x hx => hes x (by simp [Expr.parts, hx])
    have hyes := ihy fun x hx => hes x (by simp [Expr.parts, hx])
    have hno := ihn fun x hx => hes x (by simp [Expr.parts, hx])
    unfold typeOf
    refine htest.bind fun found hfound => ?_
    split
    · rename_i hsub
      refine hyes.bind fun y hy => hno.bind fun n hn => ?_
      split
      · rename_i hjoin
        exact .pure (.cond hfound hsub hy hn hjoin)
      · exact .fail _ _
    · exact .fail _ _
  | print operand pos ih =>
    have ho := ih fun x hx => hes x (List.mem_cons_of_mem _ hx)
    unfold typeOf
    exact fun log hI => ⟨(ho log hI).1, fun t ht => .print ((ho log hI).2 t ht)⟩
  | call id callee args pos ih =>
    have hargs := fun a ha => ih a ha fun x hx => hes x (List.mem_cons_of_mem _
      (Expr.mem_partsOfArgs.mpr ⟨a, ha, hx⟩))
    unfold typeOf
    refine (Keeps.require _).bind fun q hq => ?_
    obtain ⟨u, e⟩ := q
    simp only
    split
    · exact .fail _ _
    · rename_i sig hsig
      exact fit_file_keeps (hes _ List.mem_cons_self) rfl hargs (.call hq hsig) _ _
  | send id receiver method args pos ih =>
    have hargs := fun a ha => ih a ha fun x hx => hes x (List.mem_cons_of_mem _
      (Expr.mem_partsOfArgs.mpr ⟨a, ha, hx⟩))
    unfold typeOf
    refine (Keeps.require _).bind fun u hu => (Keeps.require _).bind fun e he => ?_
    simp only
    split
    · exact .fail _ _
    · rename_i sig hsig
      exact fit_file_keeps (hes _ List.mem_cons_self) rfl hargs (.send hu he hsig) _ _
  | new id cls args pos ih =>
    have hargs := fun a ha => ih a ha fun x hx => hes x (List.mem_cons_of_mem _
      (Expr.mem_partsOfArgs.mpr ⟨a, ha, hx⟩))
    unfold typeOf
    refine (Keeps.require _).bind fun q hq => ?_
    obtain ⟨u, e⟩ := q
    simp only
    split
    · exact .fail _ _
    · rename_i shape hshape
      exact fit_file_keeps (hes _ List.mem_cons_self) rfl hargs (.new hq hshape) _ _

theorem Derived.settle {m : Check Unit} {Q : Unit → Prop} (hm : m.Keeps (c.Derived es) Q)
    {log : TypingLog} (h : c.Derived es log) : c.Derived es ((settle m).run log).2 := by
  have hlog := (hm log h).1
  rw [settle_log]
  rcases hr : m.result log with ⟨(_ | e) | _, log'⟩ <;> rw [hr] at hlog <;> exact hlog

theorem typeBody_keeps {body : Expr} (hes : ∀ x ∈ body.parts, x ∈ es) (kind : NameKind)
    (name : String) (ret : WrittenType) (pos : Position) :
    Keeps (c.Derived es) (c.typeBody kind name ret body pos) fun _ => True := by
  unfold typeBody
  refine (typeOf_keeps body hes).bind fun found _ => ?_
  split
  · exact .pure trivial
  · exact .fail _ _

theorem typeDecls_keeps :
    (∀ d : Decl, (∀ x ∈ d.parts, x ∈ es) → Keeps (c.Derived es) (c.typeDecl d) fun _ => True) ∧
    ∀ ds : List Decl, (∀ x ∈ Decl.partsOfAll ds, x ∈ es) → ∀ log : TypingLog,
      c.Derived es log → c.Derived es ((c.typeDecls ds).run log).2 := by
  apply Decl.induction
  · intro id name type init pos hes
    unfold typeDecl
    refine (typeOf_keeps init hes).bind fun found _ => ?_
    split
    · exact .pure trivial
    · exact .fail _ _
  · intro id name params ret decls body pos ih hes log hlog
    rw [typeDecl_fn]
    exact typeBody_keeps (fun x hx => hes x (List.mem_append_right _ hx)) _ _ _ _ _
      (ih (fun x hx => hes x (List.mem_append_left _ hx)) log hlog)
  · intro _ log hlog
    exact hlog
  · intro d ds ihd ihs hes log hlog
    rw [typeDecls_cons]
    exact ihs (fun x hx => hes x (List.mem_append_right _ hx)) _
      (hlog.settle (ihd fun x hx => hes x (List.mem_append_left _ hx)))

theorem methodsLog_derived {ms : List MethodDecl} (hes : ∀ m ∈ ms, ∀ x ∈ m.parts, x ∈ es)
    {log : TypingLog} (h : c.Derived es log) : c.Derived es (ms.foldl c.methodLog log) := by
  induction ms generalizing log with
  | nil => exact h
  | cons m ms ih =>
    have hm := hes m List.mem_cons_self
    apply ih fun k hk => hes k (List.mem_cons_of_mem _ hk)
    refine h.settle (Q := fun _ => True) fun log hlog => ?_
    rw [typeMethod_result]
    exact typeBody_keeps (fun x hx => hm x (List.mem_append_right _ hx)) _ _ _ _ _
      (typeDecls_keeps.2 _ (fun x hx => hm x (List.mem_append_left _ hx)) log hlog)

theorem classesLog_derived {ds : List ClassDecl}
    (hes : ∀ d ∈ ds, ∀ m ∈ d.methods, ∀ x ∈ m.parts, x ∈ es) {log : TypingLog}
    (h : c.Derived es log) : c.Derived es (ds.foldl c.classLog log) := by
  induction ds generalizing log with
  | nil => exact h
  | cons d ds ih =>
    apply ih fun k hk => hes k (List.mem_cons_of_mem _ hk)
    -- The misfits of the class are added, which leaves the types alone.
    exact methodsLog_derived (hes d List.mem_cons_self) h

/-- All types that are filed for a program are derived, also if there are faults. -/
theorem check_derived (p : Program) (node : NodeId) (t : Ty)
    (h : (c.check p).types[node]? = some t) :
    ∃ e ∈ p.parts, e.id? = some node ∧ c.HasType e t := by
  have hclasses : c.Derived p.parts (p.classes.foldl c.classLog {}) := by
    refine classesLog_derived (fun d hd m hm x hx => ?_) fun node t h => by simp at h
    exact List.mem_append_left _
      (List.mem_flatMap.mpr ⟨d, hd, List.mem_flatMap.mpr ⟨m, hm, hx⟩⟩)
  have hdecls : c.Derived p.parts (c.declsLog p) := typeDecls_keeps.2 p.decls
    (fun x hx => List.mem_append_right _ (List.mem_append_left _ hx)) _ hclasses
  have hbody := (typeOf_keeps p.body
    (fun x hx => List.mem_append_right _ (List.mem_append_right _ hx)) _ hdecls).1
  rw [check_eq] at h
  simp only [typeMain_run] at h
  rcases hr : (c.typeOf p.body).result (c.declsLog p) with ⟨stop | t', log⟩ <;>
    rw [hr] at hbody h
  · exact Derived.settle (Q := fun _ => True) (Keeps.stop stop) hbody node t h
  · exact hbody node t h

end TypingContext

/-! A node belongs to one expression. -/

theorem Expr.ids_of_parts (e : Expr) : e.parts.filterMap Expr.id? = e.ids := by
  have hargs : ∀ args : List Expr, (∀ a ∈ args, a.parts.filterMap Expr.id? = a.ids) →
      (Expr.partsOfArgs args).filterMap Expr.id? = Expr.idsOfArgs args := by
    intro args ih
    induction args with
    | nil => rfl
    | cons a as ihs =>
      rw [partsOfArgs, idsOfArgs, List.filterMap_append, ih a List.mem_cons_self,
        ihs fun b hb => ih b (List.mem_cons_of_mem _ hb)]
  induction e with
  | lit | name => rfl
  | binary op left right pos ihl ihr =>
    rw [parts, ids, List.filterMap_cons_none rfl, List.filterMap_append, ihl, ihr]
  | not operand pos ih | print operand pos ih =>
    rw [parts, ids, List.filterMap_cons_none rfl, ih]
  | cond test yes no pos iht ihy ihn =>
    rw [parts, ids, List.filterMap_cons_none rfl, List.filterMap_append, List.filterMap_append, iht,
      ihy, ihn]
  | call id callee args pos ih | send id receiver method args pos ih | new id cls args pos ih =>
    rw [parts, ids, List.filterMap_cons_some (f := Expr.id?) rfl, hargs args ih]

theorem Decl.ids_of_parts :
    (∀ d : Decl, (d.parts.filterMap Expr.id?).Sublist d.ids) ∧
    ∀ ds : List Decl, ((Decl.partsOfAll ds).filterMap Expr.id?).Sublist (Decl.idsOfAll ds) := by
  apply Decl.induction
  · intro id name type init pos
    rw [parts, ids, Expr.ids_of_parts]
    exact List.sublist_append_left _ _
  · intro id name params ret decls body pos ih
    rw [parts, ids, List.filterMap_append, Expr.ids_of_parts]
    refine List.Sublist.cons _ (List.Sublist.trans ?_ (List.sublist_append_right _ _))
    exact ih.append (List.Sublist.refl _)
  · exact List.Sublist.refl _
  · intro d ds ihd ihs
    rw [partsOfAll, idsOfAll, List.filterMap_append]
    exact ihd.append ihs

theorem MethodDecl.ids_of_parts (m : MethodDecl) :
    (m.parts.filterMap Expr.id?).Sublist m.innerIds := by
  rw [parts, innerIds, List.filterMap_append, Expr.ids_of_parts]
  refine List.Sublist.trans ?_ (List.sublist_append_right _ _)
  exact (Decl.ids_of_parts.2 m.decls).append (List.Sublist.refl _)

theorem sublist_flatMap {α β γ : Type} {f : α → List β} {g : α → List γ} {h : β → Option γ}
    (hfg : ∀ a, ((f a).filterMap h).Sublist (g a)) (l : List α) :
    ((l.flatMap f).filterMap h).Sublist (l.flatMap g) := by
  induction l with
  | nil => exact List.Sublist.refl _
  | cons a l ih =>
    rw [List.flatMap_cons, List.flatMap_cons, List.filterMap_append]
    exact (hfg a).append ih

/-- Where the numbers of a list are distinct, two of its members with one number are the
same. -/
theorem eq_of_nodup_filterMap {α β : Type} {f : α → Option β} {l : List α} {a a' : α} {n : β}
    (hn : (l.filterMap f).Nodup) (ha : a ∈ l) (ha' : a' ∈ l) (hf : f a = some n)
    (hf' : f a' = some n) : a = a' := by
  by_contra hne
  rw [List.Nodup, List.pairwise_filterMap] at hn
  have hsymm : Std.Symm fun a a' : α => ∀ n, f a = some n → ∀ n', f a' = some n' → n ≠ n' :=
    ⟨fun a a' h n hn n' hn' => (h n' hn' n hn).symm⟩
  exact hn.forall ha ha' hne n hf n hf' rfl

namespace Program

variable {p : Program}

theorem ids_of_parts (p : Program) : (p.parts.filterMap Expr.id?).Sublist p.ids := by
  rw [parts, ids, List.filterMap_append, List.filterMap_append, Expr.ids_of_parts]
  refine List.Sublist.trans ?_ (List.sublist_append_right _ _)
  refine (sublist_flatMap (fun d => ?_) p.classes).append
    ((Decl.ids_of_parts.2 p.decls).append (List.Sublist.refl _))
  exact sublist_flatMap MethodDecl.ids_of_parts d.methods

/-- Expressions of a program with the same number are one expression. -/
theorem part_unique (hn : p.ids.Nodup) {e e' : Expr} (he : e ∈ p.parts) (he' : e' ∈ p.parts)
    {id : NodeId} (hid : e.id? = some id) (hid' : e'.id? = some id) : e = e' :=
  eq_of_nodup_filterMap (hn.sublist p.ids_of_parts) he he' hid hid'

/-- For a program whose names are bound, the check decides the typing rules. It finds no
fault exactly if the program is well typed; it finds a type for an expression exactly if the
rules give it, and so for the body of the program; the types that it files are those that
the rules give, and without a fault it files them for all nodes. -/
theorem check_decides (p : Program) (hn : p.ids.Nodup) (hr : p.resolve.errors = []) :
    ((p.typingContext.check p).errors = [] ↔ ∃ t, p.typingContext.WellTyped p t) ∧
    (∀ t, (p.typingContext.check p).programType? = some t ↔ p.typingContext.Typed p.body t) ∧
    (∀ (e : Expr) (t : Ty) (log : TypingLog),
      (∃ log', (p.typingContext.typeOf e).result log = (.ok t, log')) ↔
        p.typingContext.Typed e t) ∧
    (∀ e ∈ p.parts, ∀ id, e.id? = some id → ∀ t,
      (p.typingContext.check p).types[id]? = some t → p.typingContext.Typed e t) ∧
    ((p.typingContext.check p).errors = [] → ∀ e ∈ p.parts, ∀ id, e.id? = some id →
      ∃ t, (p.typingContext.check p).types[id]? = some t) := by
  have hp : p.Resolved p.typingContext.bindings p.typingContext.ancestry := p.resolve_resolved hn hr
  refine ⟨?_, ?_, ?_, ?_, ?_⟩
  · constructor
    · intro he
      obtain ⟨t, -, ht, -⟩ := p.typingContext.check_typed p hp he
      exact ⟨t, hp.wellTyped_iff.mpr ht⟩
    · rintro ⟨t, ht⟩
      exact TypingContext.check_clean (hp.wellTyped_iff.mp ht)
  · intro t
    rw [TypingContext.programType?_eq_some, TypingContext.typed_iff_hasType]
  · intro e t log
    rw [TypingContext.typed_iff_hasType]
    constructor
    · rintro ⟨log', h⟩
      exact (TypingContext.derives_typeOf _ e _ _ _ h).1
    · intro h
      obtain ⟨log', hlog, -⟩ := TypingContext.typeOf_finds e t h log
      exact ⟨log', hlog⟩
  · intro e he id hid t ht
    obtain ⟨e', he', hid', htyped⟩ := TypingContext.check_derived p id t ht
    rw [part_unique hn he he' hid hid', TypingContext.typed_iff_hasType]
    exact htyped
  · intro he e hmem id hid
    obtain ⟨t, -, -, hall⟩ := p.typingContext.check_typed p hp he
    exact ⟨_, Std.TreeMap.getElem?_eq_some_getElem (hall e hmem id hid)⟩

end Program

/-- A subclass whose method answers with an object, where that of its superclass answers
with a number. -/
def misfitProgram : Program :=
  let pos := Position.ofLine 1
  { classes := [
      { id := 0, name := "A", parent? := none, pos, fields := []
        methods := [{ id := 1, name := "get", params := [], ret := .int pos, decls := []
                      body := .lit (.int 1) pos, pos }] },
      { id := 2, name := "B", parent? := some "A", pos, fields := []
        methods := [{ id := 3, name := "get", params := [], ret := .named "A" pos, decls := []
                      body := .lit .null pos, pos }] }]
    decls := [.var 4 "a" (.named "A" pos) (.new 5 "B" [] pos) pos]
    body := .send 6 "a" "get" [] pos
    pos }

/-- The program with the misfit is not well typed, though its body has a type, which is
filed; the one whose override fits is well typed. -/
theorem misfitProgram_decided :
    (misfitProgram.ids.Nodup ∧ misfitProgram.resolve.errors = [] ∧
      (¬ ∃ t, misfitProgram.typingContext.WellTyped misfitProgram t) ∧
      misfitProgram.typingContext.Typed misfitProgram.body .int ∧
      (misfitProgram.typingContext.check misfitProgram).types[6]? = some .int) ∧
    ∃ t, overrideProgram.typingContext.WellTyped overrideProgram t := by
  have hids : misfitProgram.ids.Nodup := by decide +kernel
  have hr : misfitProgram.resolve.errors = [] := by decide +kernel
  have hfault : (misfitProgram.typingContext.check misfitProgram).errors ≠ [] := by decide +kernel
  have hfiled : (misfitProgram.typingContext.check misfitProgram).types[6]? = some .int := by
    decide +kernel
  obtain ⟨hclean, -, -, hderived, -⟩ := misfitProgram.check_decides hids hr
  obtain ⟨hclean', -⟩ := overrideProgram.check_decides overrideProgram_ids overrideProgram_clean.1
  refine ⟨⟨hids, hr, fun h => hfault (hclean.mpr h), ?_, hfiled⟩,
    hclean'.mp overrideProgram_clean.2⟩
  exact hderived _ (List.mem_of_getElem? (i := 3) rfl) 6 rfl .int hfiled

end Classlet
