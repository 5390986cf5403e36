import Classlet.Binding.Resolution
import Classlet.Proofs.Static

/-!
What is filed stays filed. Binding a part of a program adds entries and files
the nodes of that part; the entries and records that are there, and all that is
filed for other nodes, stay as they are. So a part that is bound stays bound
while other parts are being bound.
-/

namespace Classlet

namespace Bindings

theorem used?_eq_some (b : Bindings) (node : NodeId) (u : Use) (e : Entry) :
    b.used? node = some (u, e) ↔ b.uses[node]? = some u ∧ b.entry? u.entry = some e := by
  simp only [used?, Option.bind_eq_bind, Option.bind_eq_some_iff, Option.pure_def,
    Option.some.injEq, Prod.mk.injEq]
  constructor
  · rintro ⟨v, hv, f, hf, rfl, rfl⟩
    exact ⟨hv, hf⟩
  · rintro ⟨hv, hf⟩
    exact ⟨u, hv, e, hf, rfl, rfl⟩

theorem member?_eq_some (b : Bindings) (cls x : String) (e : Entry) :
    b.member? cls x = some e ↔ ∃ record id, b.record? cls = some record ∧
      record.members[x]? = some id ∧ b.entry? id = some e := by
  simp only [member?, Option.bind_eq_bind, Option.bind_eq_some_iff]
  constructor
  · rintro ⟨record, hr, id, hid, he⟩
    exact ⟨record, id, hr, hid, he⟩
  · rintro ⟨record, id, hr, hid, he⟩
    exact ⟨record, hr, id, hid, he⟩

theorem registered_eq_some (b : Bindings) (cls : String) (e : Entry) :
    b.registered? cls = some e ↔
      ∃ record, b.record? cls = some record ∧ b.entry? record.entry = some e := by
  simp only [registered?, Option.bind_eq_some_iff]

/-- Every node that declares something has an entry of its own. -/
structure Separate (b : Bindings) : Prop where
  bounded : ∀ (n : NodeId) (id : EntryId), b.declarations[n]? = some id → id < b.entries.size
  distinct : ∀ (n n' : NodeId) (id : EntryId), b.declarations[n]? = some id →
    b.declarations[n']? = some id → n = n'

/-- Tables that grow at the given nodes only. -/
structure Grows (ids : List NodeId) (b b' : Bindings) : Prop where
  entries : ∀ i e, b.entry? i = some e → b'.entry? i = some e
  records : ∀ cls record, b.record? cls = some record → b'.record? cls = some record
  uses : ∀ n, n ∉ ids → b'.uses[n]? = b.uses[n]?
  sends : ∀ n, n ∉ ids → b'.sends[n]? = b.sends[n]?
  declarations : ∀ n, n ∉ ids → b'.declarations[n]? = b.declarations[n]?
  slots : ∀ n, n ∉ ids → b'.slots[n]? = b.slots[n]?
  classes : ∀ n, n ∉ ids → b'.classes[n]? = b.classes[n]?
  separate : b.Separate → b'.Separate

namespace Grows

variable {ids : List NodeId} {b b' b'' : Bindings}

theorem refl (ids : List NodeId) (b : Bindings) : Grows ids b b :=
  ⟨fun _ _ h => h, fun _ _ h => h, fun _ _ => rfl, fun _ _ => rfl, fun _ _ => rfl,
    fun _ _ => rfl, fun _ _ => rfl, fun h => h⟩

theorem mono {ids' : List NodeId} (h : Grows ids b b') (hsub : ids ⊆ ids') :
    Grows ids' b b' where
  entries := h.entries
  records := h.records
  uses n hn := h.uses n fun hi => hn (hsub hi)
  sends n hn := h.sends n fun hi => hn (hsub hi)
  declarations n hn := h.declarations n fun hi => hn (hsub hi)
  slots n hn := h.slots n fun hi => hn (hsub hi)
  classes n hn := h.classes n fun hi => hn (hsub hi)
  separate := h.separate

theorem trans (h : Grows ids b b') (h' : Grows ids b' b'') : Grows ids b b'' where
  entries i e he := h'.entries i e (h.entries i e he)
  records cls record hr := h'.records cls record (h.records cls record hr)
  uses n hn := (h'.uses n hn).trans (h.uses n hn)
  sends n hn := (h'.sends n hn).trans (h.sends n hn)
  declarations n hn := (h'.declarations n hn).trans (h.declarations n hn)
  slots n hn := (h'.slots n hn).trans (h.slots n hn)
  classes n hn := (h'.classes n hn).trans (h.classes n hn)
  separate hs := h'.separate (h.separate hs)

theorem append {ids' : List NodeId} (h : Grows ids b b') (h' : Grows ids' b' b'') :
    Grows (ids ++ ids') b b'' :=
  (h.mono (List.subset_append_left ids ids')).trans
    (h'.mono (List.subset_append_right ids ids'))

theorem usesAt {n : NodeId} {level : Nat} {e : Entry} (h : Grows ids b b')
    (hu : b.UsesAt n level e) (hn : n ∉ ids) : b'.UsesAt n level e := by
  obtain ⟨u, hu, hl⟩ := hu
  rw [used?_eq_some] at hu
  refine ⟨u, ?_, hl⟩
  rw [used?_eq_some, h.uses n hn]
  exact ⟨hu.1, h.entries _ _ hu.2⟩

theorem sendsAt {n : NodeId} {level : Nat} {e m : Entry} (h : Grows ids b b')
    (hs : b.SendsAt n level e m) (hn : n ∉ ids) : b'.SendsAt n level e m := by
  obtain ⟨u, hu, hl, he, hm⟩ := hs
  refine ⟨u, ?_, hl, h.entries _ _ he, h.entries _ _ hm⟩
  rw [h.sends n hn]
  exact hu

theorem member? {cls x : String} {e : Entry} (h : Grows ids b b')
    (hm : b.member? cls x = some e) : b'.member? cls x = some e := by
  rw [member?_eq_some] at hm ⊢
  obtain ⟨record, id, hr, hid, he⟩ := hm
  exact ⟨record, id, h.records _ _ hr, hid, h.entries _ _ he⟩

theorem registered? {cls : String} {e : Entry} (h : Grows ids b b')
    (hc : b.registered? cls = some e) : b'.registered? cls = some e := by
  rw [registered_eq_some] at hc ⊢
  obtain ⟨record, hr, he⟩ := hc
  exact ⟨record, h.records _ _ hr, h.entries _ _ he⟩

theorem lists {names : Names} {frame : List (String × Entry)} (h : Grows ids b b')
    (hl : b.Lists names frame) : b'.Lists names frame := by
  intro x
  have hx := hl x
  cases hn : names[x]? with
  | none =>
    rw [hn] at hx
    simpa using hx
  | some id =>
    rw [hn] at hx
    cases hf : frame.lookup x with
    | none => simp [hf] at hx
    | some e =>
      have he : b.entry? id = some e := by simpa [hf] using hx
      simp [h.entries _ _ he]

end Grows

end Bindings

open Bindings

theorem Expr.Bound.mono {ids : List NodeId} {b b' : Bindings} (h : Grows ids b b')
    {Γ : Nest Entry} {e : Expr} (hb : e.Bound b Γ) (hd : ∀ n ∈ e.ids, n ∉ ids) :
    e.Bound b' Γ := by
  -- Arguments are bound one by one, under the disjointness of their own nodes.
  have args : ∀ es : List Expr, (∀ a ∈ es, a.Bound b Γ → (∀ n ∈ a.ids, n ∉ ids) → a.Bound b' Γ) →
      (∀ n ∈ Expr.idsOfArgs es, n ∉ ids) → Expr.ArgsBound b Γ es → Expr.ArgsBound b' Γ es := by
    intro es
    induction es with
    | nil => intro _ _ _; trivial
    | cons a es ih =>
      intro hP hd hes
      simp only [Expr.idsOfArgs, List.mem_append] at hd
      refine ⟨hP a (List.mem_cons_self ..) hes.1 fun n hn => hd n (Or.inl hn), ?_⟩
      exact ih (fun a ha => hP a (List.mem_cons_of_mem _ ha)) (fun n hn => hd n (Or.inr hn)) hes.2
  induction e with
  | lit value pos => trivial
  | name id x pos =>
    obtain ⟨e, seen, hf, hu⟩ := hb
    exact ⟨e, seen, hf, h.usesAt hu (hd id (by simp [Expr.ids]))⟩
  | binary op left right pos ihl ihr =>
    simp only [Expr.ids, List.mem_append] at hd
    exact ⟨ihl hb.1 fun n hn => hd n (Or.inl hn), ihr hb.2 fun n hn => hd n (Or.inr hn)⟩
  | not operand pos ih => exact ih hb hd
  | cond test yes no pos iht ihy ihn =>
    simp only [Expr.ids, List.mem_append] at hd
    exact ⟨iht hb.1 fun n hn => hd n (Or.inl (Or.inl hn)),
      ihy hb.2.1 fun n hn => hd n (Or.inl (Or.inr hn)), ihn hb.2.2 fun n hn => hd n (Or.inr hn)⟩
  | print operand pos ih => exact ih hb hd
  | call id callee es pos ih =>
    simp only [Expr.ids, List.mem_cons] at hd
    obtain ⟨⟨e, seen, hf, hu⟩, hes⟩ := hb
    exact ⟨⟨e, seen, hf, h.usesAt hu (hd id (Or.inl rfl))⟩,
      args es ih (fun n hn => hd n (Or.inr hn)) hes⟩
  | send id receiver method es pos ih =>
    simp only [Expr.ids, List.mem_cons] at hd
    obtain ⟨⟨e, seen, cls, m, hf, ht, hm, hs⟩, hes⟩ := hb
    exact ⟨⟨e, seen, cls, m, hf, ht, h.member? hm, h.sendsAt hs (hd id (Or.inl rfl))⟩,
      args es ih (fun n hn => hd n (Or.inr hn)) hes⟩
  | new id cls es pos ih =>
    simp only [Expr.ids, List.mem_cons] at hd
    obtain ⟨⟨e, hc, hu⟩, hes⟩ := hb
    exact ⟨⟨e, h.registered? hc, h.usesAt hu (hd id (Or.inl rfl))⟩,
      args es ih (fun n hn => hd n (Or.inr hn)) hes⟩

theorem Decl.bound_mono {ids : List NodeId} {b b' : Bindings} (h : Grows ids b b') :
    (∀ (d : Decl) (frame : List (String × Entry)) (outer : Nest Entry) (k : Nat),
      d.Bound b frame outer k → (∀ n ∈ d.ids, n ∉ ids) → d.Bound b' frame outer k) ∧
    ∀ (ds : List Decl) (frame : List (String × Entry)) (outer : Nest Entry) (k : Nat),
      AllBound b ds frame outer k → (∀ n ∈ idsOfAll ds, n ∉ ids) →
      AllBound b' ds frame outer k := by
  apply Decl.induction
  · intro id name type init pos frame outer k hb hd
    simp only [Decl.ids, List.mem_append] at hd
    exact Expr.Bound.mono h hb fun n hn => hd n (Or.inl hn)
  · intro id name params ret decls body pos ih frame outer k hb hd
    simp only [Decl.ids, List.mem_cons, List.mem_append] at hd
    exact ⟨ih _ _ _ hb.1 fun n hn => hd n (Or.inr (Or.inr (Or.inl hn))),
      Expr.Bound.mono h hb.2.1 fun n hn => hd n (Or.inr (Or.inr (Or.inr hn))), hb.2.2⟩
  · intro frame outer k _ _
    trivial
  · intro d ds ihd ihs frame outer k hb hd
    simp only [Decl.idsOfAll, List.mem_append] at hd
    exact ⟨ihd _ _ _ hb.1 fun n hn => hd n (Or.inl hn),
      ihs _ _ _ hb.2 fun n hn => hd n (Or.inr hn)⟩

theorem RoutineBound.mono {ids : List NodeId} {b b' : Bindings} (h : Grows ids b b')
    {Γ : Nest Entry} {params : List Binder} {decls : List Decl} {body : Expr}
    (hb : RoutineBound b Γ params decls body)
    (hd : ∀ n ∈ Decl.idsOfAll decls ++ body.ids, n ∉ ids) :
    RoutineBound b' Γ params decls body := by
  simp only [List.mem_append] at hd
  exact ⟨(Decl.bound_mono h).2 _ _ _ _ hb.1 fun n hn => hd n (Or.inl hn),
    Expr.Bound.mono h hb.2.1 fun n hn => hd n (Or.inr hn), hb.2.2⟩

namespace Resolution

/-- A later state of binding, after the given nodes were bound. -/
structure Extends (ids : List NodeId) (r r' : Resolution) : Prop where
  classNames : r'.classNames = r.classNames
  errors : r.errors <+: r'.errors
  bindings : r.bindings.Grows ids r'.bindings

namespace Extends

variable {ids ids' : List NodeId} {r r' r'' : Resolution}

theorem refl (ids : List NodeId) (r : Resolution) : Extends ids r r :=
  ⟨rfl, List.prefix_refl _, Grows.refl ids _⟩

theorem mono (h : Extends ids r r') (hsub : ids ⊆ ids') : Extends ids' r r' :=
  ⟨h.classNames, h.errors, h.bindings.mono hsub⟩

theorem trans (h : Extends ids r r') (h' : Extends ids r' r'') : Extends ids r r'' :=
  ⟨h'.classNames.trans h.classNames, h.errors.trans h'.errors, h.bindings.trans h'.bindings⟩

theorem append (h : Extends ids r r') (h' : Extends ids' r' r'') :
    Extends (ids ++ ids') r r'' :=
  ⟨h'.classNames.trans h.classNames, h.errors.trans h'.errors, h.bindings.append h'.bindings⟩

/-- Where nothing is wrong at the end, nothing was wrong before. -/
theorem clean (h : Extends ids r r') (he : r'.errors = []) : r.errors = [] :=
  List.prefix_nil.mp (he ▸ h.errors)

end Extends

/-- A later state that knows the same classes. -/
structure Binds (ids : List NodeId) (r r' : Resolution) : Prop extends Extends ids r r' where
  records : r'.bindings.records = r.bindings.records
  classes : r'.bindings.classes = r.bindings.classes
  ancestry : r'.ancestry = r.ancestry

namespace Binds

variable {ids ids' : List NodeId} {r r' r'' : Resolution}

theorem refl (ids : List NodeId) (r : Resolution) : Binds ids r r :=
  ⟨Extends.refl ids r, rfl, rfl, rfl⟩

theorem mono (h : Binds ids r r') (hsub : ids ⊆ ids') : Binds ids' r r' :=
  ⟨h.toExtends.mono hsub, h.records, h.classes, h.ancestry⟩

theorem trans (h : Binds ids r r') (h' : Binds ids r' r'') : Binds ids r r'' :=
  ⟨h.toExtends.trans h'.toExtends, h'.records.trans h.records, h'.classes.trans h.classes,
    h'.ancestry.trans h.ancestry⟩

theorem append (h : Binds ids r r') (h' : Binds ids' r' r'') : Binds (ids ++ ids') r r'' :=
  ⟨h.toExtends.append h'.toExtends, h'.records.trans h.records, h'.classes.trans h.classes,
    h'.ancestry.trans h.ancestry⟩

end Binds

end Resolution

end Classlet
