import Classlet.Proofs.Lexical
import Classlet.Proofs.Resolved

/-!
Names in the bodies of a program are bound as lexical scope says. While a body is
being bound, the open frames select the same declarations as the frames of the
text; each occurrence is then filed with the entry of the selected declaration, or
reported if there is none. Faults of other kinds change neither the frames nor what
is reported about missing names.
-/

namespace Classlet

namespace Bindings

/-- Different nodes of which nothing is filed yet. -/
structure Awaits (b : Bindings) (ids : List NodeId) : Prop where
  nodup : ids.Nodup
  uses : ∀ n ∈ ids, b.uses[n]? = none
  sends : ∀ n ∈ ids, b.sends[n]? = none
  declarations : ∀ n ∈ ids, b.declarations[n]? = none

namespace Awaits

variable {b b' : Bindings} {ids ids' : List NodeId}

theorem left (h : b.Awaits (ids ++ ids')) : b.Awaits ids where
  nodup := (List.nodup_append.mp h.nodup).1
  uses n hn := h.uses n (List.mem_append_left _ hn)
  sends n hn := h.sends n (List.mem_append_left _ hn)
  declarations n hn := h.declarations n (List.mem_append_left _ hn)

theorem perm (h : b.Awaits ids) (hp : ids.Perm ids') : b.Awaits ids' where
  nodup := hp.nodup_iff.mp h.nodup
  uses n hn := h.uses n (hp.mem_iff.mpr hn)
  sends n hn := h.sends n (hp.mem_iff.mpr hn)
  declarations n hn := h.declarations n (hp.mem_iff.mpr hn)

theorem disjoint (h : b.Awaits (ids ++ ids')) {n : NodeId} (hn : n ∈ ids) : n ∉ ids' :=
  fun hn' => (List.nodup_append.mp h.nodup).2.2 n hn n hn' rfl

/-- Nodes still wait while others are being filed. -/
theorem right (h : b.Awaits (ids ++ ids')) (hg : b.Grows ids b') : b'.Awaits ids' := by
  have hnot : ∀ n ∈ ids', n ∉ ids := fun n hn hn' => h.disjoint hn' hn
  refine ⟨(List.nodup_append.mp h.nodup).2.1, ?_, ?_, ?_⟩
  · intro n hn
    rw [hg.uses n (hnot n hn)]
    exact h.uses n (List.mem_append_right _ hn)
  · intro n hn
    rw [hg.sends n (hnot n hn)]
    exact h.sends n (List.mem_append_right _ hn)
  · intro n hn
    rw [hg.declarations n (hnot n hn)]
    exact h.declarations n (List.mem_append_right _ hn)

theorem declaration {n : NodeId} {id : EntryId} (h : b.Awaits ids) (hg : b.Grows ids b')
    (hn : b.declarations[n]? = some id) : b'.declarations[n]? = some id := by
  have hnot : n ∉ ids := by
    intro hin
    rw [h.declarations n hin] at hn
    cases hn
  rw [hg.declarations n hnot]
  exact hn

end Awaits

/-- The names of a frame have the entries of their declarations. -/
def Declares (b : Bindings) (names : Names) (γ : Naming) : Prop :=
  ∀ x, match γ x with
    | none => names[x]? = none
    | some n => ∃ id e, names[x]? = some id ∧ b.declarations[n]? = some id ∧ b.entry? id = some e

theorem Declares.grows {b b' : Bindings} {ids : List NodeId} {names : Names} {γ : Naming}
    (h : b.Declares names γ) (ha : b.Awaits ids) (hg : b.Grows ids b') : b'.Declares names γ := by
  intro x
  have hx := h x
  cases hγ : γ x with
  | none =>
    rw [hγ] at hx
    exact hx
  | some n =>
    rw [hγ] at hx
    obtain ⟨id, e, hid, hdecl, he⟩ := hx
    exact ⟨id, e, hid, ha.declaration hg hdecl, hg.entries _ _ he⟩

theorem Declares.contains_iff {b : Bindings} {names : Names} {γ : Naming} (h : b.Declares names γ)
    (x : String) : names.contains x ↔ (γ x).isSome := by
  have hx := h x
  rw [Std.TreeMap.contains_eq_isSome_getElem?]
  cases hγ : γ x with
  | none =>
    rw [hγ] at hx
    simp only at hx
    rw [hx]
  | some n =>
    rw [hγ] at hx
    obtain ⟨id, e, hid, -, -⟩ := hx
    rw [hid]
    simp

end Bindings

open Bindings

theorem Naming.ofList_append (l l' : List (String × NodeId)) (x : String) :
    Naming.ofList (l ++ l') x = (Naming.ofList l x).or (Naming.ofList l' x) := by
  unfold Naming.ofList
  rw [List.lookup_append]

theorem Naming.ofList_singleton (x y : String) (n : NodeId) :
    Naming.ofList [(x, n)] y = if x = y then some n else none := by
  unfold Naming.ofList
  by_cases h : x = y
  · subst h
    simp
  · rw [lookup_cons_of_ne (Ne.symm h), if_neg h]
    rfl

namespace Scope

/-- The open frames have the entries that the frames `Γ` select. -/
def Selects (s : Scope) (b : Bindings) (Γ : List Naming) : Prop :=
  List.Forall₂ (fun f γ => b.Declares f.names γ) s.frames Γ

variable {s : Scope} {b b' : Bindings} {Γ : List Naming}

theorem Selects.grows {ids : List NodeId} (h : s.Selects b Γ) (ha : b.Awaits ids)
    (hg : b.Grows ids b') : s.Selects b' Γ :=
  h.imp fun _ _ hd => hd.grows ha hg

theorem Selects.push {names : Names} {γ : Naming} (h : s.Selects b Γ) (hn : b.Declares names γ) :
    (s.push names).Selects b (γ :: Γ) :=
  List.Forall₂.cons hn h

theorem Selects.pop {γ : Naming} (h : s.Selects b (γ :: Γ)) : s.pop.Selects b Γ := by
  obtain ⟨f, rest, -, hrest, hs⟩ := List.forall₂_cons_right_iff.mp h
  unfold Selects
  rw [Scope.pop, hs]
  exact hrest

theorem Selects.rescope {s' : Scope} (h : s.Selects b Γ)
    (hs : s'.frames.map Frame.names = s.frames.map Frame.names) : s'.Selects b Γ := by
  unfold Selects at h ⊢
  rw [← List.forall₂_map_left_iff (f := Frame.names)
    (R := fun names γ => b.Declares names γ)] at h ⊢
  rw [hs]
  exact h

theorem names_takeDecl (s : Scope) :
    s.takeDecl.2.frames.map Frame.names = s.frames.map Frame.names := by
  unfold takeDecl
  split
  · rfl
  · rename_i f fs hs
    rw [hs]
    rfl

theorem names_takeParam (s : Scope) :
    s.takeParam.2.frames.map Frame.names = s.frames.map Frame.names := by
  unfold takeParam
  split
  · rfl
  · rename_i f fs hs
    rw [hs]
    rfl

/-- A declaration joins the innermost frame behind the declarations before it; if
its name is taken then that changes nothing. -/
theorem Selects.declare? {before : List (String × NodeId)} {x : String} {n : NodeId}
    {id : EntryId} {e : Entry} (h : s.Selects b (.ofList before :: Γ))
    (hn : b.declarations[n]? = some id) (he : b.entry? id = some e) :
    ((s.declare? x id).getD s).Selects b (.ofList (before ++ [(x, n)]) :: Γ) := by
  obtain ⟨f, rest, hf, hrest, hs⟩ := List.forall₂_cons_right_iff.mp h
  have htaken := hf.contains_iff x
  unfold Scope.declare?
  rw [hs]
  simp only
  by_cases hx : f.names.contains x
  · rw [if_pos hx, Option.getD_none]
    unfold Selects
    rw [hs]
    refine List.Forall₂.cons ?_ hrest
    intro y
    have hy := hf y
    rw [Naming.ofList_append, Naming.ofList_singleton]
    cases hγ : Naming.ofList before y with
    | some m =>
      rw [hγ] at hy
      exact hy
    | none =>
      have hne : ¬ x = y := by
        rintro rfl
        rw [htaken, hγ] at hx
        cases hx
      rw [hγ] at hy
      rw [if_neg hne]
      exact hy
  · rw [if_neg hx, Option.getD_some]
    refine List.Forall₂.cons ?_ hrest
    intro y
    have hy := hf y
    rw [Naming.ofList_append, Naming.ofList_singleton]
    by_cases hxy : x = y
    · subst hxy
      have hnone : Naming.ofList before x = none := by
        rwa [htaken, Option.not_isSome_iff_eq_none] at hx
      rw [hnone, if_pos rfl]
      exact ⟨id, e, by simp, hn, he⟩
    · rw [if_neg hxy, Option.or_none]
      simp only [Std.TreeMap.getElem?_insert]
      cases hγ : Naming.ofList before y with
      | none =>
        rw [hγ] at hy
        simpa [hxy] using hy
      | some m =>
        rw [hγ] at hy
        simpa [hxy] using hy

/-- A look-up finds the entry of the selected declaration. -/
theorem Selects.use? (h : s.Selects b Γ) (x : String) :
    match Naming.select? Γ x with
    | none => Finding.use? s x = none
    | some n => ∃ u e, Finding.use? s x = some u ∧ b.declarations[n]? = some u.entry ∧
        b.entry? u.entry = some e := by
  have hfind : match Naming.select? Γ x with
      | none => Scope.find? x s.frames = none
      | some n => ∃ id l e, Scope.find? x s.frames = some (id, l) ∧
          b.declarations[n]? = some id ∧ b.entry? id = some e := by
    unfold Selects at h
    generalize s.frames = frames at h
    induction h with
    | nil => rfl
    | @cons f γ fs Γ hf hrest ih =>
      have hx := hf x
      unfold Naming.select? at ih ⊢
      rw [List.findSome?_cons]
      cases hγ : γ x with
      | none =>
        rw [hγ] at hx
        simp only at hx
        simpa only [Scope.find?, hx] using ih
      | some n =>
        rw [hγ] at hx
        obtain ⟨id, e, hid, hdecl, he⟩ := hx
        exact ⟨id, fs.length, e, by simp only [Scope.find?, hid], hdecl, he⟩
  cases hΓ : Naming.select? Γ x with
  | none =>
    rw [hΓ] at hfind
    simp only at hfind ⊢
    rw [Resolution.use?_eq, hfind]
    rfl
  | some n =>
    rw [hΓ] at hfind
    obtain ⟨id, l, e, hid, hdecl, he⟩ := hfind
    exact ⟨⟨id, s.level⟩, e, by rw [Resolution.use?_eq, hid]; rfl, hdecl, he⟩

end Scope

/-! What is settled stays settled. -/

theorem NameSettled.kept {b b' : Bindings} {ids : List NodeId} {node : NodeId}
    {declaration? : Option NodeId} (h : NameSettled b node declaration?) (ha : b.Awaits ids)
    (hg : b.Grows ids b') (hn : node ∉ ids) : NameSettled b' node declaration? := by
  cases declaration? with
  | none => exact (hg.uses node hn).trans h
  | some n =>
    obtain ⟨u, hu, hd⟩ := h
    exact ⟨u, (hg.uses node hn).trans hu, ha.declaration hg hd⟩

theorem ReceiverSettled.kept {ids : List NodeId} {r r' : Resolution} {node : NodeId}
    {receiver method : String} {pos : Position} {declaration? : Option NodeId}
    (h : ReceiverSettled r.bindings r.errors node receiver method pos declaration?)
    (ha : r.bindings.Awaits ids) (hb : r.Binds ids r') (hn : node ∉ ids) :
    ReceiverSettled r'.bindings r'.errors node receiver method pos declaration? := by
  have hsend := hb.bindings.sends node hn
  cases declaration? with
  | none => exact hsend.trans h
  | some n =>
    obtain ⟨id, entry, hd, he, h⟩ := h
    refine ⟨id, entry, ha.declaration hb.bindings hd, hb.bindings.entries _ _ he, ?_⟩
    cases ht : entry.type.referent? with
    | none =>
      rw [ht] at h
      exact ⟨hsend.trans h.1, hb.errors.subset h.2⟩
    | some cls =>
      rw [ht] at h
      have hrecord : r'.bindings.record? cls = r.bindings.record? cls := by
        simp only [Bindings.record?, hb.records]
      simp only at h ⊢
      rw [hrecord]
      cases hr : r.bindings.record? cls with
      | none =>
        rw [hr] at h
        exact hsend.trans h
      | some record =>
        rw [hr] at h
        simp only at h ⊢
        cases hm : record.members[method]? with
        | none =>
          rw [hm] at h
          exact ⟨hsend.trans h.1, hb.errors.subset h.2⟩
        | some m =>
          rw [hm] at h
          obtain ⟨u, hu, hu'⟩ := h
          exact ⟨u, hsend.trans hu, hu'⟩

theorem Expr.Settled.kept {ids : List NodeId} {r r' : Resolution} {Γ : List Naming} {e : Expr}
    (h : e.Settled r.bindings r.errors Γ) (ha : r.bindings.Awaits ids) (hb : r.Binds ids r')
    (hn : ∀ n, e.id? = some n → n ∉ ids) : e.Settled r'.bindings r'.errors Γ := by
  cases e with
  | name id x pos => exact NameSettled.kept h ha hb.bindings (hn id rfl)
  | call id callee args pos => exact NameSettled.kept h ha hb.bindings (hn id rfl)
  | send id receiver method args pos => exact ReceiverSettled.kept h ha hb (hn id rfl)
  | _ => trivial

namespace Resolution

/-- The reports of names without a declaration. -/
def undeclared (r : Resolution) : List BindingError :=
  r.errors.filter fun e => e.cause.isUndeclared

/-- The places of a part of a program are settled by binding that part. -/
structure Resolves (ids : List NodeId) (places : List (List Naming × Expr)) (r r' : Resolution) :
    Prop extends Binds ids r r' where
  inside : ∀ q ∈ places, ∀ n, q.2.id? = some n → n ∈ ids
  settled : ∀ q ∈ places, q.2.Settled r'.bindings r'.errors q.1
  undeclared : r'.undeclared = r.undeclared ++ places.filterMap fun q => q.2.undeclared? q.1

section

variable {ids ids' : List NodeId} {places places' : List (List Naming × Expr)}
  {r r' r'' : Resolution}

/-- A step that reports no missing name settles no place. -/
theorem Resolves.of_quiet (hb : Binds ids r r') (hq : r'.undeclared = r.undeclared) :
    Resolves ids [] r r' := by
  refine ⟨hb, ?_, ?_, ?_⟩
  · intro q hq
    cases hq
  · intro q hq
    cases hq
  · rw [hq]
    simp

theorem Resolves.single {Γ : List Naming} {e : Expr} (hb : Binds ids r r')
    (hid : ∀ n, e.id? = some n → n ∈ ids) (hs : e.Settled r'.bindings r'.errors Γ)
    (hu : r'.undeclared = r.undeclared ++ (e.undeclared? Γ).toList) :
    Resolves ids [(Γ, e)] r r' := by
  refine ⟨hb, ?_, ?_, ?_⟩
  · intro q hq n hn
    rw [List.mem_singleton.mp hq] at hn
    exact hid n hn
  · intro q hq
    rw [List.mem_singleton.mp hq]
    exact hs
  · rw [hu]
    cases he : e.undeclared? Γ <;> simp [he]

/-- An expression that refers to nothing itself. -/
theorem Resolves.of_plain (r : Resolution) (Γ : List Naming) {e : Expr} (hid : e.id? = none)
    (hs : e.Settled r.bindings r.errors Γ) (hu : e.undeclared? Γ = none) :
    Resolves [] [(Γ, e)] r r := by
  refine .single (Binds.refl _ r) ?_ hs ?_
  · intro n hn
    rw [hid] at hn
    cases hn
  · rw [hu]
    simp

/-- A change of scope, before or after, settles nothing. -/
theorem Resolves.rescope {s : Scope} (h : Resolves ids places { r with scope := s } r')
    (s' : Scope) : Resolves ids places r { r' with scope := s' } :=
  ⟨⟨⟨h.classNames, h.errors, h.bindings⟩, h.records, h.classes, h.ancestry⟩, h.inside, h.settled,
    h.undeclared⟩

/-- Parts of a program are settled one after the other. -/
theorem Resolves.append (h : Resolves ids places r r') (h' : Resolves ids' places' r' r'')
    (ha : r.bindings.Awaits (ids ++ ids')) :
    Resolves (ids ++ ids') (places ++ places') r r'' := by
  refine ⟨h.toBinds.append h'.toBinds, ?_, ?_, ?_⟩
  · intro q hq n hn
    rcases List.mem_append.mp hq with hq | hq
    · exact List.mem_append_left _ (h.inside q hq n hn)
    · exact List.mem_append_right _ (h'.inside q hq n hn)
  · intro q hq
    rcases List.mem_append.mp hq with hq | hq
    · exact (h.settled q hq).kept (ha.right h.bindings) h'.toBinds
        fun n hn => ha.disjoint (h.inside q hq n hn)
    · exact h'.settled q hq
  · rw [h'.undeclared, h.undeclared, List.filterMap_append, List.append_assoc]

end

/-! Occurrences. -/

theorem undeclared_record_use (r : Resolution) (n : NodeId) (u : Use) :
    (r.record (.use n u)).undeclared = r.undeclared := rfl

theorem undeclared_record_fault (r : Resolution) (e : BindingError) :
    (r.record (.fault e)).undeclared =
      r.undeclared ++ if e.cause.isUndeclared then [e] else [] := by
  simp only [undeclared, record, List.filter_append]
  by_cases h : e.cause.isUndeclared <;> simp [h]

section

variable {r : Resolution} {Γ : List Naming}

/-- Filing a name, or the function of a call, settles it. -/
theorem ofName_settled (h : r.scope.Selects r.bindings Γ) {id : NodeId}
    (ha : r.bindings.Awaits [id]) (kind : NameKind) (x : String) (pos : Position) :
    NameSettled (r.record (.ofName r.scope id kind x pos)).bindings id (Naming.select? Γ x) ∧
      (r.record (.ofName r.scope id kind x pos)).undeclared =
        r.undeclared ++ (Expr.undeclared?.unselected Γ kind x pos).toList := by
  have hu := h.use? x
  unfold Finding.ofName Expr.undeclared?.unselected
  cases hΓ : Naming.select? Γ x with
  | none =>
    rw [hΓ] at hu
    simp only at hu
    rw [hu]
    refine ⟨ha.uses id (List.mem_singleton_self id), ?_⟩
    rw [undeclared_record_fault]
    rfl
  | some n =>
    rw [hΓ] at hu
    obtain ⟨u, e, hu, hd, he⟩ := hu
    rw [hu]
    refine ⟨⟨u, by simp [record, Bindings.fileUse], hd⟩, ?_⟩
    rw [undeclared_record_use]
    simp

/-- Filing a method call settles its receiver. -/
theorem ofSend_settled (h : r.scope.Selects r.bindings Γ) {id : NodeId}
    (ha : r.bindings.Awaits [id]) (receiver method : String) (pos : Position) :
    let r' := (Finding.ofSend? r.scope r.bindings id receiver method pos).toList.foldl record r
    ReceiverSettled r'.bindings r'.errors id receiver method pos (Naming.select? Γ receiver) ∧
      r'.undeclared =
        r.undeclared ++ (Expr.undeclared?.unselected Γ .variable receiver pos).toList := by
  have hu := h.use? receiver
  have hnone := ha.sends id (List.mem_singleton_self id)
  unfold Finding.ofSend? Expr.undeclared?.unselected
  cases hΓ : Naming.select? Γ receiver with
  | none =>
    rw [hΓ] at hu
    simp only at hu
    simp only [hu, Option.toList_some, List.foldl_cons, List.foldl_nil]
    refine ⟨hnone, ?_⟩
    rw [undeclared_record_fault]
    rfl
  | some n =>
    rw [hΓ] at hu
    obtain ⟨u, e, hu, hd, he⟩ := hu
    simp only [hu, he, Option.bind_some, Option.isSome_some, if_true, Option.toList_none,
      List.append_nil]
    cases ht : e.type.referent? with
    | none =>
      simp only [Option.toList_some, List.foldl_cons, List.foldl_nil]
      refine ⟨⟨u.entry, e, hd, he, ?_⟩, ?_⟩
      · rw [ht]
        exact ⟨hnone, by simp [record]⟩
      · rw [undeclared_record_fault]
        simp [BindingFault.isUndeclared]
    | some cls =>
      cases hr : r.bindings.record? cls with
      | none =>
        simp only [hr, Option.map_none, Option.toList_none, List.foldl_nil]
        refine ⟨⟨u.entry, e, hd, he, ?_⟩, trivial⟩
        simp only [ht, hr]
        exact hnone
      | some record =>
        simp only [hr, Option.map_some, Option.toList_some, List.foldl_cons, List.foldl_nil]
        cases hm : record.members[method]? with
        | none =>
          refine ⟨⟨u.entry, e, hd, he, ?_⟩, ?_⟩
          · have hr' : (r.record (.fault ⟨pos, .noMethod cls method⟩)).bindings.record? cls =
                some record := hr
            simp only [ht, hr', hm]
            exact ⟨hnone, by simp [Resolution.record]⟩
          · rw [undeclared_record_fault]
            simp [BindingFault.isUndeclared]
        | some m =>
          refine ⟨⟨u.entry, e, hd, he, ?_⟩, rfl⟩
          have hr' : (r.record (.send id ⟨u, m⟩)).bindings.record? cls = some record := hr
          simp only [ht, hr', hm]
          exact ⟨⟨u, m⟩, by simp [Resolution.record, Bindings.fileSend], rfl, rfl⟩

theorem undeclared_ofClass (r : Resolution) (id : NodeId) (cls : String) (pos : Position) :
    (r.record (.ofClass r.scope r.bindings id cls pos)).undeclared = r.undeclared := by
  unfold Finding.ofClass
  split
  · rfl
  · rw [undeclared_record_fault]
    simp [BindingFault.isUndeclared]

end

end Resolution

namespace Expr

/-- The places of arguments. -/
def placesOfArgs (Γ : List Naming) (es : List Expr) : List (List Naming × Expr) :=
  (partsOfArgs es).map fun part => (Γ, part)

theorem placesOfArgs_cons (Γ : List Naming) (e : Expr) (es : List Expr) :
    placesOfArgs Γ (e :: es) = e.places Γ ++ placesOfArgs Γ es := by
  simp [placesOfArgs, places, partsOfArgs]

end Expr

namespace Resolution

theorem bindArgs_resolves {Γ : List Naming} (es : List Expr)
    (ih : ∀ a ∈ es, ∀ r : Resolution, r.scope.Selects r.bindings Γ → r.bindings.Awaits a.ids →
      Resolves a.ids (a.places Γ) r (r.bindExpr a))
    (r : Resolution) (h : r.scope.Selects r.bindings Γ)
    (ha : r.bindings.Awaits (Expr.idsOfArgs es)) :
    Resolves (Expr.idsOfArgs es) (Expr.placesOfArgs Γ es) r (r.bindArgs es) := by
  induction es generalizing r with
  | nil => exact .of_quiet (Binds.refl _ r) rfl
  | cons e es ihs =>
    have hb := (binds_bindExpr e r).bindings
    have hfirst := ih e (List.mem_cons_self ..) r h ha.left
    have hrest := ihs (fun a ha => ih a (List.mem_cons_of_mem _ ha)) (r.bindExpr e)
      (by rw [bindExpr_scope]; exact h.grows ha.left hb) (ha.right hb)
    rw [Expr.placesOfArgs_cons]
    exact hfirst.append hrest ha

/-- Binding an expression settles all that it refers to. -/
theorem bindExpr_resolves {Γ : List Naming} (e : Expr) (r : Resolution)
    (h : r.scope.Selects r.bindings Γ) (ha : r.bindings.Awaits e.ids) :
    Resolves e.ids (e.places Γ) r (r.bindExpr e) := by
  induction e generalizing r with
  | lit value pos => exact .of_plain r Γ rfl trivial rfl
  | name id x pos =>
    obtain ⟨hs, hu⟩ := ofName_settled h ha .variable x pos
    exact .single (binds_ofName r id .variable x pos) (by simp [Expr.id?, Expr.ids]) hs hu
  | binary op left right pos ihl ihr =>
    have hb := (binds_bindExpr left r).bindings
    have hleft := ihl r h ha.left
    have hright := ihr (r.bindExpr left) (by rw [bindExpr_scope]; exact h.grows ha.left hb)
      (ha.right hb)
    rw [bindExpr_binary]
    have hall := (Resolves.of_plain r Γ (e := .binary op left right pos) rfl trivial rfl).append
      (hleft.append hright ha) ha
    simpa [Expr.places, Expr.parts, Expr.ids] using hall
  | not operand pos ih =>
    exact (Resolves.of_plain r Γ (e := .not operand pos) rfl trivial rfl).append (ih r h ha) ha
  | cond test yes no pos iht ihy ihn =>
    have hbt := (binds_bindExpr test r).bindings
    have hat : r.bindings.Awaits (test.ids ++ (yes.ids ++ no.ids)) := by
      rw [← List.append_assoc]
      exact ha
    have hby := (binds_bindExpr yes (r.bindExpr test)).bindings
    have hay := hat.right hbt
    have hs : r.scope.Selects (r.bindExpr test).bindings Γ := h.grows hat.left hbt
    have htest := iht r h hat.left
    have hyes := ihy (r.bindExpr test) (by rw [bindExpr_scope]; exact hs) hay.left
    have hno := ihn ((r.bindExpr test).bindExpr yes)
      (by rw [bindExpr_scope, bindExpr_scope]; exact hs.grows hay.left hby) (hay.right hby)
    rw [bindExpr_cond]
    have hall := (Resolves.of_plain r Γ (e := .cond test yes no pos) rfl trivial rfl).append
      (htest.append (hyes.append hno hay) hat) hat
    simpa [Expr.places, Expr.parts, Expr.ids] using hall
  | print operand pos ih =>
    exact (Resolves.of_plain r Γ (e := .print operand pos) rfl trivial rfl).append (ih r h ha) ha
  | call id callee args pos ih =>
    have ha' : r.bindings.Awaits ([id] ++ Expr.idsOfArgs args) := ha
    have hb := binds_ofName r id .function callee pos
    obtain ⟨hs, hu⟩ := ofName_settled h ha'.left .function callee pos
    have hone : Resolves [id] [(Γ, .call id callee args pos)] r _ :=
      .single hb (by simp [Expr.id?]) hs hu
    rw [bindExpr_call]
    exact hone.append (bindArgs_resolves args ih _
      (by rw [record_scope]; exact h.grows ha'.left hb.bindings) (ha'.right hb.bindings)) ha'
  | send id receiver method args pos ih =>
    have ha' : r.bindings.Awaits ([id] ++ Expr.idsOfArgs args) := ha
    have hb := binds_ofSend r id receiver method pos
    obtain ⟨hs, hu⟩ := ofSend_settled h ha'.left receiver method pos
    have hone : Resolves [id] [(Γ, .send id receiver method args pos)] r _ :=
      .single hb (by simp [Expr.id?]) hs hu
    rw [bindExpr_send]
    exact hone.append (bindArgs_resolves args ih _
      (by rw [foldl_record_scope]; exact h.grows ha'.left hb.bindings) (ha'.right hb.bindings)) ha'
  | new id cls args pos ih =>
    have ha' : r.bindings.Awaits ([id] ++ Expr.idsOfArgs args) := ha
    have hb := binds_ofClass r id cls pos
    have hone : Resolves [id] [(Γ, .new id cls args pos)] r _ :=
      .single hb (by simp [Expr.id?]) trivial
        (by rw [undeclared_ofClass]; simp [Expr.undeclared?])
    rw [bindExpr_new]
    exact hone.append (bindArgs_resolves args ih _
      (by rw [record_scope]; exact h.grows ha'.left hb.bindings) (ha'.right hb.bindings)) ha'

/-! Steps that report no missing name. -/

theorem undeclared_report (r : Resolution) (pos : Position) {cause : BindingFault}
    (h : cause.isUndeclared = false) : (r.report pos cause).undeclared = r.undeclared := by
  simp [undeclared, report, List.filter_append, h]

@[simp]
theorem undeclared_checkType (r : Resolution) (a : WrittenType) :
    (r.checkType a).undeclared = r.undeclared := by
  unfold checkType
  split
  · exact undeclared_report r _ rfl
  · rfl

@[simp]
theorem undeclared_checkSignature (r : Resolution) (ps : List Binder) (ret : WrittenType) :
    (r.checkSignature ps ret).undeclared = r.undeclared := by
  have types : ∀ (ps : List Binder) (r : Resolution),
      (ps.foldl (fun r p => r.checkType p.type) r).undeclared = r.undeclared := by
    intro ps
    induction ps with
    | nil => intro r; rfl
    | cons p ps ih => intro r; simp [ih]
  simp [checkSignature, types]

theorem undeclared_declare (r : Resolution) (node : NodeId) (name : String) (kind : NameKind)
    (type : Ty) (offset : Int) (pos : Position) :
    (r.declare node name kind type offset pos).undeclared = r.undeclared := by
  unfold declare
  simp only
  split
  · rfl
  · exact undeclared_report _ pos rfl

/-! Declarations. -/

theorem declare_selects {before : List (String × NodeId)} {Γ : List Naming} (r : Resolution)
    (node : NodeId) (name : String) (kind : NameKind) (type : Ty) (offset : Int) (pos : Position)
    (h : r.scope.Selects r.bindings (.ofList before :: Γ)) (ha : r.bindings.Awaits [node]) :
    let r' := r.declare node name kind type offset pos
    r'.scope.Selects r'.bindings (.ofList (before ++ [(name, node)]) :: Γ) := by
  have hg := (binds_add r node { level := r.scope.level, type, offset }).bindings
  have hdecl := getElem?_declarations_add r node { level := r.scope.level, type, offset } node
  rw [if_pos rfl] at hdecl
  have hs := (h.grows ha hg).declare? (x := name) hdecl (entry_add r.bindings _)
  unfold declare
  simp only
  cases hd : Scope.declare? _ name _ with
  | none =>
    rw [show Scope.declare? r.scope name r.bindings.entries.size = none from hd] at hs
    exact hs
  | some s =>
    rw [show Scope.declare? r.scope name r.bindings.entries.size = some s from hd] at hs
    exact hs

theorem declareLocal_selects {before : List (String × NodeId)} {Γ : List Naming} (r : Resolution)
    (node : NodeId) (name : String) (kind : NameKind) (type : Ty) (pos : Position)
    (h : r.scope.Selects r.bindings (.ofList before :: Γ)) (ha : r.bindings.Awaits [node]) :
    let r' := r.declareLocal node name kind type pos
    r'.scope.Selects r'.bindings (.ofList (before ++ [(name, node)]) :: Γ) :=
  declare_selects _ node name kind type _ pos (h.rescope (Scope.names_takeDecl r.scope)) ha

theorem declareLocal_resolves (r : Resolution) (node : NodeId) (name : String) (kind : NameKind)
    (type : Ty) (pos : Position) : Resolves [node] [] r (r.declareLocal node name kind type pos) :=
  .of_quiet (binds_declareLocal r node name kind type pos) (undeclared_declare ..)

theorem declareParams_resolves {Γ : List Naming} (ps : List Binder) (r : Resolution)
    (before : List (String × NodeId)) (h : r.scope.Selects r.bindings (.ofList before :: Γ))
    (ha : r.bindings.Awaits (ps.map Binder.id)) :
    (ps.foldl declareParam r).scope.Selects (ps.foldl declareParam r).bindings
        (.ofList (before ++ ps.map Binder.named) :: Γ) ∧
      Resolves (ps.map Binder.id) [] r (ps.foldl declareParam r) := by
  induction ps generalizing r before with
  | nil => exact ⟨by simpa using h, .of_quiet (Binds.refl _ r) rfl⟩
  | cons p ps ih =>
    have ha' : r.bindings.Awaits ([p.id] ++ ps.map Binder.id) := ha
    have hb := binds_declareParam r p
    have hs := declare_selects { r with scope := r.scope.takeParam.2 } p.id p.name .parameter
      p.type.lower r.scope.takeParam.1 p.pos (h.rescope (Scope.names_takeParam r.scope)) ha'.left
    obtain ⟨hs', hr⟩ := ih (r.declareParam p) _ hs (ha'.right hb.bindings)
    have hone : Resolves [p.id] [] r (r.declareParam p) := .of_quiet hb (undeclared_declare ..)
    refine ⟨?_, hone.append hr ha'⟩
    rw [List.append_assoc] at hs'
    exact hs'

/-- What is said of declarations in a frame: they join it, and the places in them
are settled. -/
def DeclsResolve (ds : List Decl) : Prop :=
  ∀ (r : Resolution) (before : List (String × NodeId)) (Γ : List Naming),
    r.scope.Selects r.bindings (.ofList before :: Γ) → r.bindings.Awaits (Decl.idsOfAll ds) →
    (bindDecls ds r).scope.Selects (bindDecls ds r).bindings
        (.ofList (before ++ ds.map Decl.named) :: Γ) ∧
      Resolves (Decl.idsOfAll ds) (Decl.placesOfAll Γ before ds) r (bindDecls ds r)

theorem bindRoutine_resolves (params : List Binder) (decls : List Decl) (body : Expr)
    (hds : DeclsResolve decls) (r : Resolution) {Γ : List Naming}
    (h : r.scope.Selects r.bindings Γ)
    (ha : r.bindings.Awaits (params.map Binder.id ++ (Decl.idsOfAll decls ++ body.ids))) :
    let r' := r.bindRoutine params decls body
    r'.scope.Selects r'.bindings Γ ∧
      Resolves (params.map Binder.id ++ (Decl.idsOfAll decls ++ body.ids))
        (routinePlaces Γ params decls body) r r' := by
  have hempty : r.bindings.Declares ∅ (.ofList []) := by
    intro x
    simp [Naming.ofList]
  -- The states after the parameters, the declarations and the body.
  obtain ⟨hs₁, hr₁⟩ := declareParams_resolves params r.enter [] (h.push hempty) ha.left
  have ha₁ : (params.foldl declareParam r.enter).bindings.Awaits
      (Decl.idsOfAll decls ++ body.ids) :=
    ha.right hr₁.bindings
  obtain ⟨hs₂, hr₂⟩ := hds _ _ _ hs₁ ha₁.left
  have ha₂ := ha₁.right hr₂.bindings
  have hr₃ := bindExpr_resolves body _ hs₂ ha₂
  have hs₃ := hs₂.grows ha₂ hr₃.bindings
  refine ⟨?_, (hr₁.append (hr₂.append hr₃ ha₁) ha).rescope _⟩
  apply Scope.Selects.pop
  rw [bindExpr_scope]
  exact hs₃

theorem bindDecls_resolves :
    (∀ d : Decl, DeclsResolve [d]) ∧ ∀ ds : List Decl, DeclsResolve ds := by
  apply Decl.induction
  · intro id name type init pos r before Γ h ha
    simp only [Decl.idsOfAll, Decl.ids, List.append_nil] at ha ⊢
    have hinit := bindExpr_resolves init r h ha.left
    have ha₁ : (r.bindExpr init).bindings.Awaits ([] ++ [id]) := ha.right hinit.bindings
    have htype : Resolves [] [] _ ((r.bindExpr init).checkType type) :=
      .of_quiet (binds_checkType _ type) (undeclared_checkType _ type)
    have ha₂ := ha₁.right htype.bindings
    have hdecl := declareLocal_resolves ((r.bindExpr init).checkType type) id name .variable
      type.lower pos
    constructor
    · refine declareLocal_selects _ id name .variable type.lower pos ?_ ha₂
      rw [checkType_scope, bindExpr_scope]
      exact (h.grows ha.left hinit.bindings).grows ha₁.left htype.bindings
    · have hall := hinit.append (htype.append hdecl ha₁) ha
      simpa [Decl.placesOfAll, Decl.places, bindDecls, bindDecl] using hall
  · intro id name params ret decls body pos ih r before Γ h ha
    have ha' : r.bindings.Awaits ([] ++ ([id] ++ (params.map Binder.id ++
        (Decl.idsOfAll decls ++ body.ids)))) := by
      simpa [Decl.idsOfAll, Decl.ids] using ha
    have hsig : Resolves [] [] r (r.checkSignature params ret) :=
      .of_quiet (binds_checkSignature r params ret) (undeclared_checkSignature r params ret)
    have ha₁ := ha'.right hsig.bindings
    have hdecl := declareLocal_resolves (r.checkSignature params ret) id name .function
      (.arrow (signatureOf params ret)) pos
    have hs := declareLocal_selects (r.checkSignature params ret) id name .function
      (.arrow (signatureOf params ret)) pos
      (by rw [checkSignature_scope]; exact h.grows ha'.left hsig.bindings) ha₁.left
    obtain ⟨hs', hinner⟩ := bindRoutine_resolves params decls body ih _ hs
      (ha₁.right hdecl.bindings)
    refine ⟨hs', ?_⟩
    have hall := hsig.append (hdecl.append hinner ha₁) ha'
    simpa [Decl.idsOfAll, Decl.ids, Decl.placesOfAll, Decl.places, routinePlaces, bindDecls,
      bindDecl, bindRoutine] using hall
  · intro r before Γ h _
    exact ⟨by simpa [bindDecls] using h, .of_quiet (Binds.refl _ r) rfl⟩
  · intro d ds ihd ihs r before Γ h ha
    have ha' : r.bindings.Awaits (Decl.idsOfAll [d] ++ Decl.idsOfAll ds) := by
      simpa [Decl.idsOfAll] using ha
    obtain ⟨hs, hd⟩ := ihd r before Γ h ha'.left
    obtain ⟨hs', hds⟩ := ihs _ _ Γ hs (ha'.right hd.bindings)
    constructor
    · rw [List.append_assoc] at hs'
      exact hs'
    · have hall := hd.append hds ha'
      simpa [Decl.idsOfAll, Decl.placesOfAll, bindDecls] using hall

/-! The bodies of classes. -/

theorem bindMethods_resolves {Γ : List Naming} (ms : List MethodDecl) (r : Resolution)
    (h : r.scope.Selects r.bindings Γ)
    (ha : r.bindings.Awaits (ms.flatMap MethodDecl.innerIds)) :
    let r' := ms.foldl bindMethod r
    r'.scope.Selects r'.bindings Γ ∧
      Resolves (ms.flatMap MethodDecl.innerIds)
        (ms.flatMap fun m => routinePlaces Γ m.params m.decls m.body) r r' := by
  induction ms generalizing r with
  | nil => exact ⟨h, .of_quiet (Binds.refl _ r) rfl⟩
  | cons m ms ih =>
    obtain ⟨hs, hm⟩ := bindRoutine_resolves m.params m.decls m.body
      (bindDecls_resolves.2 m.decls) r h ha.left
    obtain ⟨hs', hms⟩ := ih _ hs (ha.right hm.bindings)
    exact ⟨hs', hm.append hms ha⟩

/-- Around the methods of a class is the frame of its members. -/
theorem bindClass_resolves {Γ : List Naming} {γ : Naming} (r : Resolution) (c : ClassDecl)
    (names : Names) (h : r.scope.Selects r.bindings Γ) (hn : r.bindings.Declares names γ)
    (ha : r.bindings.Awaits c.innerIds) :
    let r' := r.bindClass c names
    r'.scope.Selects r'.bindings Γ ∧ Resolves c.innerIds (c.places (γ :: Γ)) r r' := by
  obtain ⟨hs, hms⟩ := bindMethods_resolves c.methods (r.enter names) (h.push hn) ha
  exact ⟨hs.pop, hms.rescope _⟩

theorem bindClasses_resolves {Γ : List Naming} (cs : List ClassDecl) (names : List Names)
    (namings : List Naming) (r : Resolution) (hlen : names.length = cs.length)
    (h : r.scope.Selects r.bindings Γ) (hn : List.Forall₂ r.bindings.Declares names namings)
    (ha : r.bindings.Awaits (cs.flatMap ClassDecl.innerIds)) :
    let r' := bindClasses (cs.zip names) r
    r'.scope.Selects r'.bindings Γ ∧
      Resolves (cs.flatMap ClassDecl.innerIds)
        ((cs.zip namings).flatMap fun q => q.1.places (q.2 :: Γ)) r r' := by
  induction cs generalizing names namings r with
  | nil => exact ⟨h, .of_quiet (Binds.refl _ r) rfl⟩
  | cons c cs ih =>
    cases hn with
    | nil => cases hlen
    | @cons ns γ names namings hfirst hrest =>
      obtain ⟨hs, hc⟩ := bindClass_resolves r c ns h hfirst ha.left
      have hrest' : List.Forall₂ (r.bindClass c ns).bindings.Declares names namings :=
        hrest.imp fun _ _ hd => hd.grows ha.left hc.bindings
      obtain ⟨hs', hcs⟩ := ih names namings (r.bindClass c ns) (Nat.succ.inj hlen) hs hrest'
        (ha.right hc.bindings)
      exact ⟨hs', hc.append hcs ha⟩

end Resolution

end Classlet
