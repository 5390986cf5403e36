import Classlet.Proofs.Subtyping
import Classlet.Proofs.Typing

/-!
A class conforms to the classes above it. All fields and methods of a superclass
are at the same places in its subclasses, where each has a subtype of the inherited
one. So a field there has no other values than the inherited one, and a method takes
all arguments of the inherited one and has no other results. Hence an object of a
subclass does for one of the superclass, whichever of its methods is called.
-/

namespace Classlet

/-! Members that are not redeclared keep their places. -/

section Placed

variable {α : Type}

theorem getElem?_placed_of_ne {x y : String} (hne : y ≠ x) (b : α) {l : List (String × α)} {i : Nat}
    {a : α} (h : l[i]? = some (x, a)) : (placed y b l)[i]? = some (x, a) := by
  induction l generalizing i with
  | nil => simp at h
  | cons p rest ih =>
    obtain ⟨z, c⟩ := p
    by_cases hz : z = y
    · simp only [placed, hz, if_true]
      cases i with
      | zero =>
        simp only [List.getElem?_cons_zero, Option.some.injEq, Prod.mk.injEq] at h
        exact absurd (hz.symm.trans h.1) hne
      | succ i => simpa using h
    · simp only [placed, hz, if_false]
      cases i with
      | zero => simpa using h
      | succ i => simpa using ih (by simpa using h)

theorem getElem?_foldl_placed {β : Type} (name : β → String) (item : β → α) (bs : List β)
    {l : List (String × α)} {i : Nat} {x : String} {a : α} (hx : x ∉ bs.map name)
    (h : l[i]? = some (x, a)) :
    (bs.foldl (fun l b => placed (name b) (item b) l) l)[i]? = some (x, a) := by
  induction bs generalizing l with
  | nil => exact h
  | cons b bs ih =>
    simp only [List.map_cons, List.mem_cons, not_or] at hx
    exact ih hx.2 (getElem?_placed_of_ne (Ne.symm hx.1) (item b) h)

theorem names_foldl_placed {β : Type} (name : β → String) (item : β → α) (bs : List β)
    (l : List (String × α)) :
    l.map Prod.fst <+: (bs.foldl (fun l b => placed (name b) (item b) l) l).map Prod.fst := by
  induction bs generalizing l with
  | nil => exact List.prefix_refl _
  | cons b bs ih => exact (names_placed (name b) (item b) l).trans (ih _)

theorem lookup_foldl_placed {β : Type} (name : β → String) (item : β → α) (bs : List β)
    (hn : (bs.map name).Nodup) (l : List (String × α)) (x : String) :
    (bs.foldl (fun l b => placed (name b) (item b) l) l).lookup x =
      match bs.find? fun b => name b = x with
      | some b => some (item b)
      | none => l.lookup x := by
  induction bs generalizing l with
  | nil => rfl
  | cons b bs ih =>
    simp only [List.map_cons, List.nodup_cons] at hn
    rw [List.foldl_cons, ih hn.2, lookup_placed]
    by_cases hb : name b = x
    · have hrest : (bs.find? fun b => name b = x) = none := by
        rw [List.find?_eq_none]
        intro c hc hcx
        exact hn.1 (List.mem_map.mpr ⟨c, hc, (of_decide_eq_true hcx).trans hb.symm⟩)
      simp [hb, hrest]
    · simp [hb, Ne.symm hb]

end Placed

/-- Takes all arguments that the other signature takes, and has no other
results. -/
structure Signature.Conforms (h : Ancestry) (s s' : Signature Ty) : Prop where
  params : List.Forall₂ (fun a a' => a'.Embeds h a) s.params s'.params
  ret : s.ret.Embeds h s'.ret

/-- A list of types that is compared against the direction. -/
theorem forall₂_of_compareList {h : Ancestry} {as bs : List Ty} (hlen : as.length = bs.length)
    (hc : Ty.compareList h .contra as bs) : List.Forall₂ (fun a a' => a'.Embeds h a) as bs := by
  induction as generalizing bs with
  | nil =>
    obtain rfl : bs = [] := List.length_eq_zero_iff.mp hlen.symm
    exact List.Forall₂.nil
  | cons a as ih =>
    cases bs with
    | nil => simp at hlen
    | cons b bs =>
      simp only [Ty.compareList, Bool.and_eq_true] at hc
      exact List.Forall₂.cons (Ty.embeds_of_compare.2 hc.1) (ih (by simpa using hlen) hc.2)

theorem Signature.conforms_of_subtypeOf {h : Ancestry} {s s' : Signature Ty}
    (hs : s.subtypeOf h s') : s.Conforms h s' := by
  obtain ⟨ps, r⟩ := s
  obtain ⟨qs, u⟩ := s'
  simp only [Signature.subtypeOf, Ty.compareSignature, Variance.flip, Bool.and_eq_true,
    beq_iff_eq] at hs
  exact ⟨forall₂_of_compareList hs.1.1 hs.2, Ty.embeds_of_compare.1 hs.1.2⟩

/-- All members of the other layout are at the same places in this one, with
subtypes of their types. -/
structure Layout.Refines (h : Ancestry) (l l' : Layout) : Prop where
  fields : ∀ (i : Nat) x t', l'.fields[i]? = some (x, t') →
    ∃ t, l.fields[i]? = some (x, t) ∧ t.subtypeOf h t'
  methods : ∀ (j : Nat) x m', l'.methods[j]? = some (x, m') →
    ∃ m, l.methods[j]? = some (x, m) ∧ m.decl.signature.subtypeOf h m'.decl.signature

theorem Layout.Refines.refl (h : Ancestry) (l : Layout) : l.Refines h l :=
  ⟨fun _ _ t ht => ⟨t, ht, Ty.subtypeOf_refl h t⟩,
    fun _ _ m hm => ⟨m, hm, Signature.subtypeOf_refl h _⟩⟩

theorem Layout.Refines.trans {h : Ancestry} {l l' l'' : Layout} (hl : l.Refines h l')
    (hl' : l'.Refines h l'') : l.Refines h l'' := by
  constructor
  · intro i x t'' ht''
    obtain ⟨t', ht', hs'⟩ := hl'.fields i x t'' ht''
    obtain ⟨t, ht, hs⟩ := hl.fields i x t' ht'
    exact ⟨t, ht, Ty.subtypeOf_trans hs hs'⟩
  · intro j x m'' hm''
    obtain ⟨m', hm', hs'⟩ := hl'.methods j x m'' hm''
    obtain ⟨m, hm, hs⟩ := hl.methods j x m' hm'
    exact ⟨m, hm, Signature.subtypeOf_trans hs hs'⟩

/-- The layout of a class below one with the other layout. -/
structure Layout.Conforms (h : Ancestry) (l l' : Layout) : Prop where
  fields : ∀ (i : Nat) x t', l'.fields[i]? = some (x, t') →
    ∃ t, l.fields[i]? = some (x, t) ∧ t.Embeds h t'
  methods : ∀ (j : Nat) x m', l'.methods[j]? = some (x, m') →
    ∃ m, l.methods[j]? = some (x, m) ∧ m.decl.signature.Conforms h m'.decl.signature

theorem Layout.Refines.conforms {h : Ancestry} {l l' : Layout} (hl : l.Refines h l') :
    l.Conforms h l' := by
  constructor
  · intro i x t' ht'
    obtain ⟨t, ht, hs⟩ := hl.fields i x t' ht'
    exact ⟨t, ht, Ty.embeds_of_subtypeOf hs⟩
  · intro j x m' hm'
    obtain ⟨m, hm, hs⟩ := hl.methods j x m' hm'
    exact ⟨m, hm, Signature.conforms_of_subtypeOf hs⟩

/-- The place of a name in a list without repetitions. -/
theorem idxOf_of_getElem? {α : Type} {l : List (String × α)} (hn : (l.map Prod.fst).Nodup) {i : Nat}
    {x : String} {a : α} (h : l[i]? = some (x, a)) : (l.map Prod.fst).idxOf x = i := by
  obtain ⟨hi, hx⟩ := List.getElem?_eq_some_iff.mp h
  have hi' : i < (l.map Prod.fst).length := by simpa using hi
  have hget : (l.map Prod.fst)[i] = x := by simp [hx]
  rw [← hget]
  exact hn.idxOf_getElem i hi'

/-- A place of a prefix of the names is a place of all names. -/
theorem getElem?_of_names {α : Type} {l l' : List (String × α)}
    (hp : l'.map Prod.fst <+: l.map Prod.fst) {i : Nat} {x : String} {a' : α}
    (h : l'[i]? = some (x, a')) : ∃ a, l[i]? = some (x, a) := by
  have hx : (l.map Prod.fst)[i]? = some x :=
    getElem?_of_prefix hp (by rw [List.getElem?_map, h]; rfl)
  rw [List.getElem?_map, Option.map_eq_some_iff] at hx
  obtain ⟨⟨y, a⟩, ha, rfl⟩ := hx
  exact ⟨a, ha⟩

namespace TypingContext

variable {c : TypingContext} {d : ClassDecl} {own base : Layout}

/-- The fields that are overridden without a fault are subtypes of the inherited
ones. -/
theorem fields_of_misfits (hshapes : c.shapes? d = some (own.shape, base.shape))
    (hm : c.misfits d = []) {f : Binder} (hf : f ∈ d.fields) {e : Entry}
    (hd : c.bindings.declared? f.id = some e) {i : Nat} (hi : e.fieldPosition? = some i)
    {x x' : String} {t t' : Ty} (ht : own.fields[i]? = some (x, t))
    (ht' : base.fields[i]? = some (x', t')) : t.subtypeOf c.ancestry t' := by
  simp only [misfits, hshapes, List.append_eq_nil_iff, List.filterMap_eq_nil_iff] at hm
  have hone := hm.1 f hf
  simpa [fieldOverride?, hd, hi, Layout.shape, ht, ht'] using hone

theorem methods_of_misfits (hshapes : c.shapes? d = some (own.shape, base.shape))
    (hm : c.misfits d = []) {m : MethodDecl} (hmem : m ∈ d.methods) {slot : MethodSlot}
    (hs : c.bindings.slots[m.id]? = some slot) {x x' : String} {k k' : Implementation}
    (hk : own.methods[slot.index]? = some (x, k))
    (hk' : base.methods[slot.index]? = some (x', k')) :
    k.decl.signature.subtypeOf c.ancestry k'.decl.signature := by
  simp only [misfits, hshapes, List.append_eq_nil_iff, List.filterMap_eq_nil_iff] at hm
  have hone := hm.2 m hmem
  simpa [methodOverride?, hs, Layout.shape, hk, hk'] using hone

/-- A class without misfits refines its superclass. -/
theorem over_refines {names : List String} {earlier : List ClassDecl}
    (hl : ClassLaid c.bindings names d earlier (d.over base))
    (hshapes : c.shapes? d = some ((d.over base).shape, base.shape)) (hm : c.misfits d = []) :
    (d.over base).Refines c.ancestry base := by
  have hdistinct := List.nodup_append.mp hl.distinct
  have hfnames : base.fields.map Prod.fst <+: (d.over base).fields.map Prod.fst :=
    names_foldl_placed Binder.name _ d.fields base.fields
  have hmnames : base.methods.map Prod.fst <+: (d.over base).methods.map Prod.fst :=
    names_foldl_placed MethodDecl.name (Implementation.mk d.name) d.methods base.methods
  constructor
  · intro i x t' ht'
    by_cases hx : x ∈ d.fields.map Binder.name
    · -- The field is declared again, in the same place.
      obtain ⟨f, hf, rfl⟩ := List.mem_map.mp hx
      obtain ⟨t, ht⟩ := getElem?_of_names hfnames ht'
      obtain ⟨e, hd, hpos⟩ := hl.fields f hf
      rw [idxOf_of_getElem? hdistinct.1 ht] at hpos
      exact ⟨t, ht, fields_of_misfits hshapes hm hf hd hpos ht ht'⟩
    · exact ⟨t', getElem?_foldl_placed Binder.name _ d.fields hx ht', Ty.subtypeOf_refl _ _⟩
  · intro j x m' hm'
    by_cases hx : x ∈ d.methods.map MethodDecl.name
    · obtain ⟨m, hmem, rfl⟩ := List.mem_map.mp hx
      obtain ⟨k, hk⟩ := getElem?_of_names hmnames hm'
      obtain ⟨slot, hs, hpos⟩ := hl.slots m hmem
      rw [idxOf_of_getElem? hdistinct.2.1 hk] at hpos
      subst hpos
      exact ⟨k, hk, methods_of_misfits hshapes hm hmem hs hk hm'⟩
    · exact ⟨m', getElem?_foldl_placed MethodDecl.name (Implementation.mk d.name) d.methods hx hm',
        Signature.subtypeOf_refl _ _⟩

end TypingContext

namespace Program

variable {p : Program} {c : TypingContext} {t : Ty}

/-- The layout of a class that is found, and what is known of it. -/
theorem Resolved.laid {b : Bindings} {h : Ancestry} (hp : p.Resolved b h) {cls : String}
    {l : Layout} (hl : layout? p.classes.reverse cls = some l) :
    ∃ d earlier, class? p.classes.reverse cls = some (d, earlier) ∧ d ∈ p.classes ∧
      ClassLaid b (p.classes.map ClassDecl.name) d earlier l := by
  obtain ⟨d, earlier, hfound⟩ := layout?_isSome hl
  obtain ⟨l', hl'⟩ := hp.classes _ _ _ hfound
  have hlay := (layout?_eq hfound).trans hl'.layout
  rw [hl] at hlay
  cases hlay
  have hmem : d ∈ p.classes.reverse := (class?_suffix hfound).subset List.mem_cons_self
  exact ⟨d, earlier, hfound, List.mem_reverse.mp hmem, hl'⟩

theorem Resolved.shape_eq {b : Bindings} {h : Ancestry} (hp : p.Resolved b h) {cls : String}
    {l : Layout} (hl : layout? p.classes.reverse cls = some l) : b.shape? cls = some l.shape := by
  obtain ⟨d, earlier, hfound, -, hlaid⟩ := hp.laid hl
  obtain ⟨record, hr, -, he, -⟩ := hlaid.record
  rw [class?_name hfound] at hr
  simp [Bindings.shape?, hr, he, ClassShape.toTy, Ty.shape?]

theorem class?_of_suffix {classes rest : List ClassDecl} (hs : rest <:+ classes)
    (hn : (classes.map ClassDecl.name).Nodup) {cls : String} {r : ClassDecl × List ClassDecl}
    (hr : class? rest cls = some r) : class? classes cls = some r := by
  obtain ⟨pre, rfl⟩ := hs
  have hin : cls ∈ rest.map ClassDecl.name := class?_isSome.mp ⟨r.1, r.2, hr⟩
  rw [List.map_append, List.nodup_append] at hn
  have hnot : cls ∉ pre.map ClassDecl.name := fun hpre => hn.2.2 _ hpre _ hin rfl
  clear hn hin
  induction pre with
  | nil => exact hr
  | cons e pre ih =>
    simp only [List.map_cons, List.mem_cons, not_or] at hnot
    rw [List.cons_append, class?, if_neg (Ne.symm hnot.1)]
    exact ih hnot.2

theorem layout?_of_suffix {classes rest : List ClassDecl} (hs : rest <:+ classes)
    (hn : (classes.map ClassDecl.name).Nodup) {cls : String} {l : Layout}
    (hl : layout? rest cls = some l) : layout? classes cls = some l := by
  obtain ⟨d, earlier, hfound⟩ := layout?_isSome hl
  rw [layout?_eq (class?_of_suffix hs hn hfound), ← layout?_eq hfound]
  exact hl

/-- A class with a superclass is laid out over the layout of the superclass, and the shapes
that are compared are those of the two layouts. -/
theorem Resolved.laid_over (hp : p.Resolved c.bindings c.ancestry) {cls s : String}
    (hs : c.ancestry.parent? cls = some s) {l : Layout}
    (hl : layout? p.classes.reverse cls = some l) :
    ∃ d earlier base, class? p.classes.reverse cls = some (d, earlier) ∧ d ∈ p.classes ∧
      layout? p.classes.reverse s = some base ∧ l = d.over base ∧
      ClassLaid c.bindings (p.classes.map ClassDecl.name) d earlier (d.over base) ∧
      c.shapes? d = some ((d.over base).shape, base.shape) := by
  obtain ⟨d, earlier, hfound, hmem, hlaid⟩ := hp.laid hl
  have hpar : d.parent? = some s := by
    rw [hp.parents, hfound] at hs
    exact hs
  have hlay := hlaid.layout
  simp only [layout?, if_true, hpar, Option.map_eq_some_iff] at hlay
  obtain ⟨base, hbase, rfl⟩ := hlay
  have hsuffix : earlier <:+ p.classes.reverse :=
    (List.suffix_cons d earlier).trans (class?_suffix hfound)
  have hbase' := layout?_of_suffix hsuffix hp.distinct hbase
  obtain ⟨record, -, -, he, hk⟩ := hlaid.record
  refine ⟨d, earlier, base, hfound, hmem, hbase', rfl, hlaid, ?_⟩
  simp [TypingContext.shapes?, hk, hpar, hp.shape_eq hbase', he, ClassShape.toTy, Ty.shape?]

/-- In a program without a fault, a class refines its superclass. -/
theorem refines_parent (hp : p.Resolved c.bindings c.ancestry) (ht : c.ProgramTyped p t)
    {cls s : String} (hs : c.ancestry.parent? cls = some s) {l : Layout}
    (hl : layout? p.classes.reverse cls = some l) :
    ∃ l', layout? p.classes.reverse s = some l' ∧ l.Refines c.ancestry l' := by
  obtain ⟨d, earlier, base, -, hmem, hbase, rfl, hlaid, hshapes⟩ := hp.laid_over hs hl
  exact ⟨base, hbase, TypingContext.over_refines hlaid hshapes (ht.overrides d hmem)⟩

/-- A class refines every class above it. -/
theorem refines_below (hp : p.Resolved c.bindings c.ancestry) (ht : c.ProgramTyped p t)
    {cls s : String} (hs : c.ancestry.Below cls s) {l : Layout}
    (hl : layout? p.classes.reverse cls = some l) :
    ∃ l', layout? p.classes.reverse s = some l' ∧ l.Refines c.ancestry l' := by
  induction hs with
  | refl => exact ⟨l, hl, Layout.Refines.refl _ _⟩
  | tail _ hstep ih =>
    obtain ⟨l₁, hl₁, hr₁⟩ := ih
    obtain ⟨l₂, hl₂, hr₂⟩ := refines_parent hp ht hstep hl₁
    exact ⟨l₂, hl₂, hr₁.trans hr₂⟩

theorem conforms_below (hp : p.Resolved c.bindings c.ancestry) (ht : c.ProgramTyped p t)
    {cls s : String} (hs : c.ancestry.Below cls s) {l : Layout}
    (hl : layout? p.classes.reverse cls = some l) :
    ∃ l', layout? p.classes.reverse s = some l' ∧ l.Conforms c.ancestry l' := by
  obtain ⟨l', hl', hr⟩ := refines_below hp ht hs hl
  exact ⟨l', hl', hr.conforms⟩

end Program

/-! The method that a class answers with. -/

/-- The layout of a class lists the methods that it answers with. -/
theorem lookup_methods {classes : List ClassDecl}
    (hn : ∀ d ∈ classes, (d.methods.map MethodDecl.name).Nodup) {cls : String} {l : Layout}
    (hl : layout? classes cls = some l) (x : String) :
    l.methods.lookup x = nearest? classes cls x := by
  induction classes generalizing cls l with
  | nil => simp [layout?] at hl
  | cons d earlier ih =>
    have hd := hn d (by simp)
    have hearlier := fun e he => hn e (List.mem_cons_of_mem _ he)
    by_cases hc : d.name = cls
    · simp only [layout?, hc, if_true] at hl
      simp only [nearest?, hc, if_true]
      cases hp : d.parent? with
      | none =>
        simp only [hp, Option.some.injEq] at hl
        subst hl
        simp only [ClassDecl.over, lookup_foldl_placed MethodDecl.name _ d.methods hd, hc]
        cases d.methods.find? fun m => m.name = x <;> rfl
      | some parent =>
        simp only [hp, Option.map_eq_some_iff] at hl
        obtain ⟨base, hbase, rfl⟩ := hl
        simp only [ClassDecl.over, lookup_foldl_placed MethodDecl.name _ d.methods hd, hc,
          Option.bind_some, ih hearlier hbase]
        cases d.methods.find? fun m => m.name = x <;> rfl
    · simp only [layout?, hc, if_false] at hl
      simp only [nearest?, hc, if_false]
      exact ih hearlier hl

theorem Program.Resolved.lookup_methods {p : Program} {b : Bindings} {h : Ancestry}
    (hp : p.Resolved b h) {cls : String} {l : Layout}
    (hl : layout? p.classes.reverse cls = some l) (x : String) :
    l.methods.lookup x = nearest? p.classes.reverse cls x := by
  refine Classlet.lookup_methods (fun d hd => ?_) hl x
  obtain ⟨earlier, hfound⟩ := class?_of_mem hp.distinct hd
  obtain ⟨l', hlaid⟩ := hp.classes _ _ _ hfound
  exact hlaid.methodNames

/-- The method that a class answers with is declared by a class above it. -/
theorem nearest?_owner {classes : List ClassDecl} (hn : (classes.map ClassDecl.name).Nodup)
    {h : Ancestry}
    (hpar : ∀ cls, h.parent? cls = (class? classes cls).bind fun q => q.1.parent?)
    {rest : List ClassDecl} (hs : rest <:+ classes) {cls x : String} {k : Implementation}
    (hk : nearest? rest cls x = some k) :
    h.Below cls k.owner ∧ k.decl.name = x ∧
      ∃ d earlier, class? classes k.owner = some (d, earlier) ∧ k.decl ∈ d.methods := by
  induction rest generalizing cls with
  | nil => simp [nearest?] at hk
  | cons d earlier ih =>
    have hearlier : earlier <:+ classes := (List.suffix_cons d earlier).trans hs
    by_cases hc : d.name = cls
    · have hfound : class? classes cls = some (d, earlier) :=
        Program.class?_of_suffix hs hn (by simp [class?, hc])
      simp only [nearest?, hc, if_true] at hk
      split at hk
      · rename_i m hm
        cases hk
        have hname : m.name = x := by simpa using List.find?_some hm
        exact ⟨Relation.ReflTransGen.refl, hname, d, earlier, hfound,
          List.mem_of_find?_eq_some hm⟩
      · obtain ⟨parent, hp, hk⟩ := Option.bind_eq_some_iff.mp hk
        obtain ⟨hbelow, hrest⟩ := ih hearlier hk
        refine ⟨Relation.ReflTransGen.head ?_ hbelow, hrest⟩
        rw [hpar, hfound]
        exact hp
    · simp only [nearest?, hc, if_false] at hk
      exact ih hearlier hk

end Classlet
