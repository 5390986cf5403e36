import Classlet.Proofs.Completeness
import Mathlib.Data.Int.ConditionallyCompleteOrder
import Mathlib.Order.ConditionallyCompleteLattice.Basic

/-!
The places of the members of classes, whatever else is wrong with a program. A
member that cannot be placed is reported and left out, so the members of a class
always follow some layout, and that layout continues the one of the superclass.
Hence the fields of every registered class are at the offsets from -1 downwards
and its methods in the slots from 0 upwards, each place once, and a subclass has
the names of its superclass at the same places.
-/

namespace Classlet

namespace Layout

/-- The names of the other layout are at the same places in this one. -/
structure Continues (l base : Layout) : Prop where
  fields : base.fields.map Prod.fst <+: l.fields.map Prod.fst
  methods : base.methods.map Prod.fst <+: l.methods.map Prod.fst

variable {l l' base : Layout}

theorem Continues.refl (l : Layout) : l.Continues l :=
  ⟨List.prefix_refl _, List.prefix_refl _⟩

theorem Continues.trans (h : l.Continues l') (h' : l'.Continues base) : l.Continues base :=
  ⟨h'.fields.trans h.fields, h'.methods.trans h.methods⟩

theorem continues_placeIn (l : Layout) (f : Binder) : (Resolution.placeIn l f).Continues l :=
  ⟨names_placed _ _ _, List.prefix_refl _⟩

theorem continues_placeMethodIn (l : Layout) (owner : String) (m : MethodDecl) :
    (Resolution.placeMethodIn l owner m).Continues l :=
  ⟨List.prefix_refl _, names_placed _ _ _⟩

/-- The place of a field whose layout is continued. -/
theorem Continues.lookup_field (h : l.Continues base) {x : String} {t : Ty}
    (hx : base.fields.lookup x = some t) :
    ∃ t', l.scope.lookup x = some (fieldEntry ((base.fields.map Prod.fst).idxOf x) t') ∧
      (x, t') ∈ l.fields := by
  have hmem : x ∈ base.fields.map Prod.fst := List.mem_map_of_mem (mem_of_lookup hx)
  obtain ⟨t', ht'⟩ := lookup_isSome (h.fields.subset hmem)
  refine ⟨t', ?_, mem_of_lookup ht'⟩
  rw [lookup_scope, ht', Option.map_some, Option.some_or, idxOf_of_prefix h.fields hmem]

/-- The slot of a method whose layout is continued. -/
theorem Continues.lookup_method (h : l.Continues base)
    (hn : (l.fields.map Prod.fst ++ l.methods.map Prod.fst).Nodup) {x : String}
    {k : Implementation} (hx : base.methods.lookup x = some k) :
    ∃ k', l.scope.lookup x = some (methodEntry ((base.methods.map Prod.fst).idxOf x) k') := by
  have hmem : x ∈ base.methods.map Prod.fst := List.mem_map_of_mem (mem_of_lookup hx)
  have hmem' : x ∈ l.methods.map Prod.fst := h.methods.subset hmem
  obtain ⟨k', hk'⟩ := lookup_isSome hmem'
  have hfields : l.fields.lookup x = none := by
    rw [lookup_eq_none]
    intro hfield
    exact (List.nodup_append.mp hn).2.2 x hfield x hmem' rfl
  refine ⟨k', ?_⟩
  rw [lookup_scope, hfields, hk', Option.map_none, Option.none_or, Option.map_some,
    idxOf_of_prefix h.methods hmem]

/-- An entry of the members is that of a field or that of a method. -/
theorem lookup_scope_cases {x : String} {e : Entry} (h : l.scope.lookup x = some e) :
    (∃ t, l.fields.lookup x = some t ∧ e = fieldEntry ((l.fields.map Prod.fst).idxOf x) t) ∨
      ∃ k, l.methods.lookup x = some k ∧ e = methodEntry ((l.methods.map Prod.fst).idxOf x) k := by
  rw [lookup_scope] at h
  cases hf : l.fields.lookup x with
  | some t =>
    rw [hf, Option.map_some, Option.some_or] at h
    exact Or.inl ⟨t, rfl, (Option.some.inj h).symm⟩
  | none =>
    rw [hf, Option.map_none, Option.none_or] at h
    obtain ⟨k, hk, rfl⟩ := Option.map_eq_some_iff.mp h
    exact Or.inr ⟨k, hk, rfl⟩

end Layout

namespace Resolution

/-! Members that are placed or refused. -/

section

variable {r : Resolution} {h : Header} {l : Layout}

/-- However a field is placed, the header follows a layout that continues the
one before. -/
theorem placeField_shaped (cls : String) (f : Binder) (hm : r.Shaped h l) :
    ∃ l', (r.placeField cls 1 h f).1.Shaped (r.placeField cls 1 h f).2 l' ∧ l'.Continues l := by
  rcases placeField_cases r cls h l f hm with ⟨-, heq⟩ | ⟨hx, heq⟩
  · rw [heq]
    exact ⟨l, hm.grows (binds_report r _ _).bindings, Layout.Continues.refl l⟩
  · rw [heq]
    exact ⟨_, fileField_shaped r h l f hm hx, Layout.continues_placeIn l f⟩

theorem placeFields_shaped (cls : String) (fs : List Binder) :
    ∀ (seen : List String) (r : Resolution) (h : Header) (l : Layout), r.Shaped h l →
      ∃ l', (placeFields cls 1 seen fs r h).1.Shaped (placeFields cls 1 seen fs r h).2 l' ∧
        l'.Continues l := by
  induction fs with
  | nil =>
    intro seen r h l hm
    exact ⟨l, hm, Layout.Continues.refl l⟩
  | cons f fs ih =>
    intro seen r h l hm
    have hm₁ : (r.checkType f.type).Shaped h l := hm.grows (binds_checkType r f.type).bindings
    simp only [placeFields]
    by_cases hs : seen.contains f.name
    · simp only [hs, if_true]
      exact ih _ _ _ l (hm₁.grows (binds_report _ _ _).bindings)
    · simp only [hs, Bool.false_eq_true, if_false]
      obtain ⟨l₁, hone, hcont⟩ := placeField_shaped cls f hm₁
      obtain ⟨l₂, hrest, hcont'⟩ := ih (f.name :: seen) _ _ _ hone
      exact ⟨l₂, hrest, hcont'.trans hcont⟩

theorem placeMethod_shaped (cls : String) (m : MethodDecl) (hm : r.Shaped h l) :
    ∃ l', (r.placeMethod cls 1 h m).1.Shaped (r.placeMethod cls 1 h m).2 l' ∧ l'.Continues l := by
  rcases placeMethod_cases r cls cls h l m hm with ⟨-, heq⟩ | ⟨hx, inherited, heq⟩
  · rw [heq]
    exact ⟨l, hm.grows (binds_report r _ _).bindings, Layout.Continues.refl l⟩
  · rw [heq]
    exact ⟨_, fileMethod_shaped r h l cls m inherited hm hx, Layout.continues_placeMethodIn l cls m⟩

theorem placeMethods_shaped (cls : String) (ms : List MethodDecl) :
    ∀ (seen : List String) (r : Resolution) (h : Header) (l : Layout), r.Shaped h l →
      ∃ l', (placeMethods cls 1 seen ms r h).1.Shaped (placeMethods cls 1 seen ms r h).2 l' ∧
        l'.Continues l := by
  induction ms with
  | nil =>
    intro seen r h l hm
    exact ⟨l, hm, Layout.Continues.refl l⟩
  | cons m ms ih =>
    intro seen r h l hm
    have hm₁ : (r.checkSignature m.params m.ret).Shaped h l :=
      hm.grows (binds_checkSignature r m.params m.ret).bindings
    simp only [placeMethods]
    by_cases hs : seen.contains m.name
    · simp only [hs, if_true]
      exact ih _ _ _ l (hm₁.grows (binds_report _ _ _).bindings)
    · simp only [hs, Bool.false_eq_true, if_false]
      obtain ⟨l₁, hone, hcont⟩ := placeMethod_shaped cls m hm₁
      obtain ⟨l₂, hrest, hcont'⟩ := ih (m.name :: seen) _ _ _ hone
      exact ⟨l₂, hrest, hcont'.trans hcont⟩

theorem placeMembers_shaped (c : ClassDecl) (hm : r.Shaped h l) :
    ∃ l', (r.placeMembers c 1 h).1.Shaped (r.placeMembers c 1 h).2 l' ∧ l'.Continues l := by
  obtain ⟨l₁, hfields, hcont⟩ := placeFields_shaped c.name c.fields [] r h l hm
  obtain ⟨l₂, hmethods, hcont'⟩ := placeMethods_shaped c.name c.methods [] _ _ _ hfields
  exact ⟨l₂, hmethods, hcont'.trans hcont⟩

end

/-! Registered classes. -/

/-- The record of a class is that of a class with the given layout. -/
structure Arranged (r : Resolution) (record : ClassRecord) (l : Layout) : Prop where
  shaped : r.Shaped { members := record.members, shape := l.shape } l
  entry : ∃ e, r.bindings.entry? record.entry = some e ∧ e.type = l.shape.toTy

/-- All registered classes follow layouts, and each layout continues that of the
superclass which is filed for the class. -/
structure Orderly (r : Resolution) : Prop where
  records : ∀ cls record, r.bindings.record? cls = some record → ∃ l, r.Arranged record l
  filed : ∀ (node : NodeId) (k : ClassBinding), r.bindings.classes[node]? = some k →
    ∃ e, r.bindings.entry? k.entry = some e
  inherits : ∀ (node : NodeId) (k : ClassBinding) (parent : String),
    r.bindings.classes[node]? = some k → k.parent? = some parent →
    ∀ cls record, r.bindings.record? cls = some record → record.entry = k.entry →
      ∃ l super base, r.Arranged record l ∧ r.bindings.record? parent = some super ∧
        r.Arranged super base ∧ l.Continues base

section

variable {r r' : Resolution}

theorem Arranged.grows {ids : List NodeId} {record : ClassRecord} {l : Layout}
    (h : r.Arranged record l) (hg : r.bindings.Grows ids r'.bindings) : r'.Arranged record l := by
  obtain ⟨e, he, htype⟩ := h.entry
  exact ⟨h.shaped.grows hg, e, hg.entries _ _ he, htype⟩

theorem Arranged.shape? {cls : String} {record : ClassRecord} {l : Layout}
    (h : r.Arranged record l) (hr : r.bindings.record? cls = some record) :
    r.bindings.shape? cls = some l.shape := by
  obtain ⟨e, he, htype⟩ := h.entry
  simp [Bindings.shape?, hr, he, htype, ClassShape.toTy, Ty.shape?]

/-- The members that a registered class is found to have. -/
theorem Arranged.member? {cls : String} {record : ClassRecord} {l : Layout}
    (h : r.Arranged record l) (hr : r.bindings.record? cls = some record) (x : String) :
    r.bindings.member? cls x = l.scope.lookup x := by
  rw [← h.shaped.member? x]
  simp only [Bindings.member?, hr, Resolution.member?, Option.bind_eq_bind, Option.bind_some]

theorem Orderly.binds {ids : List NodeId} (h : r.Orderly) (hb : Binds ids r r') : r'.Orderly := by
  have hrecord : ∀ cls, r'.bindings.record? cls = r.bindings.record? cls := by
    intro cls
    simp only [Bindings.record?, hb.records]
  refine ⟨?_, ?_, ?_⟩
  · intro cls record hr
    rw [hrecord] at hr
    obtain ⟨l, hl⟩ := h.records cls record hr
    exact ⟨l, hl.grows hb.bindings⟩
  · intro node k hk
    rw [hb.classes] at hk
    obtain ⟨e, he⟩ := h.filed node k hk
    exact ⟨e, hb.bindings.entries _ _ he⟩
  · intro node k parent hk hp cls record hr hentry
    rw [hb.classes] at hk
    rw [hrecord] at hr
    obtain ⟨l, super, base, hl, hs, hbase, hcont⟩ :=
      h.inherits node k parent hk hp cls record hr hentry
    exact ⟨l, super, base, hl.grows hb.bindings, by rw [hrecord]; exact hs,
      hbase.grows hb.bindings, hcont⟩

end

/-- A class starts from the layout of the superclass that is found, or from the
empty one. -/
theorem openHeader_shaped (r : Resolution) (c : ClassDecl) (h : r.Orderly) :
    ∃ base, (r.openHeader c).1.Shaped (r.openHeader c).2.1 base ∧
      ∀ parent, (r.openHeader c).2.2 = some parent →
        ∃ super, r.bindings.record? parent = some super ∧ r.Arranged super base := by
  have hb := openHeader_bindings r c
  have hempty : (r.openHeader c).1.Shaped {} {} := (matches_empty _).toShaped
  have hheader : (r.openHeader c).2 = ({ r with scope := r.scope.takeDecl.2 }.inherit c).2 := rfl
  unfold inherit at hheader
  cases hp : c.parent? with
  | none =>
    simp only [hp] at hheader
    rw [hheader]
    exact ⟨{}, hempty, fun parent hparent => by cases hparent⟩
  | some parent =>
    simp only [hp] at hheader
    cases hr : r.bindings.record? parent with
    | none =>
      simp only [hr] at hheader
      rw [hheader]
      exact ⟨{}, hempty, fun parent hparent => by cases hparent⟩
    | some super =>
      obtain ⟨base, hbase⟩ := h.records parent super hr
      simp only [hr, hbase.shape? hr, Option.getD_some] at hheader
      rw [hheader]
      refine ⟨base, ⟨?_, rfl, hbase.shaped.distinct, hbase.shaped.plain⟩, ?_⟩
      · rw [hb]
        exact hbase.shaped.members
      · intro parent' hparent
        cases hparent
        exact ⟨super, hr, hbase⟩

theorem length_declare? {s s' : Scope} {x : String} {id : EntryId} (h : s.declare? x id = some s') :
    s'.frames.length = s.frames.length := by
  unfold Scope.declare? at h
  split at h
  · cases h
  · rename_i f fs hs
    split at h
    · cases h
    · cases h
      rw [hs]
      rfl

theorem length_closeHeader (r : Resolution) (c : ClassDecl) (h : Header) (parent? : Option String)
    (offset : Int) :
    (r.closeHeader c h parent? offset).scope.frames.length = r.scope.frames.length := by
  unfold closeHeader
  simp only
  cases hd : Scope.declare? _ c.name _ with
  | none => rfl
  | some s => exact length_declare? hd

theorem length_takeDecl (s : Scope) : s.takeDecl.2.frames.length = s.frames.length := by
  unfold Scope.takeDecl
  split
  · rfl
  · rename_i f fs hs
    rw [hs]
    rfl

theorem length_layClass (r : Resolution) (c : ClassDecl) :
    (r.layClass c).1.scope.frames.length = r.scope.frames.length := by
  rw [layClass_eq, length_closeHeader, fillHeader_scope, length_takeDecl]

/-- Laying out a class keeps the classes in order, whether or not the class is
registered. -/
theorem layClass_orderly (r : Resolution) (c : ClassDecl) (hs : r.scope.frames.length = 1)
    (h : r.Orderly) : (r.layClass c).1.Orderly := by
  have hfill : r.fillHeader c = (r.openHeader c).1.placeMembers c 1 (r.openHeader c).2.1 := by
    simp [fillHeader, Scope.level, hs]
  obtain ⟨base, hbase, hparent⟩ := openHeader_shaped r c h
  obtain ⟨l, hl, hcont⟩ := placeMembers_shaped c hbase
  rw [← hfill] at hl
  have hgrows := (extends_layClass r c).bindings
  have hentry := (layClass_declared r c).2
  have hnew : (r.layClass c).1.Arranged (r.newRecord c) l := by
    refine ⟨⟨(extends_closed r c).bindings.lists hl.members, rfl, hl.distinct, hl.plain⟩, _, hentry,
      ?_⟩
    rw [hl.shape]
  refine ⟨?_, ?_, ?_⟩
  · intro cls record hr
    rcases layClass_record_cases hr with ⟨-, -, rfl⟩ | hr
    · exact ⟨l, hnew⟩
    · obtain ⟨l', hl'⟩ := h.records cls record hr
      exact ⟨l', hl'.grows hgrows⟩
  · intro node k hk
    rw [layClass_classes] at hk
    split at hk
    · cases hk
      exact ⟨_, hentry⟩
    · obtain ⟨e, he⟩ := h.filed node k hk
      exact ⟨e, hgrows.entries _ _ he⟩
  · intro node k parent hk hp cls record hr heq
    rw [layClass_classes] at hk
    split at hk
    · -- The class itself: its record is the new one.
      cases hk
      rcases layClass_record_cases hr with ⟨-, -, rfl⟩ | hr
      · obtain ⟨super, hsuper, hbase'⟩ := hparent parent hp
        exact ⟨l, super, base, hnew, hgrows.records _ _ hsuper, hbase'.grows hgrows, hcont⟩
      · obtain ⟨l', hl'⟩ := h.records cls record hr
        obtain ⟨e, he, -⟩ := hl'.entry
        exact absurd heq (ne_newRecord_entry he)
    · rcases layClass_record_cases hr with ⟨-, -, rfl⟩ | hr
      · obtain ⟨e, he⟩ := h.filed node k hk
        exact absurd heq.symm (ne_newRecord_entry he)
      · obtain ⟨l', super, base', hl', hsuper, hbase', hcont'⟩ :=
          h.inherits node k parent hk hp cls record hr heq
        exact ⟨l', super, base', hl'.grows hgrows, hgrows.records _ _ hsuper,
          hbase'.grows hgrows, hcont'⟩

theorem layClasses_orderly (cs : List ClassDecl) (r : Resolution) (hs : r.scope.frames.length = 1)
    (h : r.Orderly) : (layClasses cs r).1.Orderly := by
  induction cs generalizing r with
  | nil => exact h
  | cons c cs ih =>
    have hlen := (length_layClass r c).trans hs
    exact ih (r.layClass c).1 hlen (layClass_orderly r c hs h)

theorem orderly_enter (names : List String) :
    Orderly (Resolution.enter { classNames := names }) := by
  refine ⟨?_, ?_, ?_⟩
  · intro cls record hr
    simp [enter, Bindings.record?] at hr
  · intro node k hk
    simp [enter] at hk
  · intro node k parent hk
    simp [enter] at hk

end Resolution

open Resolution

/-- The classes of every program are in order, with or without faults. -/
theorem Program.laid_orderly (p : Program) : p.laid.1.Orderly :=
  layClasses_orderly p.classes p.opened rfl (orderly_enter (p.classes.map ClassDecl.name))

theorem Program.resolve_orderly (p : Program) : p.resolve.Orderly :=
  p.laid_orderly.binds p.binds_laid

/-! Places as numbers. -/

/-- The places in a list without repetitions. -/
theorem bijOn_idxOf {names : List String} (hn : names.Nodup) :
    Set.BijOn names.idxOf {x | x ∈ names} (Set.Iio names.length) := by
  refine ⟨?_, ?_, ?_⟩
  · intro x hx
    exact List.idxOf_lt_length_iff.mpr hx
  · intro x hx y hy hxy
    exact (List.idxOf_inj hx).mp hxy
  · intro i hi
    exact ⟨names[i], List.getElem_mem hi, hn.idxOf_getElem i hi⟩

/-- The offsets of fields, from -1 downwards. -/
theorem bijOn_fieldOffset (n : Nat) :
    Set.BijOn (fun i : Nat => -1 - (i : Int)) (Set.Iio n) (Set.Icc (-(n : Int)) (-1)) := by
  refine ⟨?_, ?_, ?_⟩
  · intro i hi
    simp only [Set.mem_Iio, Set.mem_Icc] at hi ⊢
    omega
  · intro i _ j _ hij
    simp only at hij
    omega
  · intro k hk
    simp only [Set.mem_Icc] at hk
    refine ⟨(-1 - k).toNat, ?_, ?_⟩
    · simp only [Set.mem_Iio]
      omega
    · simp only
      omega

theorem bijOn_slot (n : Nat) :
    Set.BijOn (fun i : Nat => (i : Int)) (Set.Iio n) (Set.Ico 0 (n : Int)) := by
  refine ⟨?_, ?_, ?_⟩
  · intro i hi
    simp only [Set.mem_Iio, Set.mem_Ico] at hi ⊢
    omega
  · intro i _ j _ hij
    simp only at hij
    omega
  · intro k hk
    simp only [Set.mem_Ico] at hk
    refine ⟨k.toNat, ?_, ?_⟩
    · simp only [Set.mem_Iio]
      omega
    · simp only
      omega

namespace Bindings

/-- A registered class has a field under a name. -/
def HasField (b : Bindings) (cls x : String) : Prop :=
  ∃ e, b.member? cls x = some e ∧ e.isMethod = false

/-- A registered class has a method under a name. -/
def HasMethod (b : Bindings) (cls x : String) : Prop :=
  ∃ e, b.member? cls x = some e ∧ e.isMethod = true

/-- The offset of the member that a class has under a name. -/
def place (b : Bindings) (cls x : String) : Int := ((b.member? cls x).map Entry.offset).getD 0

/-- The members of a class are at the places of the given shape: every field at
one of the offsets -1, -2 and so on, every method in one of the slots 0, 1 and so
on, and at every place the type that the shape has there. -/
structure LaysOut (b : Bindings) (cls : String) (members : Names) (shape : ClassShape) : Prop where
  entries : ∀ x ∈ members, ∃ e, b.member? cls x = some e ∧ e.level = 1
  fields : Set.BijOn (b.place cls) {x | b.HasField cls x}
    (Set.Icc (-(shape.fields.length : Int)) (-1))
  fieldTypes : ∀ x e (i : Nat), b.member? cls x = some e → e.isMethod = false →
    e.offset = -(i + 1 : Nat) → shape.fields[i]? = some e.type
  methods : Set.BijOn (b.place cls) {x | b.HasMethod cls x}
    (Set.Ico 0 (shape.methods.length : Int))
  methodTypes : ∀ x e (slot : Nat), b.member? cls x = some e → e.isMethod = true →
    e.offset = slot → (shape.methods[slot]?).map Ty.method = some e.type

/-- All members of one class are members of the other, of the same kind and at
the same places. -/
structure KeepsPlaces (b : Bindings) (cls parent : String) : Prop where
  members : ∀ x e, b.member? parent x = some e →
    ∃ e', b.member? cls x = some e' ∧ e'.isMethod = e.isMethod ∧ e'.offset = e.offset
  lengths : ∃ own inherited, b.shape? cls = some own ∧ b.shape? parent = some inherited ∧
    inherited.fields.length ≤ own.fields.length ∧ inherited.methods.length ≤ own.methods.length

end Bindings

section

variable {r : Resolution} {cls : String} {record : ClassRecord} {l : Layout}

/-- The fields of an arranged class are those of its layout. -/
theorem Resolution.Arranged.hasField_iff (h : r.Arranged record l)
    (hr : r.bindings.record? cls = some record) (x : String) :
    r.bindings.HasField cls x ↔ x ∈ l.fields.map Prod.fst := by
  constructor
  · rintro ⟨e, he, hkind⟩
    rw [h.member? hr] at he
    rcases Layout.lookup_scope_cases he with ⟨t, ht, -⟩ | ⟨k, -, rfl⟩
    · exact List.mem_map_of_mem (mem_of_lookup ht)
    · cases hkind
  · intro hx
    obtain ⟨t, ht⟩ := lookup_isSome hx
    obtain ⟨t', hscope, hmem⟩ := (Layout.Continues.refl l).lookup_field ht
    exact ⟨_, (h.member? hr x).trans hscope, h.shaped.plain _ hmem⟩

theorem Resolution.Arranged.hasMethod_iff (h : r.Arranged record l)
    (hr : r.bindings.record? cls = some record) (x : String) :
    r.bindings.HasMethod cls x ↔ x ∈ l.methods.map Prod.fst := by
  constructor
  · rintro ⟨e, he, hkind⟩
    rw [h.member? hr] at he
    rcases Layout.lookup_scope_cases he with ⟨t, ht, rfl⟩ | ⟨k, hk, -⟩
    · have hplain : t.isMethod = false := h.shaped.plain _ (mem_of_lookup ht)
      exact absurd (hplain.symm.trans hkind) Bool.false_ne_true
    · exact List.mem_map_of_mem (mem_of_lookup hk)
  · intro hx
    obtain ⟨k, hk⟩ := lookup_isSome hx
    obtain ⟨k', hscope⟩ := (Layout.Continues.refl l).lookup_method h.shaped.distinct hk
    exact ⟨_, (h.member? hr x).trans hscope, rfl⟩

/-- The members of an arranged class are at the places of its shape. -/
theorem Resolution.Arranged.laysOut (h : r.Arranged record l)
    (hr : r.bindings.record? cls = some record) :
    r.bindings.LaysOut cls record.members l.shape := by
  obtain ⟨hnf, hnm, -⟩ := List.nodup_append.mp h.shaped.distinct
  have hcontinues := Layout.Continues.refl l
  have hfieldPlace : ∀ x ∈ l.fields.map Prod.fst,
      r.bindings.place cls x = -1 - ((l.fields.map Prod.fst).idxOf x : Int) := by
    intro x hx
    obtain ⟨t, ht⟩ := lookup_isSome hx
    obtain ⟨t', hscope, -⟩ := hcontinues.lookup_field ht
    simp [Bindings.place, h.member? hr, hscope, Layout.fieldEntry]
  have hslot : ∀ x ∈ l.methods.map Prod.fst,
      r.bindings.place cls x = ((l.methods.map Prod.fst).idxOf x : Int) := by
    intro x hx
    obtain ⟨k, hk⟩ := lookup_isSome hx
    obtain ⟨k', hscope⟩ := hcontinues.lookup_method h.shaped.distinct hk
    simp [Bindings.place, h.member? hr, hscope, Layout.methodEntry]
  refine ⟨?_, ?_, ?_, ?_, ?_⟩
  · intro x hx
    have hlisted := h.shaped.members x
    rw [Std.TreeMap.getElem?_eq_some_getElem hx, Option.map_some] at hlisted
    obtain ⟨e, he, -⟩ := Option.map_eq_some_iff.mp hlisted.symm
    refine ⟨e, (h.member? hr x).trans he, ?_⟩
    rcases Layout.lookup_scope_cases he with ⟨t, -, rfl⟩ | ⟨k, -, rfl⟩ <;> rfl
  · have hset : {x | r.bindings.HasField cls x} = {x | x ∈ l.fields.map Prod.fst} :=
      Set.ext (h.hasField_iff hr)
    have hlen : l.shape.fields.length = (l.fields.map Prod.fst).length := by simp [Layout.shape]
    rw [hset, hlen]
    exact ((bijOn_fieldOffset _).comp (bijOn_idxOf hnf)).congr
      fun x hx => (hfieldPlace x hx).symm
  · intro x e i he hkind hoffset
    rw [h.member? hr] at he
    rcases Layout.lookup_scope_cases he with ⟨t, ht, rfl⟩ | ⟨k, -, rfl⟩
    · have hi : (l.fields.map Prod.fst).idxOf x = i := by
        simp only [Layout.fieldEntry] at hoffset
        omega
      have hget := getElem?_idxOf_of_lookup ht
      rw [hi] at hget
      simp [Layout.shape, hget, Layout.fieldEntry]
    · cases hkind
  · have hset : {x | r.bindings.HasMethod cls x} = {x | x ∈ l.methods.map Prod.fst} :=
      Set.ext (h.hasMethod_iff hr)
    have hlen : l.shape.methods.length = (l.methods.map Prod.fst).length := by simp [Layout.shape]
    rw [hset, hlen]
    exact ((bijOn_slot _).comp (bijOn_idxOf hnm)).congr fun x hx => (hslot x hx).symm
  · intro x e slot he hkind hoffset
    rw [h.member? hr] at he
    rcases Layout.lookup_scope_cases he with ⟨t, ht, rfl⟩ | ⟨k, hk, rfl⟩
    · have hplain : t.isMethod = false := h.shaped.plain _ (mem_of_lookup ht)
      exact absurd (hplain.symm.trans hkind) Bool.false_ne_true
    · have hi : (l.methods.map Prod.fst).idxOf x = slot := by
        simp only [Layout.methodEntry] at hoffset
        omega
      have hget := getElem?_idxOf_of_lookup hk
      rw [hi] at hget
      simp [Layout.shape, hget, Layout.methodEntry]

/-- A class whose layout continues that of another keeps the places of its
members. -/
theorem Resolution.Arranged.keepsPlaces (h : r.Arranged record l)
    (hr : r.bindings.record? cls = some record) {parent : String} {super : ClassRecord}
    {base : Layout} (hbase : r.Arranged super base)
    (hs : r.bindings.record? parent = some super) (hc : l.Continues base) :
    r.bindings.KeepsPlaces cls parent := by
  refine ⟨?_, l.shape, base.shape, h.shape? hr, hbase.shape? hs, ?_, ?_⟩
  · intro x e he
    rw [hbase.member? hs] at he
    rcases Layout.lookup_scope_cases he with ⟨t, ht, rfl⟩ | ⟨k, hk, rfl⟩
    · obtain ⟨t', hscope, hmem⟩ := hc.lookup_field ht
      refine ⟨_, (h.member? hr x).trans hscope, ?_, rfl⟩
      have hplain : t.isMethod = false := hbase.shaped.plain _ (mem_of_lookup ht)
      exact (h.shaped.plain _ hmem).trans hplain.symm
    · obtain ⟨k', hscope⟩ := hc.lookup_method h.shaped.distinct hk
      exact ⟨_, (h.member? hr x).trans hscope, rfl, rfl⟩
  · simpa [Layout.shape] using hc.fields.length_le
  · simpa [Layout.shape] using hc.methods.length_le

end

/-- In every program, with or without faults, the members of a registered class
are at the places of its shape, one at each place; and a class keeps the members
of the superclass that is filed for it where they are. -/
theorem Program.members_placed (p : Program) {cls : String} {record : ClassRecord}
    (hr : p.resolve.bindings.record? cls = some record) :
    (∃ shape, p.resolve.bindings.shape? cls = some shape ∧
      p.resolve.bindings.LaysOut cls record.members shape) ∧
    ∀ (node : NodeId) (parent : String),
      p.resolve.bindings.classes[node]? = some { entry := record.entry, parent? := some parent } →
      p.resolve.bindings.KeepsPlaces cls parent := by
  have horder := p.resolve_orderly
  constructor
  · obtain ⟨l, hl⟩ := horder.records cls record hr
    exact ⟨l.shape, hl.shape? hr, hl.laysOut hr⟩
  · intro node parent hnode
    obtain ⟨l, super, base, hl, hsuper, hbase, hcont⟩ :=
      horder.inherits node _ parent hnode rfl cls record hr rfl
    exact hl.keepsPlaces hr hbase hsuper hcont

/-- A class whose field cannot take the name of an inherited method, while its
other field takes over the place of the inherited one. -/
def clashProgram : Program :=
  let pos := Position.ofLine 1
  { classes := [
      { id := 0, name := "A", parent? := none, pos
        fields := [⟨1, "x", .int pos, pos⟩]
        methods := [{ id := 2, name := "get", params := [], ret := .int pos, decls := []
                      body := .name 3 "x" pos, pos }] },
      { id := 4, name := "B", parent? := some "A", pos
        fields := [⟨5, "get", .int pos, pos⟩, ⟨6, "x", .bool pos, pos⟩, ⟨7, "y", .int pos, pos⟩]
        methods := [] }]
    decls := []
    body := .lit (.int 0) pos
    pos }

/-- The clash is reported, and the class still keeps the members of its
superclass where they are. -/
theorem clashProgram_placed : clashProgram.resolve.errors ≠ [] ∧
    ∃ record, clashProgram.resolve.bindings.record? "B" = some record ∧
      (∃ shape, clashProgram.resolve.bindings.shape? "B" = some shape ∧
        clashProgram.resolve.bindings.LaysOut "B" record.members shape) ∧
      clashProgram.resolve.bindings.KeepsPlaces "B" "A" := by
  have hentry : (clashProgram.resolve.bindings.record? "B").map ClassRecord.entry = some 5 := by
    decide +kernel
  obtain ⟨record, hr, hid⟩ := Option.map_eq_some_iff.mp hentry
  have hclass : clashProgram.resolve.bindings.classes[4]? =
      some { entry := record.entry, parent? := some "A" } := by
    rw [hid]
    decide +kernel
  obtain ⟨hshape, hsuper⟩ := clashProgram.members_placed hr
  exact ⟨by decide +kernel, record, hr, hshape, hsuper 4 "A" hclass⟩

end Classlet
