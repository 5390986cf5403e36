import Classlet.Proofs.Headers

/-!
The headers of all classes follow their layouts. The classes that have been laid
out so far are kept with the latest first: each is registered under a name of
its own, its superclass is one of the classes before it, and all its members are
filed at their places.
-/

namespace Classlet

/-- What is known of a class `c` with the layout `l`, after the classes
`earlier`. -/
structure ClassLaid (b : Bindings) (names : List String) (c : ClassDecl)
    (earlier : List ClassDecl) (l : Layout) : Prop where
  layout : layout? (c :: earlier) c.name = some l
  fresh : c.name ∉ earlier.map ClassDecl.name
  record : ∃ record, b.record? c.name = some record ∧ b.Lists record.members l.scope ∧
    b.entry? record.entry =
      some { level := 0, type := l.shape.toTy, offset := -2 - earlier.length } ∧
    b.classes[c.id]? = some { entry := record.entry, parent? := c.parent? }
  distinct : (l.fields.map Prod.fst ++ l.methods.map Prod.fst).Nodup
  plain : ∀ p ∈ l.fields, p.2.isMethod = false
  known : ∀ p ∈ l.fields, ∀ cls, p.2 = .ref cls → cls ∈ names
  fieldNames : (c.fields.map Binder.name).Nodup
  methodNames : (c.methods.map MethodDecl.name).Nodup
  fields : Resolution.FieldsFiled b (l.fields.map Prod.fst) c.fields
  slots : Resolution.SlotsFiled b (l.methods.map Prod.fst) c.methods
  params : ∀ m ∈ c.methods, Resolution.ParamsKnown names m.params

theorem ClassLaid.grows {ids : List NodeId} {b b' : Bindings} {names : List String}
    {c : ClassDecl} {earlier : List ClassDecl} {l : Layout} (h : ClassLaid b names c earlier l)
    (hg : b.Grows ids b') (hd : ∀ n ∈ c.headerIds, n ∉ ids) : ClassLaid b' names c earlier l := by
  simp only [ClassDecl.headerIds, List.mem_cons, List.mem_append] at hd
  obtain ⟨record, hr, hl, he, hc⟩ := h.record
  refine ⟨h.layout, h.fresh, ?_, h.distinct, h.plain, h.known, h.fieldNames, h.methodNames, ?_, ?_,
    h.params⟩
  · refine ⟨record, hg.records _ _ hr, hg.lists hl, hg.entries _ _ he, ?_⟩
    rw [hg.classes c.id (hd c.id (Or.inl rfl))]
    exact hc
  · intro f hf
    obtain ⟨e, hd', hp⟩ := h.fields f hf
    exact ⟨e, Resolution.declared?_grows hg hd'
      (hd f.id (Or.inr (Or.inl (List.mem_map_of_mem hf)))), hp⟩
  · intro m hm
    obtain ⟨slot, hs, hi⟩ := h.slots m hm
    refine ⟨slot, ?_, hi⟩
    rw [hg.slots m.id (hd m.id (Or.inr (Or.inr (List.mem_map_of_mem hm))))]
    exact hs

namespace Resolution

/-- The classes `done`, the latest first, are registered and filed. -/
structure Catalogued (r : Resolution) (done : List ClassDecl) : Prop where
  distinct : (done.map ClassDecl.name).Nodup
  records : ∀ cls record, r.bindings.record? cls = some record → cls ∈ done.map ClassDecl.name
  parents : ∀ cls, r.ancestry.parent? cls = (class? done cls).bind fun p => p.1.parent?
  facts : ∀ cls c earlier, class? done cls = some (c, earlier) →
    ∃ l, ClassLaid r.bindings r.classNames c earlier l

/-- The classes `done` have been laid out in the outermost frame. -/
structure Laid (r : Resolution) (done : List ClassDecl) : Prop extends Catalogued r done where
  frames : ∃ f, r.scope.frames = [f] ∧ f.declPlace = -2 - done.length ∧ f.paramPlace = 1 ∧
    r.bindings.Lists f.names (classScope done)

theorem names_classScope (done : List ClassDecl) :
    (classScope done).map Prod.fst = done.map ClassDecl.name := by
  induction done with
  | nil => rfl
  | cons c done ih => simp [classScope, ih]

theorem parent?_setParent (h : Ancestry) (c s x : String) :
    (h.setParent c s).parent? x = if c = x then some s else h.parent? x := by
  simp [Ancestry.setParent, Ancestry.parent?, Std.TreeMap.getElem?_insert]

theorem Catalogued.record_of_name {r : Resolution} {done : List ClassDecl}
    (h : r.Catalogued done) {cls : String} (hc : cls ∈ done.map ClassDecl.name) :
    ∃ record, r.bindings.record? cls = some record := by
  obtain ⟨c, earlier, hfound⟩ := class?_isSome.mpr hc
  obtain ⟨l, hl⟩ := h.facts cls c earlier hfound
  obtain ⟨record, hr, -⟩ := hl.record
  rw [class?_name hfound] at hr
  exact ⟨record, hr⟩

/-- What a superclass that is found leaves to inherit. -/
theorem Catalogued.inherited {r : Resolution} {done : List ClassDecl} (h : r.Catalogued done)
    {parent : String} {record : ClassRecord} (hr : r.bindings.record? parent = some record) :
    ∃ base, layout? done parent = some base ∧ r.Matches
      { members := record.members, shape := (r.bindings.shape? parent).getD {} } base := by
  obtain ⟨c, earlier, hfound⟩ := class?_isSome.mpr (h.records parent record hr)
  obtain ⟨l, hl⟩ := h.facts parent c earlier hfound
  obtain ⟨record', hr', hlists, he, -⟩ := hl.record
  have hname := class?_name hfound
  rw [hname, hr] at hr'
  cases hr'
  have hshape : r.bindings.shape? parent = some l.shape := by
    simp [Bindings.shape?, hr, he, ClassShape.toTy, Ty.shape?]
  refine ⟨l, ?_, ⟨hlists, ?_, hl.distinct, hl.plain⟩, hl.known⟩
  · rw [layout?_eq hfound]
    exact hl.layout
  · simp [hshape]

theorem matches_empty (r : Resolution) : r.Matches {} {} := by
  refine ⟨⟨?_, rfl, by simp, by simp⟩, by simp⟩
  intro x
  simp [Layout.scope, entriesFrom]

theorem extends_inherit (r : Resolution) (c : ClassDecl) : Extends [] r (r.inherit c).1 := by
  unfold inherit
  split
  · exact Extends.refl _ r
  · split
    · exact (binds_report r _ _).toExtends
    · exact ⟨rfl, List.prefix_refl _, Bindings.Grows.refl _ _⟩

theorem inherit_scope (r : Resolution) (c : ClassDecl) : (r.inherit c).1.scope = r.scope := by
  unfold inherit
  split
  · rfl
  · split <;> rfl

theorem inherit_bindings (r : Resolution) (c : ClassDecl) :
    (r.inherit c).1.bindings = r.bindings := by
  unfold inherit
  split
  · rfl
  · split <;> rfl

/-- A class that inherits without a fault starts from the layout of its
superclass, which becomes its parent. -/
theorem inherit_spec (r : Resolution) (done : List ClassDecl) (c : ClassDecl)
    (h : r.Catalogued done) (he : (r.inherit c).1.errors = []) :
    ∃ base, (r.inherit c).1.Matches (r.inherit c).2.1 base ∧
      layout? (c :: done) c.name = some (c.over base) ∧ (r.inherit c).2.2 = c.parent? ∧
      ∀ cls, (r.inherit c).1.ancestry.parent? cls =
        if c.name = cls then c.parent?.or (r.ancestry.parent? cls) else r.ancestry.parent? cls := by
  unfold inherit at he ⊢
  cases hp : c.parent? with
  | none =>
    refine ⟨{}, matches_empty r, by simp [layout?, hp], rfl, ?_⟩
    intro cls
    simp
  | some parent =>
    simp only [hp] at he ⊢
    cases hr : r.bindings.record? parent with
    | none =>
      rw [hr] at he
      exact absurd he (report_errors _ _ _)
    | some record =>
      obtain ⟨base, hbase, hm⟩ := h.inherited hr
      refine ⟨base, ?_, by simp [layout?, hp, hbase], rfl, ?_⟩
      · exact ⟨⟨hm.members, hm.shape, hm.distinct, hm.plain⟩, hm.known⟩
      · intro cls
        simp only [parent?_setParent, Option.some_or]

/-- The state in which the members of a class are placed, with what the class
inherits. -/
def openHeader (r : Resolution) (c : ClassDecl) : Resolution × Header × Option String :=
  let (r, h, parent?) := { r with scope := r.scope.takeDecl.2 }.inherit c
  (if r.scope.hasLocal c.name then r.report c.pos (.redeclared .cls c.name) else r, h, parent?)

/-- Places the fields and then the methods of a class. -/
def placeMembers (r : Resolution) (c : ClassDecl) (level : Nat) (h : Header) :
    Resolution × Header :=
  let (r, h) := placeFields c.name level [] c.fields r h
  placeMethods c.name level [] c.methods r h

/-- The state in which all members of a class are placed, with the complete header. -/
def fillHeader (r : Resolution) (c : ClassDecl) : Resolution × Header :=
  (r.openHeader c).1.placeMembers c (r.scope.level + 1) (r.openHeader c).2.1

/-- Declares a class whose header is complete. -/
def closeHeader (r : Resolution) (c : ClassDecl) (h : Header) (parent? : Option String)
    (offset : Int) : Resolution :=
  let (entry, r) := r.add c.id { level := r.scope.level, type := h.shape.toTy, offset }
  let bindings := r.bindings.fileClass c.id { entry, parent? }
  { r with
      scope := (r.scope.declare? c.name entry).getD r.scope
      bindings := (bindings.register? c.name { entry, members := h.members }).getD bindings }

theorem layClass_eq (r : Resolution) (c : ClassDecl) :
    r.layClass c = ((r.fillHeader c).1.closeHeader c (r.fillHeader c).2 (r.openHeader c).2.2
      r.scope.takeDecl.1, (r.fillHeader c).2.members) := rfl

theorem openHeader_bindings (r : Resolution) (c : ClassDecl) :
    (r.openHeader c).1.bindings = r.bindings := by
  unfold openHeader
  simp only
  split
  · exact inherit_bindings _ c
  · exact inherit_bindings _ c

theorem openHeader_scope (r : Resolution) (c : ClassDecl) :
    (r.openHeader c).1.scope = r.scope.takeDecl.2 := by
  unfold openHeader
  simp only
  split
  · exact inherit_scope _ c
  · exact inherit_scope _ c

theorem extends_openHeader (r : Resolution) (c : ClassDecl) :
    Extends [] r (r.openHeader c).1 := by
  have hi := (binds_scope r r.scope.takeDecl.2).toExtends.trans (extends_inherit _ c)
  unfold openHeader
  simp only
  split
  · exact hi.trans (binds_report _ _ _).toExtends
  · exact hi

theorem binds_placeMembers (r : Resolution) (c : ClassDecl) (level : Nat) (h : Header) :
    Binds (c.fields.map Binder.id ++ c.methods.map MethodDecl.id) r
      (r.placeMembers c level h).1 :=
  (binds_placeFields c.name level c.fields [] r h).append
    (binds_placeMethods c.name level c.methods [] _ _)

theorem extends_closeHeader (r : Resolution) (c : ClassDecl) (h : Header) (parent? : Option String)
    (offset : Int) : Extends [c.id] r (r.closeHeader c h parent? offset) := by
  have hadd := (binds_add r c.id { level := r.scope.level, type := h.shape.toTy, offset }).toExtends
  refine hadd.trans ⟨rfl, List.prefix_refl _, ?_⟩
  have hclasses : ∀ (b : Bindings) (k : ClassBinding), ∀ n, n ∉ [c.id] →
      (b.fileClass c.id k).classes[n]? = b.classes[n]? := by
    intro b k n hn
    have hne : ¬ c.id = n := fun h => hn (by simp [h])
    simp [Bindings.fileClass, Std.TreeMap.getElem?_insert, hne]
  unfold closeHeader
  simp only [Bindings.register?]
  split
  · exact ⟨fun _ _ h => h, fun _ _ h => h, fun _ _ => rfl, fun _ _ => rfl, fun _ _ => rfl,
      fun _ _ => rfl, hclasses _ _, fun h => ⟨h.bounded, h.distinct⟩⟩
  · rename_i hnew
    refine ⟨fun _ _ h => h, ?_, fun _ _ => rfl, fun _ _ => rfl, fun _ _ => rfl, fun _ _ => rfl,
      hclasses _ _, fun h => ⟨h.bounded, h.distinct⟩⟩
    intro cls record hr
    have hne : ¬ c.name = cls := by
      rintro rfl
      apply hnew
      simp only [Bindings.fileClass, Std.TreeMap.contains_eq_isSome_getElem?]
      simp only [Bindings.record?] at hr
      rw [hr]
      rfl
    simp only [Option.getD_some, Bindings.record?, Std.TreeMap.getElem?_insert]
    simpa [hne, Bindings.fileClass, Bindings.record?] using hr

/-- Closing a header declares the class. -/
theorem closeHeader_declared (r : Resolution) (c : ClassDecl) (h : Header)
    (parent? : Option String) (offset : Int) :
    (r.closeHeader c h parent? offset).bindings.declarations[c.id]? =
        some r.bindings.entries.size ∧
      (r.closeHeader c h parent? offset).bindings.entry? r.bindings.entries.size =
        some { level := r.scope.level, type := h.shape.toTy, offset } := by
  have hadd := getElem?_declarations_add r c.id
    { level := r.scope.level, type := h.shape.toTy, offset } c.id
  rw [if_pos rfl] at hadd
  have hentry := entry_add r.bindings { level := r.scope.level, type := h.shape.toTy, offset }
  unfold closeHeader
  simp only [Bindings.register?]
  split
  · exact ⟨hadd, hentry⟩
  · exact ⟨hadd, hentry⟩

/-- What closing a header adds to the tables of classes. -/
theorem closeHeader_tables (r : Resolution) (c : ClassDecl) (h : Header) (parent? : Option String)
    (offset : Int) :
    let r' := r.closeHeader c h parent? offset
    let id := r.bindings.entries.size
    (∀ node : NodeId, r'.bindings.classes[node]? =
        if c.id = node then some { entry := id, parent? } else r.bindings.classes[node]?) ∧
      ∀ cls, r'.bindings.record? cls =
        if c.name = cls ∧ r.bindings.record? cls = none then
          some { entry := id, members := h.members }
        else r.bindings.record? cls := by
  unfold closeHeader
  simp only [Bindings.register?]
  split
  · rename_i hold
    refine ⟨?_, ?_⟩
    · intro node
      simp [Bindings.fileClass, Std.TreeMap.getElem?_insert, add, Bindings.add,
        Bindings.fileDeclaration]
    · intro cls
      have hnot : ¬ (c.name = cls ∧ r.bindings.record? cls = none) := by
        rintro ⟨rfl, hnone⟩
        have hcontains : r.bindings.records.contains c.name := hold
        rw [Std.TreeMap.contains_eq_isSome_getElem?] at hcontains
        simp only [Bindings.record?] at hnone
        rw [hnone] at hcontains
        cases hcontains
      rw [if_neg hnot]
      rfl
  · rename_i hnew
    refine ⟨?_, ?_⟩
    · intro node
      simp [Bindings.fileClass, Std.TreeMap.getElem?_insert, add, Bindings.add,
        Bindings.fileDeclaration]
    · intro cls
      have hnone : r.bindings.records[c.name]? = none := by
        have hcontains : ¬ r.bindings.records.contains c.name := hnew
        rwa [Std.TreeMap.contains_eq_isSome_getElem?, Option.not_isSome_iff_eq_none] at hcontains
      by_cases hc : c.name = cls
      · subst hc
        simp [Bindings.record?, hnone, add, Bindings.add]
      · simp [hc, Bindings.record?, Bindings.fileClass, Std.TreeMap.getElem?_insert, add,
          Bindings.add, Bindings.fileDeclaration]

/-! The tables after the header of a class. -/

section

variable (r : Resolution) (c : ClassDecl)

theorem level_takeDecl (s : Scope) : s.takeDecl.2.level = s.level := by
  unfold Scope.takeDecl
  split
  · rfl
  · rename_i f fs hs
    simp [Scope.level, hs]

theorem fillHeader_scope : (r.fillHeader c).1.scope = r.scope.takeDecl.2 := by
  unfold fillHeader placeMembers
  simp only [placeMethods_scope, placeFields_scope, openHeader_scope]

theorem binds_fillHeader : Binds (c.fields.map Binder.id ++ c.methods.map MethodDecl.id)
    (r.openHeader c).1 (r.fillHeader c).1 :=
  binds_placeMembers (r.openHeader c).1 c (r.scope.level + 1) (r.openHeader c).2.1

theorem extends_fillHeader :
    Extends (c.fields.map Binder.id ++ c.methods.map MethodDecl.id) r (r.fillHeader c).1 :=
  (extends_openHeader r c).append (binds_fillHeader r c).toExtends

theorem fillHeader_record? (cls : String) :
    (r.fillHeader c).1.bindings.record? cls = r.bindings.record? cls := by
  rw [Bindings.record?, (binds_fillHeader r c).records, openHeader_bindings, Bindings.record?]

theorem fillHeader_classes : (r.fillHeader c).1.bindings.classes = r.bindings.classes := by
  rw [(binds_fillHeader r c).classes, openHeader_bindings]

/-- From the complete header on, only the class itself is filed. -/
theorem extends_closed : Extends [c.id] (r.fillHeader c).1 (r.layClass c).1 :=
  extends_closeHeader (r.fillHeader c).1 c (r.fillHeader c).2 (r.openHeader c).2.2
    r.scope.takeDecl.1

/-- Laying out a class files its own header only. -/
theorem extends_layClass : Extends c.headerIds r (r.layClass c).1 := by
  refine ((extends_fillHeader r c).append (extends_closed r c)).mono ?_
  intro n hn
  simp only [ClassDecl.headerIds, List.mem_cons, List.mem_append, List.not_mem_nil,
    or_false] at hn ⊢
  tauto

/-- The record of a class, which is registered if the name of the class is free. -/
def newRecord : ClassRecord where
  entry := (r.fillHeader c).1.bindings.entries.size
  members := (r.fillHeader c).2.members

theorem layClass_declared :
    (r.layClass c).1.bindings.declarations[c.id]? = some (r.newRecord c).entry ∧
      (r.layClass c).1.bindings.entry? (r.newRecord c).entry =
        some { level := r.scope.level, type := (r.fillHeader c).2.shape.toTy
               offset := r.scope.takeDecl.1 } := by
  have hdeclared := closeHeader_declared (r.fillHeader c).1 c (r.fillHeader c).2
    (r.openHeader c).2.2 r.scope.takeDecl.1
  rwa [fillHeader_scope, level_takeDecl] at hdeclared

theorem layClass_classes (node : NodeId) : (r.layClass c).1.bindings.classes[node]? =
    if c.id = node then some { entry := (r.newRecord c).entry, parent? := (r.openHeader c).2.2 }
    else r.bindings.classes[node]? := by
  have htables := closeHeader_tables (r.fillHeader c).1 c (r.fillHeader c).2
    (r.openHeader c).2.2 r.scope.takeDecl.1
  rw [← fillHeader_classes r c]
  exact htables.1 node

theorem layClass_record? (cls : String) : (r.layClass c).1.bindings.record? cls =
    if c.name = cls ∧ r.bindings.record? cls = none then some (r.newRecord c)
    else r.bindings.record? cls := by
  have htables := closeHeader_tables (r.fillHeader c).1 c (r.fillHeader c).2
    (r.openHeader c).2.2 r.scope.takeDecl.1
  rw [← fillHeader_record? r c]
  exact htables.2 cls

/-- The names of classes that were registered before, and the name of the class. -/
theorem isSome_layClass_record? (cls : String) :
    ((r.layClass c).1.bindings.record? cls).isSome ↔
      c.name = cls ∨ (r.bindings.record? cls).isSome := by
  rw [layClass_record?]
  by_cases hc : c.name = cls
  · cases r.bindings.record? cls <;> simp [hc]
  · simp [hc]

variable {r c}

/-- The registered names are those of the classes so far. -/
theorem layClass_registered {done : List ClassDecl}
    (h : ∀ cls, (r.bindings.record? cls).isSome ↔ cls ∈ done.map ClassDecl.name) (cls : String) :
    ((r.layClass c).1.bindings.record? cls).isSome ↔ cls ∈ (c :: done).map ClassDecl.name := by
  rw [isSome_layClass_record?, h, List.map_cons, List.mem_cons, eq_comm]

theorem layClass_record_cases {cls : String} {record : ClassRecord}
    (h : (r.layClass c).1.bindings.record? cls = some record) :
    (c.name = cls ∧ r.bindings.record? cls = none ∧ record = r.newRecord c) ∨
      r.bindings.record? cls = some record := by
  rw [layClass_record?] at h
  split at h
  · rename_i hnew
    exact Or.inl ⟨hnew.1, hnew.2, (Option.some.inj h).symm⟩
  · exact Or.inr h

/-- The entry of the class is a new one. -/
theorem ne_newRecord_entry {id : EntryId} {e : Entry} (h : r.bindings.entry? id = some e) :
    id ≠ (r.newRecord c).entry := by
  rintro rfl
  have he := (extends_fillHeader r c).bindings.entries _ _ h
  rw [Bindings.entry?, newRecord, Array.getElem?_eq_none (Nat.le_refl _)] at he
  cases he

end

/-- A class that is opened without a fault has a new name, and starts from the
layout of its superclass. -/
theorem openHeader_spec (r : Resolution) (done : List ClassDecl) (c : ClassDecl)
    (h : r.Laid done) (he : (r.openHeader c).1.errors = []) :
    ∃ base, (r.openHeader c).1.Matches (r.openHeader c).2.1 base ∧
      layout? (c :: done) c.name = some (c.over base) ∧ (r.openHeader c).2.2 = c.parent? ∧
      c.name ∉ done.map ClassDecl.name ∧
      ∀ cls, (r.openHeader c).1.ancestry.parent? cls =
        if c.name = cls then c.parent?.or (r.ancestry.parent? cls) else r.ancestry.parent? cls := by
  obtain ⟨f, hf, -, -, hlists⟩ := h.frames
  have hcat : Catalogued { r with scope := r.scope.takeDecl.2 } done := ⟨h.distinct, h.records,
    h.parents, h.facts⟩
  unfold openHeader at he ⊢
  simp only [inherit_scope] at he ⊢
  by_cases hl : r.scope.takeDecl.2.hasLocal c.name
  · rw [if_pos hl] at he
    exact absurd he (report_errors _ _ _)
  · rw [if_neg hl] at he
    simp only [if_neg hl]
    obtain ⟨base, hm, hlay, hp, hanc⟩ := inherit_spec _ done c hcat he
    refine ⟨base, hm, hlay, hp, ?_, hanc⟩
    have hnone : f.names[c.name]? = none := by
      simp only [Scope.takeDecl, hf, Scope.hasLocal, Std.TreeMap.contains_eq_isSome_getElem?,
        Option.not_isSome_iff_eq_none] at hl
      exact hl
    have hx := hlists c.name
    rw [hnone] at hx
    rw [← names_classScope, ← lookup_eq_none]
    cases hlk : (classScope done).lookup c.name with
    | none => rfl
    | some e => simp [hlk] at hx

theorem placeMembers_spec (r : Resolution) (c : ClassDecl) (h : Header) (base : Layout)
    (hm : r.Matches h base) (hn : c.headerIds.Nodup)
    (he : (r.placeMembers c 1 h).1.errors = []) :
    let m := r.placeMembers c 1 h
    m.1.Matches m.2 (c.over base) ∧
      (c.fields.map Binder.name).Nodup ∧ (c.methods.map MethodDecl.name).Nodup ∧
      FieldsFiled m.1.bindings ((c.over base).fields.map Prod.fst) c.fields ∧
      SlotsFiled m.1.bindings ((c.over base).methods.map Prod.fst) c.methods ∧
      ∀ k ∈ c.methods, ParamsKnown r.classNames k.params := by
  simp only [ClassDecl.headerIds, List.nodup_cons, List.nodup_append] at hn
  obtain ⟨-, hfn, hmn, hdis⟩ := hn
  have hmethods := binds_placeMethods c.name 1 c.methods []
    (placeFields c.name 1 [] c.fields r h).1 (placeFields c.name 1 [] c.fields r h).2
  have hfields := binds_placeFields c.name 1 c.fields [] r h
  obtain ⟨hm₁, -, hnames, hfiled⟩ :=
    placeFields_matches c.name c.fields [] r h base hm hfn (hmethods.clean he)
  obtain ⟨hm₂, -, hmnames, hparams, hslots⟩ :=
    placeMethods_matches c.name c.name c.methods [] _ _ _ hm₁ hmn he
  refine ⟨hm₂, hnames, hmnames, ?_, hslots, ?_⟩
  · intro f hf
    obtain ⟨e, hd, hp⟩ := hfiled f hf
    refine ⟨e, declared?_grows hmethods.bindings hd ?_, hp⟩
    intro hin
    exact hdis _ (List.mem_map_of_mem hf) _ hin rfl
  · rw [hfields.classNames] at hparams
    exact hparams

/-- A class of a new name that is closed becomes visible. -/
theorem closeHeader_frames (r : Resolution) (c : ClassDecl) (h : Header) (parent? : Option String)
    (offset : Int) {f : Frame} (hf : r.scope.frames = [f]) (hname : f.names[c.name]? = none) :
    (r.closeHeader c h parent? offset).scope.frames =
      [{ f with names := f.names.insert c.name r.bindings.entries.size }] := by
  have hfresh : f.names.contains c.name = false := by
    rw [Std.TreeMap.contains_eq_isSome_getElem?, hname]
    rfl
  unfold closeHeader
  simp only [add, Scope.declare?, hf, hfresh]
  rfl

theorem layout?_cons_of_ne {c : ClassDecl} {done : List ClassDecl} {cls : String}
    (h : c.name ≠ cls) : layout? (c :: done) cls = layout? done cls := by
  simp [layout?, h]

section

variable {r : Resolution} {done : List ClassDecl} {c : ClassDecl} {base : Layout}

theorem Laid.level (h : r.Laid done) : r.scope.level = 0 := by
  obtain ⟨f, hf, -⟩ := h.frames
  simp [Scope.level, hf]

theorem Laid.takeDecl (h : r.Laid done) : r.scope.takeDecl.1 = -2 - done.length := by
  obtain ⟨f, hf, hdecl, -⟩ := h.frames
  simp [Scope.takeDecl, hf, hdecl]

/-- A class of a new name is complete without a fault: its header follows the layout of
the class, over the layout `base` of its superclass. -/
structure Filled (r : Resolution) (done : List ClassDecl) (c : ClassDecl) (base : Layout) :
    Prop where
  header : (r.fillHeader c).1.Matches (r.fillHeader c).2 (c.over base)
  layout : layout? (c :: done) c.name = some (c.over base)
  parent : (r.openHeader c).2.2 = c.parent?
  fresh : c.name ∉ done.map ClassDecl.name
  fieldNames : (c.fields.map Binder.name).Nodup
  methodNames : (c.methods.map MethodDecl.name).Nodup
  fields : FieldsFiled (r.fillHeader c).1.bindings ((c.over base).fields.map Prod.fst) c.fields
  slots : SlotsFiled (r.fillHeader c).1.bindings ((c.over base).methods.map Prod.fst) c.methods
  params : ∀ m ∈ c.methods, ParamsKnown r.classNames m.params
  parents : ∀ cls, (r.fillHeader c).1.ancestry.parent? cls =
    if c.name = cls then c.parent?.or (r.ancestry.parent? cls) else r.ancestry.parent? cls

theorem fillHeader_filled (h : r.Laid done) (hn : c.headerIds.Nodup)
    (he : (r.fillHeader c).1.errors = []) : ∃ base, r.Filled done c base := by
  have hfill : r.fillHeader c = (r.openHeader c).1.placeMembers c 1 (r.openHeader c).2.1 := by
    rw [fillHeader, h.level]
  have hb := binds_fillHeader r c
  obtain ⟨base, hmatch, hlay, hparent, hfresh, hanc⟩ :=
    openHeader_spec r done c h (hb.clean he)
  rw [hfill] at he
  obtain ⟨hmatch', hfn, hmn, hfields, hslots, hparams⟩ :=
    placeMembers_spec _ c _ base hmatch hn he
  rw [← hfill] at hmatch' hfields hslots
  rw [(extends_openHeader r c).classNames] at hparams
  refine ⟨base, hmatch', hlay, hparent, hfresh, hfn, hmn, hfields, hslots, hparams, fun cls => ?_⟩
  rw [hb.ancestry]
  exact hanc cls

namespace Filled

/-- The name of the class is new among the registered names too. -/
theorem unregistered (hc : r.Filled done c base) (h : r.Laid done) :
    r.bindings.record? c.name = none := by
  cases hr : r.bindings.record? c.name with
  | none => rfl
  | some record => exact absurd (h.records _ _ hr) hc.fresh

theorem classLaid (hc : r.Filled done c base) (h : r.Laid done) (hn : c.headerIds.Nodup) :
    ClassLaid (r.layClass c).1.bindings (r.layClass c).1.classNames c done (c.over base) := by
  have hclose := extends_closed r c
  have hnot : ∀ n ∈ c.fields.map Binder.id ++ c.methods.map MethodDecl.id, n ∉ [c.id] := by
    intro n hin heq
    rw [List.mem_singleton] at heq
    subst heq
    exact (List.nodup_cons.mp hn).1 hin
  simp only [List.mem_append] at hnot
  refine ⟨hc.layout, hc.fresh, ?_, hc.header.distinct, hc.header.plain, ?_, hc.fieldNames,
    hc.methodNames, ?_, ?_, ?_⟩
  · refine ⟨r.newRecord c, ?_, hclose.bindings.lists hc.header.members, ?_, ?_⟩
    · rw [layClass_record?, if_pos ⟨rfl, hc.unregistered h⟩]
    · rw [(layClass_declared r c).2, h.level, h.takeDecl, hc.header.shape]
    · rw [layClass_classes, if_pos rfl, hc.parent]
  · rw [hclose.classNames]
    exact hc.header.known
  · intro g hg
    obtain ⟨e, hd, hp⟩ := hc.fields g hg
    exact ⟨e, declared?_grows hclose.bindings hd (hnot _ (Or.inl (List.mem_map_of_mem hg))), hp⟩
  · intro m hm
    obtain ⟨slot, hs, hi⟩ := hc.slots m hm
    refine ⟨slot, ?_, hi⟩
    rw [hclose.bindings.slots _ (hnot _ (Or.inr (List.mem_map_of_mem hm)))]
    exact hs
  · rw [(extends_layClass r c).classNames]
    exact hc.params

theorem catalogued (hc : r.Filled done c base) (h : r.Laid done) (hn : c.headerIds.Nodup)
    (hd : ∀ d ∈ done, ∀ n ∈ d.headerIds, n ∉ c.headerIds) :
    (r.layClass c).1.Catalogued (c :: done) := by
  have hext := extends_layClass r c
  refine ⟨List.nodup_cons.mpr ⟨hc.fresh, h.distinct⟩, ?_, ?_, ?_⟩
  · intro cls record hr
    rcases layClass_record_cases hr with ⟨rfl, -⟩ | hr
    · exact List.mem_cons_self
    · exact List.mem_cons_of_mem _ (h.records cls record hr)
  · intro cls
    have hanc : (r.layClass c).1.ancestry = (r.fillHeader c).1.ancestry := rfl
    rw [hanc, hc.parents, h.parents]
    by_cases hname : c.name = cls
    · have hnot : class? done cls = none := by
        cases hfound : class? done cls with
        | none => rfl
        | some q => exact absurd (class?_isSome.mp ⟨q.1, q.2, hfound⟩) (hname ▸ hc.fresh)
      simp [class?, hname, hnot]
    · simp [class?, hname]
  · intro cls d earlier hfound
    by_cases hname : c.name = cls
    · simp only [class?, hname, if_true, Option.some.injEq, Prod.mk.injEq] at hfound
      obtain ⟨rfl, rfl⟩ := hfound
      exact ⟨_, hc.classLaid h hn⟩
    · simp only [class?, hname, if_false] at hfound
      obtain ⟨l, hl⟩ := h.facts cls d earlier hfound
      have hdone : d ∈ done := (class?_suffix hfound).subset List.mem_cons_self
      rw [hext.classNames]
      exact ⟨l, hl.grows hext.bindings (hd d hdone)⟩

/-- The outermost frame has the class behind the classes before it. -/
theorem frames (hc : r.Filled done c base) (h : r.Laid done) :
    ∃ f, (r.layClass c).1.scope.frames = [f] ∧ f.declPlace = -2 - (c :: done).length ∧
      f.paramPlace = 1 ∧ (r.layClass c).1.bindings.Lists f.names (classScope (c :: done)) := by
  obtain ⟨f, hf, hdecl, hparam, hlists⟩ := h.frames
  have hnone : f.names[c.name]? = none := by
    have hx := hlists c.name
    rw [lookup_eq_none.mpr (by rw [names_classScope]; exact hc.fresh)] at hx
    simpa using hx
  have hscope : (r.fillHeader c).1.scope.frames = [{ f with declPlace := f.declPlace - 1 }] := by
    rw [fillHeader_scope, Scope.takeDecl, hf]
  have hclosed : (r.layClass c).1.scope.frames =
      [{ f with declPlace := f.declPlace - 1
                names := f.names.insert c.name (r.newRecord c).entry }] :=
    closeHeader_frames _ c _ _ _ hscope hnone
  refine ⟨_, hclosed, ?_, hparam, ?_⟩
  · simp only [hdecl, List.length_cons]
    omega
  · have hentry := (layClass_declared r c).2
    rw [h.level, h.takeDecl, hc.header.shape] at hentry
    simp only [classScope, hc.layout, Option.getD_some]
    exact lists_insert ((extends_layClass r c).bindings.lists hlists) hentry c.name

end Filled

/-- A class that is laid out without a fault joins the classes before it. -/
theorem layClass_laid (h : r.Laid done) (hn : c.headerIds.Nodup)
    (hd : ∀ d ∈ done, ∀ n ∈ d.headerIds, n ∉ c.headerIds) (he : (r.layClass c).1.errors = []) :
    (r.layClass c).1.Laid (c :: done) ∧ ∃ l, layout? (c :: done) c.name = some l ∧
      (r.layClass c).1.bindings.Lists (r.layClass c).2 l.scope := by
  have hclose := extends_closed r c
  obtain ⟨base, hc⟩ := fillHeader_filled h hn (hclose.clean he)
  exact ⟨⟨hc.catalogued h hn hd, hc.frames h⟩, c.over base, hc.layout,
    hclose.bindings.lists hc.header.members⟩

end

end Resolution

end Classlet
