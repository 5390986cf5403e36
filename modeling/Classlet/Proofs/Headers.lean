import Classlet.Binding.Header
import Classlet.Proofs.Declarations

/-!
Class headers follow the layout. While the fields and then the methods of a
class are placed one after the other, the header has at every point the members
and the shape of the layout so far; each member is filed under its place in it.
-/

namespace Classlet

namespace Resolution

/-- A header that has been put together as the layout says. -/
structure Shaped (r : Resolution) (h : Header) (l : Layout) : Prop where
  members : r.bindings.Lists h.members l.scope
  shape : h.shape = l.shape
  distinct : (l.fields.map Prod.fst ++ l.methods.map Prod.fst).Nodup
  plain : ∀ p ∈ l.fields, p.2.isMethod = false

/-- A header of the layout, whose fields refer to classes of the program. -/
structure Matches (r : Resolution) (h : Header) (l : Layout) : Prop extends Shaped r h l where
  known : ∀ p ∈ l.fields, ∀ cls, p.2 = .ref cls → cls ∈ r.classNames

section

variable {r r' : Resolution} {h : Header} {l : Layout}

theorem Shaped.grows {ids : List NodeId} (hm : r.Shaped h l)
    (hg : r.bindings.Grows ids r'.bindings) : r'.Shaped h l where
  members := hg.lists hm.members
  shape := hm.shape
  distinct := hm.distinct
  plain := hm.plain

theorem Matches.binds {ids : List NodeId} (hm : r.Matches h l) (hb : Binds ids r r') :
    r'.Matches h l where
  toShaped := hm.toShaped.grows hb.bindings
  known := by
    rw [hb.classNames]
    exact hm.known

theorem Shaped.member? (hm : r.Shaped h l) (x : String) :
    r.member? h x = l.scope.lookup x := by
  have hx := hm.members x
  unfold Resolution.member?
  cases hn : h.members[x]? with
  | none =>
    rw [hn] at hx
    cases hl : l.scope.lookup x with
    | none => rfl
    | some e => simp [hl] at hx
  | some id =>
    rw [hn] at hx
    cases hl : l.scope.lookup x with
    | none => simp [hl] at hx
    | some e => simpa [hl] using hx

end

theorem lower_isMethod (a : WrittenType) : a.lower.isMethod = false := by
  cases a <;> rfl

theorem binds_fileMember (r : Resolution) (h : Header) (node : NodeId) (name : String)
    (e : Entry) : Binds [node] r (r.fileMember h node name e).1 := binds_add r node e

theorem fileMember_lists (r : Resolution) (h : Header) (node : NodeId) (name : String) (e : Entry)
    {frame : List (String × Entry)} (hl : r.bindings.Lists h.members frame) :
    (r.fileMember h node name e).1.bindings.Lists (r.fileMember h node name e).2.members
      ((name, e) :: frame) :=
  lists_insert ((binds_add r node e).bindings.lists hl) (entry_add r.bindings e) name

theorem fileMember_declared (r : Resolution) (h : Header) (node : NodeId) (name : String)
    (e : Entry) : (r.fileMember h node name e).1.bindings.declared? node = some e := by
  have hentry := entry_add r.bindings e
  simp only [Bindings.declared?, fileMember, add, Bindings.fileDeclaration, Option.bind_eq_bind,
    Std.TreeMap.getElem?_insert_self, Option.bind_some]
  exact hentry

theorem lists_congr {b : Bindings} {names : Names} {frame frame' : List (String × Entry)}
    (h : b.Lists names frame) (hf : ∀ x, frame'.lookup x = frame.lookup x) :
    b.Lists names frame' := by
  intro x
  rw [hf x]
  exact h x

theorem nodup_placed {α : Type} {x : String} {a : α} {l : List (String × α)}
    (hn : (l.map Prod.fst).Nodup) : ((placed x a l).map Prod.fst).Nodup := by
  by_cases hx : x ∈ l.map Prod.fst
  · rw [names_placed_of_mem a hx]
    exact hn
  · rw [placed_of_notMem a hx, List.map_append, List.nodup_append]
    refine ⟨hn, by simp, ?_⟩
    intro y hy z hz hyz
    simp only [List.map_cons, List.map_nil, List.mem_singleton] at hz
    rw [hyz, hz] at hy
    exact hx hy

theorem mem_names_of_placed {α : Type} {x y : String} {a : α} {l : List (String × α)}
    (h : y ∈ (placed x a l).map Prod.fst) : y = x ∨ y ∈ l.map Prod.fst := by
  obtain ⟨p, hp, rfl⟩ := List.mem_map.mp h
  rcases mem_placed hp with rfl | hp
  · exact Or.inl rfl
  · exact Or.inr (List.mem_map_of_mem hp)

/-! Fields. -/

/-- The layout with one more field. -/
def placeIn (l : Layout) (f : Binder) : Layout :=
  { l with fields := placed f.name f.type.lower l.fields }

/-- A field that is filed at its place. -/
theorem fileField_shaped (r : Resolution) (h : Header) (l : Layout) (f : Binder)
    (hm : r.Shaped h l) (hx : f.name ∉ l.methods.map Prod.fst) :
    (r.fileMember { h with shape.fields := (placeIn l f).shape.fields } f.id f.name
        (Layout.fieldEntry ((l.fields.map Prod.fst).idxOf f.name) f.type.lower)).1.Shaped
      (r.fileMember { h with shape.fields := (placeIn l f).shape.fields } f.id f.name
        (Layout.fieldEntry ((l.fields.map Prod.fst).idxOf f.name) f.type.lower)).2
      (placeIn l f) := by
  obtain ⟨hnf, hnm, hdis⟩ := List.nodup_append.mp hm.distinct
  refine ⟨?_, ?_, ?_, ?_⟩
  · refine lists_congr (fileMember_lists r _ f.id f.name _ hm.members) ?_
    intro y
    rw [Layout.lookup_scope]
    by_cases hy : y = f.name
    · subst hy
      simp [placeIn, lookup_placed, idxOf_placed]
    · have hidx : ∀ t, l.fields.lookup y = some t →
          ((placed f.name f.type.lower l.fields).map Prod.fst).idxOf y =
            (l.fields.map Prod.fst).idxOf y := by
        intro t ht
        exact idxOf_of_prefix (names_placed _ _ _) (List.mem_map_of_mem (mem_of_lookup ht))
      rw [lookup_cons_of_ne hy, Layout.lookup_scope]
      simp only [placeIn, lookup_placed, hy, if_false]
      cases hl : l.fields.lookup y with
      | none => rfl
      | some t => simp [hidx t hl]
  · simp only [fileMember, Layout.shape, placeIn, hm.shape]
  · refine List.nodup_append.mpr ⟨nodup_placed hnf, hnm, ?_⟩
    intro y hy z hz hyz
    rcases mem_names_of_placed hy with rfl | hy
    · exact hx (hyz ▸ hz)
    · exact hdis y hy z hz hyz
  · intro p hp
    rcases mem_placed hp with rfl | hp
    · exact lower_isMethod f.type
    · exact hm.plain p hp

theorem fileField_matches (r : Resolution) (h : Header) (l : Layout) (f : Binder)
    (hm : r.Matches h l) (hk : ∀ cls, f.type.lower = .ref cls → cls ∈ r.classNames)
    (hx : f.name ∉ l.methods.map Prod.fst) :
    (r.fileMember { h with shape.fields := (placeIn l f).shape.fields } f.id f.name
        (Layout.fieldEntry ((l.fields.map Prod.fst).idxOf f.name) f.type.lower)).1.Matches
      (r.fileMember { h with shape.fields := (placeIn l f).shape.fields } f.id f.name
        (Layout.fieldEntry ((l.fields.map Prod.fst).idxOf f.name) f.type.lower)).2
      (placeIn l f) := by
  refine ⟨fileField_shaped r h l f hm.toShaped hx, ?_⟩
  intro p hp cls hc
  rcases mem_placed hp with rfl | hp
  · exact hk cls hc
  · exact hm.known p hp cls hc

theorem fieldPosition?_fieldEntry (i : Nat) (t : Ty) :
    (Layout.fieldEntry i t).fieldPosition? = some i := by
  have h : -(Layout.fieldEntry i t).offset - 1 = (i : Int) := by
    simp only [Layout.fieldEntry]
    omega
  simp only [Entry.fieldPosition?, h]

/-- The ways in which a field can be placed: under the name of a method it is
refused, and otherwise it is filed at its place in the layout. -/
theorem placeField_cases (r : Resolution) (cls : String) (h : Header) (l : Layout) (f : Binder)
    (hm : r.Shaped h l) :
    f.name ∈ l.methods.map Prod.fst ∧
        r.placeField cls 1 h f = (r.report f.pos (.fieldOverMethod cls f.name), h) ∨
      f.name ∉ l.methods.map Prod.fst ∧
        r.placeField cls 1 h f =
          r.fileMember { h with shape.fields := (placeIn l f).shape.fields } f.id f.name
            (Layout.fieldEntry ((l.fields.map Prod.fst).idxOf f.name) f.type.lower) := by
  have hfields : h.shape.fields = l.fields.map Prod.snd := by rw [hm.shape]; rfl
  obtain ⟨-, -, hdis⟩ := List.nodup_append.mp hm.distinct
  unfold placeField
  rw [hm.member?, Layout.lookup_scope]
  by_cases hx : f.name ∈ l.fields.map Prod.fst
  · obtain ⟨t, ht⟩ := lookup_isSome hx
    have hplain : t.isMethod = false := hm.plain _ (mem_of_lookup ht)
    have hold : (Layout.fieldEntry ((l.fields.map Prod.fst).idxOf f.name) t).isMethod = false :=
      hplain
    refine Or.inr ⟨fun hx' => hdis _ hx _ hx' rfl, ?_⟩
    simp only [ht, Option.map_some, Option.some_or, hold, fieldPosition?_fieldEntry]
    have hset : h.shape.fields.set ((l.fields.map Prod.fst).idxOf f.name) f.type.lower =
        (placeIn l f).shape.fields := by
      simp only [hfields, placeIn, Layout.shape, placed_of_mem _ hx, List.map_set]
    simp only [hset]
    rfl
  · have ht : l.fields.lookup f.name = none := lookup_eq_none.mpr hx
    by_cases hx' : f.name ∈ l.methods.map Prod.fst
    · obtain ⟨m, hmeth⟩ := lookup_isSome hx'
      refine Or.inl ⟨hx', ?_⟩
      simp only [ht, hmeth, Option.map_none, Option.map_some, Option.none_or]
      rfl
    · have hmeth : l.methods.lookup f.name = none := lookup_eq_none.mpr hx'
      refine Or.inr ⟨hx', ?_⟩
      simp only [ht, hmeth, Option.map_none, Option.none_or]
      have happ : h.shape.fields ++ [f.type.lower] = (placeIn l f).shape.fields := by
        simp [hfields, placeIn, Layout.shape, placed_of_notMem _ hx]
      have hidx : (l.fields.map Prod.fst).idxOf f.name = h.shape.fields.length := by
        rw [List.idxOf_eq_length_iff.mpr hx, hfields]
        simp
      rw [happ, hidx]
      have hoff : -(h.shape.fields.length : Int) - 1 = -1 - h.shape.fields.length := by omega
      rw [hoff]
      rfl

/-- A field that is placed without a fault is filed at its place. -/
theorem placeField_eq (r : Resolution) (cls : String) (h : Header) (l : Layout) (f : Binder)
    (hm : r.Matches h l) (he : (r.placeField cls 1 h f).1.errors = []) :
    f.name ∉ l.methods.map Prod.fst ∧
      r.placeField cls 1 h f =
        r.fileMember { h with shape.fields := (placeIn l f).shape.fields } f.id f.name
          (Layout.fieldEntry ((l.fields.map Prod.fst).idxOf f.name) f.type.lower) := by
  rcases placeField_cases r cls h l f hm.toShaped with ⟨-, heq⟩ | hfiled
  · rw [heq] at he
    exact absurd he (report_errors _ _ _)
  · exact hfiled

theorem binds_placeField (r : Resolution) (cls : String) (level : Nat) (h : Header) (f : Binder) :
    Binds [f.id] r (r.placeField cls level h f).1 := by
  unfold placeField
  simp only
  split
  · exact binds_fileMember r _ _ _ _
  · split
    · exact (binds_report r _ _).mono (List.nil_subset _)
    · exact binds_fileMember r _ _ _ _

theorem binds_placeFields (cls : String) (level : Nat) (fs : List Binder) :
    ∀ (seen : List String) (r : Resolution) (h : Header),
      Binds (fs.map Binder.id) r (placeFields cls level seen fs r h).1 := by
  induction fs with
  | nil => intro seen r h; exact Binds.refl _ r
  | cons f fs ih =>
    intro seen r h
    have hone : Binds [f.id] (r.checkType f.type)
        (if seen.contains f.name then
          ((r.checkType f.type).report f.pos (.repeatedMember .field cls f.name), h)
        else (r.checkType f.type).placeField cls level h f).1 := by
      split
      · exact (binds_report _ _ _).mono (List.nil_subset _)
      · exact binds_placeField _ cls level h f
    exact ((binds_checkType r f.type).append hone).append (ih _ _ _)

theorem placeField_scope (r : Resolution) (cls : String) (level : Nat) (h : Header) (f : Binder) :
    (r.placeField cls level h f).1.scope = r.scope := by
  unfold placeField
  simp only
  split
  · rfl
  · split <;> rfl

theorem placeFields_scope (cls : String) (level : Nat) (fs : List Binder) :
    ∀ (seen : List String) (r : Resolution) (h : Header),
      (placeFields cls level seen fs r h).1.scope = r.scope := by
  induction fs with
  | nil => intro seen r h; rfl
  | cons f fs ih =>
    intro seen r h
    simp only [placeFields, ih]
    split
    · exact checkType_scope r f.type
    · rw [placeField_scope, checkType_scope]

/-- The layout with more fields. -/
def placeAllIn (l : Layout) (fs : List Binder) : Layout :=
  { l with fields := fs.foldl (fun l f => placed f.name f.type.lower l) l.fields }

theorem names_placeAllIn (l : Layout) (fs : List Binder) :
    l.fields.map Prod.fst <+: (placeAllIn l fs).fields.map Prod.fst := by
  induction fs generalizing l with
  | nil => exact List.prefix_refl _
  | cons f fs ih => exact (names_placed f.name f.type.lower l.fields).trans (ih (placeIn l f))

/-- The fields are filed under their places in the given order of names. -/
def FieldsFiled (b : Bindings) (names : List String) (fs : List Binder) : Prop :=
  ∀ f ∈ fs, ∃ e, b.declared? f.id = some e ∧ e.fieldPosition? = some (names.idxOf f.name)

theorem declared?_grows {ids : List NodeId} {b b' : Bindings} (hg : b.Grows ids b') {n : NodeId}
    {e : Entry} (hd : b.declared? n = some e) (hn : n ∉ ids) : b'.declared? n = some e := by
  simp only [Bindings.declared?, Option.bind_eq_bind, Option.bind_eq_some_iff] at hd ⊢
  obtain ⟨id, hid, he⟩ := hd
  exact ⟨id, by rw [hg.declarations n hn]; exact hid, hg.entries _ _ he⟩

/-- Fields that are placed without a fault have different names, and the header
goes on to match the layout. -/
theorem placeFields_matches (cls : String) (fs : List Binder) :
    ∀ (seen : List String) (r : Resolution) (h : Header) (l : Layout), r.Matches h l →
      (fs.map Binder.id).Nodup → (placeFields cls 1 seen fs r h).1.errors = [] →
      (placeFields cls 1 seen fs r h).1.Matches (placeFields cls 1 seen fs r h).2
          (placeAllIn l fs) ∧
        (∀ f ∈ fs, f.name ∉ seen) ∧ (fs.map Binder.name).Nodup ∧
        FieldsFiled (placeFields cls 1 seen fs r h).1.bindings
          ((placeAllIn l fs).fields.map Prod.fst) fs := by
  induction fs with
  | nil =>
    intro seen r h l hm _ _
    exact ⟨hm, by simp, by simp, fun f hf => by cases hf⟩
  | cons f fs ih =>
    intro seen r h l hm hn he
    simp only [List.map_cons, List.nodup_cons] at hn
    have hcheck := binds_checkType r f.type
    have hm₁ := hm.binds hcheck
    have hrest := binds_placeFields cls 1 fs
    simp only [placeFields] at he ⊢
    by_cases hs : seen.contains f.name
    · simp only [hs, if_true] at he
      exact absurd ((hrest _ _ _).clean he) (report_errors _ _ _)
    · simp only [hs, if_false, Bool.false_eq_true] at he ⊢
      have hone := binds_placeField (r.checkType f.type) cls 1 h f
      have heone := (hrest _ _ _).clean he
      obtain ⟨hx, heq⟩ := placeField_eq (r.checkType f.type) cls h l f hm₁ heone
      have hknown : ∀ c, f.type.lower = .ref c → c ∈ (r.checkType f.type).classNames := by
        rw [hcheck.classNames]
        exact checkType_known r f.type (hone.clean heone)
      have hm₂ := fileField_matches _ h l f hm₁ hknown hx
      have hdecl := fileMember_declared (r.checkType f.type)
        { h with shape.fields := (placeIn l f).shape.fields } f.id f.name
        (Layout.fieldEntry ((l.fields.map Prod.fst).idxOf f.name) f.type.lower)
      rw [← heq] at hm₂ hdecl
      obtain ⟨hm₃, hseen, hnames, hfiled⟩ := ih (f.name :: seen) _ _ _ hm₂ hn.2 he
      refine ⟨hm₃, ?_, ?_, ?_⟩
      · intro g hg
        rcases List.mem_cons.mp hg with rfl | hg
        · simpa using hs
        · exact fun hin => hseen g hg (List.mem_cons_of_mem _ hin)
      · simp only [List.map_cons, List.nodup_cons]
        refine ⟨?_, hnames⟩
        intro hin
        obtain ⟨g, hg, hgn⟩ := List.mem_map.mp hin
        exact hseen g hg (by simp [hgn])
      · intro g hg
        rcases List.mem_cons.mp hg with rfl | hg
        · refine ⟨_, declared?_grows (hrest _ _ _).bindings hdecl hn.1, ?_⟩
          rw [fieldPosition?_fieldEntry]
          have hp := names_placeAllIn (placeIn l g) fs
          have hidx := idxOf_of_prefix hp (mem_names_placed g.name g.type.lower l.fields)
          have hidx' := idxOf_placed g.name g.type.lower l.fields
          exact congrArg some (hidx'.symm.trans hidx.symm)
        · exact hfiled g hg

/-! Methods. -/

/-- The layout with one more method, declared by the given class. -/
def placeMethodIn (l : Layout) (owner : String) (m : MethodDecl) : Layout :=
  { l with methods := placed m.name ⟨owner, m⟩ l.methods }

theorem binds_fileSlot (r : Resolution) (node : NodeId) (slot : MethodSlot) :
    Binds [node] r { r with bindings := r.bindings.fileSlot node slot } := by
  refine ⟨⟨rfl, List.prefix_refl _, ?_⟩, rfl, rfl, rfl⟩
  refine ⟨fun _ _ h => h, fun _ _ h => h, fun _ _ => rfl, fun _ _ => rfl, fun _ _ => rfl, ?_,
    fun _ _ => rfl, fun h => ⟨h.bounded, h.distinct⟩⟩
  intro n hn
  have hne : ¬ node = n := fun h => hn (by simp [h])
  simp [Bindings.fileSlot, Std.TreeMap.getElem?_insert, hne]

theorem binds_fileMethod (r : Resolution) (h : Header) (level : Nat) (m : MethodDecl)
    (slot : MethodSlot) : Binds [m.id] r (r.fileMethod h level m slot).1 :=
  (binds_fileMember r h m.id m.name _).trans (binds_fileSlot _ m.id slot)

theorem fileMethod_slot (r : Resolution) (h : Header) (level : Nat) (m : MethodDecl)
    (slot : MethodSlot) : (r.fileMethod h level m slot).1.bindings.slots[m.id]? = some slot := by
  simp [fileMethod, Bindings.fileSlot]

/-- A method that is filed in its slot. -/
theorem fileMethod_shaped (r : Resolution) (h : Header) (l : Layout) (owner : String)
    (m : MethodDecl) (inherited : Bool) (hm : r.Shaped h l)
    (hx : m.name ∉ l.fields.map Prod.fst) :
    (r.fileMethod { h with shape.methods := (placeMethodIn l owner m).shape.methods } 1 m
        ⟨(l.methods.map Prod.fst).idxOf m.name, inherited⟩).1.Shaped
      (r.fileMethod { h with shape.methods := (placeMethodIn l owner m).shape.methods } 1 m
        ⟨(l.methods.map Prod.fst).idxOf m.name, inherited⟩).2 (placeMethodIn l owner m) := by
  obtain ⟨hnf, hnm, hdis⟩ := List.nodup_append.mp hm.distinct
  refine ⟨?_, ?_, ?_, hm.plain⟩
  · refine lists_congr (fileMember_lists r _ m.id m.name _ hm.members) ?_
    intro y
    rw [Layout.lookup_scope]
    by_cases hy : y = m.name
    · subst hy
      have hf : l.fields.lookup m.name = none := lookup_eq_none.mpr hx
      simp [placeMethodIn, lookup_placed, idxOf_placed, hf, Layout.methodEntry]
    · have hidx : ∀ i, l.methods.lookup y = some i →
          ((placed m.name ⟨owner, m⟩ l.methods).map Prod.fst).idxOf y =
            (l.methods.map Prod.fst).idxOf y := by
        intro i hi
        exact idxOf_of_prefix (names_placed _ _ _) (List.mem_map_of_mem (mem_of_lookup hi))
      rw [lookup_cons_of_ne hy, Layout.lookup_scope]
      simp only [placeMethodIn, lookup_placed, hy, if_false]
      cases hl : l.methods.lookup y with
      | none => rfl
      | some i => simp [hidx i hl]
  · simp only [fileMethod, fileMember, Layout.shape, placeMethodIn, hm.shape]
  · refine List.nodup_append.mpr ⟨hnf, nodup_placed hnm, ?_⟩
    intro y hy z hz hyz
    rcases mem_names_of_placed hz with rfl | hz
    · exact hx (hyz ▸ hy)
    · exact hdis y hy z hz hyz

/-- The ways in which a method can be placed: under the name of a field it is
refused, and otherwise it is filed in its slot. -/
theorem placeMethod_cases (r : Resolution) (cls owner : String) (h : Header) (l : Layout)
    (m : MethodDecl) (hm : r.Shaped h l) :
    m.name ∈ l.fields.map Prod.fst ∧
        r.placeMethod cls 1 h m = (r.report m.pos (.methodOverField cls m.name), h) ∨
      m.name ∉ l.fields.map Prod.fst ∧ ∃ inherited, r.placeMethod cls 1 h m =
        r.fileMethod { h with shape.methods := (placeMethodIn l owner m).shape.methods } 1 m
          ⟨(l.methods.map Prod.fst).idxOf m.name, inherited⟩ := by
  have hmethods : h.shape.methods = l.methods.map fun m => m.2.decl.signature := by
    rw [hm.shape]
    rfl
  unfold placeMethod
  rw [hm.member?, Layout.lookup_scope]
  by_cases hx : m.name ∈ l.fields.map Prod.fst
  · obtain ⟨t, ht⟩ := lookup_isSome hx
    have hplain : t.isMethod = false := hm.plain _ (mem_of_lookup ht)
    have hold : (Layout.fieldEntry ((l.fields.map Prod.fst).idxOf m.name) t).isMethod = false :=
      hplain
    refine Or.inl ⟨hx, ?_⟩
    simp only [ht, Option.map_some, Option.some_or, hold, Bool.not_false, if_true]
  · have ht : l.fields.lookup m.name = none := lookup_eq_none.mpr hx
    refine Or.inr ⟨hx, ?_⟩
    by_cases hx' : m.name ∈ l.methods.map Prod.fst
    · obtain ⟨old, hmeth⟩ := lookup_isSome hx'
      have hset : h.shape.methods.set ((l.methods.map Prod.fst).idxOf m.name) m.signature =
          (placeMethodIn l owner m).shape.methods := by
        simp only [hmethods, placeMethodIn, Layout.shape, placed_of_mem _ hx', List.map_set]
      refine ⟨true, ?_⟩
      simp only [ht, hmeth, Option.map_none, Option.map_some, Option.none_or]
      rw [← hset]
      rfl
    · have hmeth : l.methods.lookup m.name = none := lookup_eq_none.mpr hx'
      have happ : h.shape.methods ++ [m.signature] = (placeMethodIn l owner m).shape.methods := by
        simp [hmethods, placeMethodIn, Layout.shape, placed_of_notMem _ hx']
      have hidx : (l.methods.map Prod.fst).idxOf m.name = h.shape.methods.length := by
        rw [List.idxOf_eq_length_iff.mpr hx', hmethods]
        simp
      refine ⟨false, ?_⟩
      simp only [ht, hmeth, Option.map_none, Option.none_or]
      rw [happ, hidx]

/-- A method that is placed without a fault is filed in its slot. -/
theorem placeMethod_eq (r : Resolution) (cls owner : String) (h : Header) (l : Layout)
    (m : MethodDecl) (hm : r.Matches h l) (he : (r.placeMethod cls 1 h m).1.errors = []) :
    m.name ∉ l.fields.map Prod.fst ∧ ∃ inherited, r.placeMethod cls 1 h m =
      r.fileMethod { h with shape.methods := (placeMethodIn l owner m).shape.methods } 1 m
        ⟨(l.methods.map Prod.fst).idxOf m.name, inherited⟩ := by
  rcases placeMethod_cases r cls owner h l m hm.toShaped with ⟨-, heq⟩ | hfiled
  · rw [heq] at he
    exact absurd he (report_errors _ _ _)
  · exact hfiled

theorem binds_placeMethod (r : Resolution) (cls : String) (level : Nat) (h : Header)
    (m : MethodDecl) : Binds [m.id] r (r.placeMethod cls level h m).1 := by
  unfold placeMethod
  simp only
  split
  · exact binds_fileMethod r _ _ _ _
  · split
    · exact (binds_report r _ _).mono (List.nil_subset _)
    · exact binds_fileMethod r _ _ _ _

theorem placeMethod_scope (r : Resolution) (cls : String) (level : Nat) (h : Header)
    (m : MethodDecl) : (r.placeMethod cls level h m).1.scope = r.scope := by
  unfold placeMethod
  simp only
  split
  · rfl
  · split <;> rfl

theorem binds_placeMethods (cls : String) (level : Nat) (ms : List MethodDecl) :
    ∀ (seen : List String) (r : Resolution) (h : Header),
      Binds (ms.map MethodDecl.id) r (placeMethods cls level seen ms r h).1 := by
  induction ms with
  | nil => intro seen r h; exact Binds.refl _ r
  | cons m ms ih =>
    intro seen r h
    have hone : Binds [m.id] (r.checkSignature m.params m.ret)
        (if seen.contains m.name then
          ((r.checkSignature m.params m.ret).report m.pos (.repeatedMember .method cls m.name), h)
        else (r.checkSignature m.params m.ret).placeMethod cls level h m).1 := by
      split
      · exact (binds_report _ _ _).mono (List.nil_subset _)
      · exact binds_placeMethod _ cls level h m
    exact ((binds_checkSignature r m.params m.ret).append hone).append (ih _ _ _)

theorem placeMethods_scope (cls : String) (level : Nat) (ms : List MethodDecl) :
    ∀ (seen : List String) (r : Resolution) (h : Header),
      (placeMethods cls level seen ms r h).1.scope = r.scope := by
  induction ms with
  | nil => intro seen r h; rfl
  | cons m ms ih =>
    intro seen r h
    simp only [placeMethods, ih]
    split
    · exact checkSignature_scope r m.params m.ret
    · rw [placeMethod_scope, checkSignature_scope]

/-- The layout with more methods, declared by the given class. -/
def placeMethodsIn (l : Layout) (owner : String) (ms : List MethodDecl) : Layout :=
  { l with methods := ms.foldl (fun l m => placed m.name ⟨owner, m⟩ l) l.methods }

theorem names_placeMethodsIn (l : Layout) (owner : String) (ms : List MethodDecl) :
    l.methods.map Prod.fst <+: (placeMethodsIn l owner ms).methods.map Prod.fst := by
  induction ms generalizing l with
  | nil => exact List.prefix_refl _
  | cons m ms ih =>
    exact (names_placed m.name (⟨owner, m⟩ : Implementation) l.methods).trans
      (ih (placeMethodIn l owner m))

/-- The methods are filed under their places in the given order of names. -/
def SlotsFiled (b : Bindings) (names : List String) (ms : List MethodDecl) : Prop :=
  ∀ m ∈ ms, ∃ slot, b.slots[m.id]? = some slot ∧ slot.index = names.idxOf m.name

/-- Methods that are placed without a fault have different names and known
parameter types, and the header goes on to match the layout. -/
theorem placeMethods_matches (cls owner : String) (ms : List MethodDecl) :
    ∀ (seen : List String) (r : Resolution) (h : Header) (l : Layout), r.Matches h l →
      (ms.map MethodDecl.id).Nodup → (placeMethods cls 1 seen ms r h).1.errors = [] →
      (placeMethods cls 1 seen ms r h).1.Matches (placeMethods cls 1 seen ms r h).2
          (placeMethodsIn l owner ms) ∧
        (∀ m ∈ ms, m.name ∉ seen) ∧ (ms.map MethodDecl.name).Nodup ∧
        (∀ m ∈ ms, ParamsKnown r.classNames m.params) ∧
        SlotsFiled (placeMethods cls 1 seen ms r h).1.bindings
          ((placeMethodsIn l owner ms).methods.map Prod.fst) ms := by
  induction ms with
  | nil =>
    intro seen r h l hm _ _
    exact ⟨hm, by simp, by simp, by simp, fun m hm => by cases hm⟩
  | cons m ms ih =>
    intro seen r h l hm hn he
    simp only [List.map_cons, List.nodup_cons] at hn
    have hcheck := binds_checkSignature r m.params m.ret
    have hm₁ := hm.binds hcheck
    have hrest := binds_placeMethods cls 1 ms
    simp only [placeMethods] at he ⊢
    by_cases hs : seen.contains m.name
    · simp only [hs, if_true] at he
      exact absurd ((hrest _ _ _).clean he) (report_errors _ _ _)
    · simp only [hs, if_false, Bool.false_eq_true] at he ⊢
      have hone := binds_placeMethod (r.checkSignature m.params m.ret) cls 1 h m
      have heone := (hrest _ _ _).clean he
      obtain ⟨hx, inherited, heq⟩ :=
        placeMethod_eq (r.checkSignature m.params m.ret) cls owner h l m hm₁ heone
      have hknown := checkSignature_known r m.params m.ret (hone.clean heone)
      have hm₂ : Matches _ _ _ :=
        ⟨fileMethod_shaped _ h l owner m inherited hm₁.toShaped hx, hm₁.known⟩
      have hslot := fileMethod_slot (r.checkSignature m.params m.ret)
        { h with shape.methods := (placeMethodIn l owner m).shape.methods } 1 m
        ⟨(l.methods.map Prod.fst).idxOf m.name, inherited⟩
      rw [← heq] at hm₂ hslot
      obtain ⟨hm₃, hseen, hnames, hparams, hfiled⟩ := ih (m.name :: seen) _ _ _ hm₂ hn.2 he
      refine ⟨hm₃, ?_, ?_, ?_, ?_⟩
      · intro k hk
        rcases List.mem_cons.mp hk with rfl | hk
        · simpa using hs
        · exact fun hin => hseen k hk (List.mem_cons_of_mem _ hin)
      · simp only [List.map_cons, List.nodup_cons]
        refine ⟨?_, hnames⟩
        intro hin
        obtain ⟨k, hk, hkn⟩ := List.mem_map.mp hin
        exact hseen k hk (by simp [hkn])
      · intro k hk
        rcases List.mem_cons.mp hk with rfl | hk
        · exact hknown
        · have hp := hparams k hk
          rw [hone.classNames, hcheck.classNames] at hp
          exact hp
      · intro k hk
        rcases List.mem_cons.mp hk with rfl | hk
        · refine ⟨⟨(l.methods.map Prod.fst).idxOf k.name, inherited⟩, ?_, ?_⟩
          · rw [(hrest _ _ _).bindings.slots _ hn.1]
            exact hslot
          · have hp := names_placeMethodsIn (placeMethodIn l owner k) owner ms
            have hidx := idxOf_of_prefix hp (mem_names_placed k.name
              (⟨owner, k⟩ : Implementation) l.methods)
            have hidx' := idxOf_placed k.name (⟨owner, k⟩ : Implementation) l.methods
            exact hidx'.symm.trans hidx.symm
        · exact hfiled k hk

end Resolution

end Classlet
