import Classlet.Proofs.Renaming

/-!
Binding the names of two programs that are renamed into each other. Names are looked up in
frames, among the members of a class and among the classes, and are only ever compared; so
both states stay in step: the same nodes are filed with the same entries, whose types are
renamed, and the same faults are found.
-/

namespace Classlet

def Entry.rename (f : String → String) (e : Entry) : Entry := { e with type := e.type.rename f }

def ClassBinding.rename (f : String → String) (c : ClassBinding) : ClassBinding :=
  { c with parent? := c.parent?.map f }

structure Frame.Renamed (ρ : Renaming) (f f' : Frame) : Prop where
  names : ρ.Maps Eq f.names f'.names
  declPlace : f'.declPlace = f.declPlace
  paramPlace : f'.paramPlace = f.paramPlace

def Scope.Renamed (ρ : Renaming) (s s' : Scope) : Prop :=
  List.Forall₂ (Frame.Renamed ρ) s.frames s'.frames

structure ClassRecord.Renamed (ρ : Renaming) (r r' : ClassRecord) : Prop where
  entry : r'.entry = r.entry
  members : ρ.Maps Eq r.members r'.members

structure Bindings.Renamed (ρ : Renaming) (b b' : Bindings) : Prop where
  entries : b'.entries = b.entries.map (Entry.rename ρ.name)
  uses : b'.uses = b.uses
  sends : b'.sends = b.sends
  declarations : b'.declarations = b.declarations
  slots : b'.slots = b.slots
  classes : ∀ node : NodeId, b'.classes[node]? = b.classes[node]?.map (ClassBinding.rename ρ.name)
  records : ρ.Maps (ClassRecord.Renamed ρ) b.records b'.records

structure Resolution.Renamed (ρ : Renaming) (r r' : Resolution) : Prop where
  classNames : r'.classNames = r.classNames.map ρ.name
  scope : r.scope.Renamed ρ r'.scope
  bindings : r.bindings.Renamed ρ r'.bindings
  ancestry : r.ancestry.Renamed ρ r'.ancestry
  errors : List.Forall₂ (BindingError.Renamed ρ) r.errors r'.errors

/-! Scopes. -/

namespace Scope.Renamed

variable {ρ : Renaming} {s s' : Scope}

theorem push (h : s.Renamed ρ s') {names names' : Names} (hn : ρ.Maps Eq names names') :
    (s.push names).Renamed ρ (s'.push names') := .cons ⟨hn, rfl, rfl⟩ h

theorem pop (h : s.Renamed ρ s') : s.pop.Renamed ρ s'.pop := by
  obtain ⟨frames⟩ := s
  obtain ⟨frames'⟩ := s'
  cases h with
  | nil => exact .nil
  | cons _ hs => exact hs

theorem level (h : s.Renamed ρ s') : s'.level = s.level := by
  unfold Scope.level
  rw [List.Forall₂.length_eq h]

theorem takeDecl (h : s.Renamed ρ s') :
    s'.takeDecl.1 = s.takeDecl.1 ∧ s.takeDecl.2.Renamed ρ s'.takeDecl.2 := by
  obtain ⟨frames⟩ := s
  obtain ⟨frames'⟩ := s'
  cases h with
  | nil => exact ⟨rfl, .nil⟩
  | cons hf hs =>
    refine ⟨hf.declPlace, .cons ⟨hf.names, ?_, hf.paramPlace⟩ hs⟩
    rw [hf.declPlace]

theorem takeParam (h : s.Renamed ρ s') :
    s'.takeParam.1 = s.takeParam.1 ∧ s.takeParam.2.Renamed ρ s'.takeParam.2 := by
  obtain ⟨frames⟩ := s
  obtain ⟨frames'⟩ := s'
  cases h with
  | nil => exact ⟨rfl, .nil⟩
  | cons hf hs =>
    refine ⟨hf.paramPlace, .cons ⟨hf.names, hf.declPlace, ?_⟩ hs⟩
    rw [hf.paramPlace]

theorem hasLocal (h : s.Renamed ρ s') (x : String) : s'.hasLocal (ρ.name x) = s.hasLocal x := by
  obtain ⟨frames⟩ := s
  obtain ⟨frames'⟩ := s'
  cases h with
  | nil => rfl
  | cons hf _ => exact hf.names.contains x

theorem declare? (h : s.Renamed ρ s') (x : String) (entry : EntryId) :
    s.declare? x entry = none ∧ s'.declare? (ρ.name x) entry = none ∨
      ∃ t t', s.declare? x entry = some t ∧ s'.declare? (ρ.name x) entry = some t' ∧
        t.Renamed ρ t' := by
  obtain ⟨frames⟩ := s
  obtain ⟨frames'⟩ := s'
  cases h with
  | nil => exact Or.inl ⟨rfl, rfl⟩
  | @cons f f' _ _ hf hs =>
    simp only [Scope.declare?, hf.names.contains]
    cases f.names.contains x with
    | true => exact Or.inl ⟨rfl, rfl⟩
    | false =>
      exact Or.inr ⟨_, _, rfl, rfl, .cons ⟨hf.names.insert x rfl, hf.declPlace, hf.paramPlace⟩ hs⟩

theorem find? {frames frames' : List Frame} (h : List.Forall₂ (Frame.Renamed ρ) frames frames')
    (x : String) : Scope.find? (ρ.name x) frames' = Scope.find? x frames := by
  induction h with
  | nil => rfl
  | cons hf hs ih => simp only [Scope.find?, hf.names.eq, hs.length_eq, ih]

theorem use? (h : s.Renamed ρ s') (x : String) :
    Finding.use? s' (ρ.name x) = Finding.use? s x := by
  unfold Finding.use? Scope.lookup?
  rw [find? h, h.level]

end Scope.Renamed

/-! Tables. -/

namespace Bindings.Renamed

variable {ρ : Renaming} {b b' : Bindings}

theorem entry? (h : b.Renamed ρ b') (id : EntryId) :
    b'.entry? id = (b.entry? id).map (Entry.rename ρ.name) := by
  unfold Bindings.entry?
  rw [h.entries, Array.getElem?_map]

theorem used? (h : b.Renamed ρ b') (node : NodeId) :
    b'.used? node = (b.used? node).map fun (u, e) => (u, e.rename ρ.name) := by
  unfold Bindings.used?
  rw [h.uses]
  cases b.uses[node]? with
  | none => rfl
  | some u =>
    simp only [Option.bind_eq_bind, Option.bind_some, h.entry?]
    cases b.entry? u.entry <;> rfl

theorem declared? (h : b.Renamed ρ b') (node : NodeId) :
    b'.declared? node = (b.declared? node).map (Entry.rename ρ.name) := by
  unfold Bindings.declared?
  rw [h.declarations]
  cases b.declarations[node]? with
  | none => rfl
  | some id => exact h.entry? id

theorem record? (h : b.Renamed ρ b') (cls : String) :
    b.record? cls = none ∧ b'.record? (ρ.name cls) = none ∨
      ∃ r r', b.record? cls = some r ∧ b'.record? (ρ.name cls) = some r' ∧ r.Renamed ρ r' :=
  h.records.lookup cls

theorem shape? (h : b.Renamed ρ b') (cls : String) :
    b'.shape? (ρ.name cls) = (b.shape? cls).map (ClassShape.rename ρ.name) := by
  unfold Bindings.shape?
  rcases h.record? cls with ⟨hr, hr'⟩ | ⟨r, r', hr, hr', hrec⟩
  · rw [hr, hr']
    rfl
  · rw [hr, hr']
    simp only [Option.bind_eq_bind, Option.bind_some, hrec.entry, h.entry?]
    cases b.entry? r.entry with
    | none => rfl
    | some e => exact Ty.shape?_rename ρ.name e.type

theorem add (h : b.Renamed ρ b') (e : Entry) :
    (b'.add (e.rename ρ.name)).1 = (b.add e).1 ∧
      (b.add e).2.Renamed ρ (b'.add (e.rename ρ.name)).2 := by
  refine ⟨?_, ?_, h.uses, h.sends, h.declarations, h.slots, h.classes, h.records⟩
  · simp only [Bindings.add, h.entries, Array.size_map]
  · simp only [Bindings.add, h.entries, Array.map_push]

theorem fileUse (h : b.Renamed ρ b') (node : NodeId) (u : Use) :
    (b.fileUse node u).Renamed ρ (b'.fileUse node u) :=
  ⟨h.entries, congrArg (·.insert node u) h.uses, h.sends, h.declarations, h.slots, h.classes,
    h.records⟩

theorem fileSend (h : b.Renamed ρ b') (node : NodeId) (u : SendUse) :
    (b.fileSend node u).Renamed ρ (b'.fileSend node u) :=
  ⟨h.entries, h.uses, congrArg (·.insert node u) h.sends, h.declarations, h.slots, h.classes,
    h.records⟩

theorem fileDeclaration (h : b.Renamed ρ b') (node : NodeId) (entry : EntryId) :
    (b.fileDeclaration node entry).Renamed ρ (b'.fileDeclaration node entry) :=
  ⟨h.entries, h.uses, h.sends, congrArg (·.insert node entry) h.declarations, h.slots, h.classes,
    h.records⟩

theorem fileSlot (h : b.Renamed ρ b') (node : NodeId) (slot : MethodSlot) :
    (b.fileSlot node slot).Renamed ρ (b'.fileSlot node slot) :=
  ⟨h.entries, h.uses, h.sends, h.declarations, congrArg (·.insert node slot) h.slots, h.classes,
    h.records⟩

theorem fileClass (h : b.Renamed ρ b') (node : NodeId) (c : ClassBinding) :
    (b.fileClass node c).Renamed ρ (b'.fileClass node (c.rename ρ.name)) := by
  refine ⟨h.entries, h.uses, h.sends, h.declarations, h.slots, fun n => ?_, h.records⟩
  simp only [Bindings.fileClass, Std.TreeMap.getElem?_insert]
  split
  · rfl
  · exact h.classes n

theorem register? (h : b.Renamed ρ b') (cls : String) {r r' : ClassRecord}
    (hr : r.Renamed ρ r') :
    ((b.register? cls r).getD b).Renamed ρ ((b'.register? (ρ.name cls) r').getD b') := by
  unfold Bindings.register?
  rw [h.records.contains]
  cases b.records.contains cls with
  | true => exact h
  | false =>
    exact ⟨h.entries, h.uses, h.sends, h.declarations, h.slots, h.classes, h.records.insert cls hr⟩

end Bindings.Renamed

/-! Steps. -/

theorem optionRel_or {α β : Type} {V : α → β → Prop} {a b : Option α} {a' b' : Option β}
    (ha : Option.Rel V a a') (hb : Option.Rel V b b') : Option.Rel V (a.or b) (a'.or b') := by
  cases ha with
  | some h => exact .some h
  | none => exact hb

theorem WrittenType.Renamed.unknownClass? {ρ : Renaming} {a a' : WrittenType}
    (h : a.Renamed ρ a') (classes : List String) :
    Option.Rel (Located.Renamed ρ fun x x' => x' = ρ.name x)
      (a.unknownClass? classes.contains) (a'.unknownClass? (classes.map ρ.name).contains) := by
  refine WrittenType.Renamed.induction .none .none ?_ ?_ h
  · intro cls p q hpos
    simp only [WrittenType.unknownClass?, ρ.contains_name]
    split
    · exact .none
    · exact .some ⟨hpos, rfl⟩
  · intro as bs a b p q params ret
    refine optionRel_or ?_ ret
    induction params with
    | nil => exact .none
    | cons ha _ ih => exact optionRel_or ha ih

namespace Resolution.Renamed

variable {ρ : Renaming} {r r' : Resolution}

theorem report (h : r.Renamed ρ r') {pos pos' : Position} (hpos : ρ.place pos pos')
    (cause : BindingFault) :
    (r.report pos cause).Renamed ρ (r'.report pos' (cause.rename ρ.name)) :=
  { h with errors := List.rel_append h.errors (.cons ⟨hpos, rfl⟩ .nil) }

theorem checkType (h : r.Renamed ρ r') {a a' : WrittenType} (ha : a.Renamed ρ a') :
    (r.checkType a).Renamed ρ (r'.checkType a') := by
  unfold Resolution.checkType
  have hrel := ha.unknownClass? r.classNames
  rw [← h.classNames] at hrel
  generalize a.unknownClass? r.classNames.contains = x,
    a'.unknownClass? r'.classNames.contains = x' at hrel
  cases hrel with
  | none => exact h
  | @some e e' he =>
    obtain ⟨pos, cls⟩ := e
    obtain ⟨pos', cls'⟩ := e'
    obtain ⟨hpos, rfl⟩ := he
    exact h.report hpos (.noClass cls)

theorem checkSignature (h : r.Renamed ρ r') {bs bs' : List Binder} {a a' : WrittenType}
    (hbs : List.Forall₂ (Binder.Renamed ρ) bs bs') (ha : a.Renamed ρ a') :
    (r.checkSignature bs a).Renamed ρ (r'.checkSignature bs' a') := by
  unfold Resolution.checkSignature
  refine checkType ?_ ha
  induction hbs generalizing r r' with
  | nil => exact h
  | cons hb _ ih => exact ih (h.checkType hb.type)

theorem add (h : r.Renamed ρ r') (node : NodeId) (e : Entry) :
    (r'.add node (e.rename ρ.name)).1 = (r.add node e).1 ∧
      (r.add node e).2.Renamed ρ (r'.add node (e.rename ρ.name)).2 := by
  obtain ⟨hid, hb⟩ := h.bindings.add e
  refine ⟨hid, { h with bindings := ?_ }⟩
  simp only [Resolution.add, hid]
  exact hb.fileDeclaration node _

theorem withScope (h : r.Renamed ρ r') {s s' : Scope} (hs : s.Renamed ρ s') :
    { r with scope := s }.Renamed ρ { r' with scope := s' } := { h with scope := hs }

theorem declare (h : r.Renamed ρ r') (node : NodeId) (x : String) (kind : NameKind) (t : Ty)
    (offset : Int) {pos pos' : Position} (hpos : ρ.place pos pos') :
    (r.declare node x kind t offset pos).Renamed ρ
      (r'.declare node (ρ.name x) kind (t.rename ρ.name) offset pos') := by
  obtain ⟨hid, hadd⟩ := h.add node { level := r.scope.level, type := t, offset }
  simp only [Resolution.declare, h.scope.level]
  simp only [Entry.rename] at hid hadd
  rw [hid]
  rcases hadd.scope.declare? x (r.add node { level := r.scope.level, type := t, offset }).1 with
    ⟨hs, hs'⟩ | ⟨s, s', hs, hs', hrel⟩
  · rw [hs, hs']
    exact hadd.report hpos (.redeclared kind x)
  · rw [hs, hs']
    exact hadd.withScope hrel

theorem declareLocal (h : r.Renamed ρ r') (node : NodeId) (x : String) (kind : NameKind) (t : Ty)
    {pos pos' : Position} (hpos : ρ.place pos pos') :
    (r.declareLocal node x kind t pos).Renamed ρ
      (r'.declareLocal node (ρ.name x) kind (t.rename ρ.name) pos') := by
  obtain ⟨hplace, hs⟩ := h.scope.takeDecl
  simp only [Resolution.declareLocal, hplace]
  exact (h.withScope hs).declare node x kind t _ hpos

theorem declareParam (h : r.Renamed ρ r') {b b' : Binder} (hb : b.Renamed ρ b') :
    (r.declareParam b).Renamed ρ (r'.declareParam b') := by
  obtain ⟨hplace, hs⟩ := h.scope.takeParam
  simp only [Resolution.declareParam, hplace, hb.id, hb.name, hb.type.lower]
  exact (h.withScope hs).declare b.id b.name .parameter b.type.lower _ hb.pos

theorem enter (h : r.Renamed ρ r') {names names' : Names} (hn : ρ.Maps Eq names names') :
    (r.enter names).Renamed ρ (r'.enter names') := h.withScope (h.scope.push hn)

theorem leave (h : r.Renamed ρ r') : r.leave.Renamed ρ r'.leave := h.withScope h.scope.pop

end Resolution.Renamed

/-! Occurrences of names. -/

inductive Finding.Renamed (ρ : Renaming) : Finding → Finding → Prop
  | use (node : NodeId) (u : Use) : Renamed ρ (.use node u) (.use node u)
  | send (node : NodeId) (u : SendUse) : Renamed ρ (.send node u) (.send node u)
  | fault {e e' : BindingError} (h : e.Renamed ρ e') : Renamed ρ (.fault e) (.fault e')

namespace Finding

variable {ρ : Renaming} {s s' : Scope} {b b' : Bindings} {pos pos' : Position}

theorem ofName_renamed (hs : s.Renamed ρ s') (node : NodeId) (kind : NameKind) (x : String)
    (hpos : ρ.place pos pos') :
    (ofName s node kind x pos).Renamed ρ (ofName s' node kind (ρ.name x) pos') := by
  unfold ofName
  rw [hs.use?]
  cases use? s x with
  | some u => exact .use node u
  | none => exact .fault ⟨hpos, rfl⟩

theorem ofClass_renamed (hs : s.Renamed ρ s') (hb : b.Renamed ρ b') (node : NodeId) (cls : String)
    (hpos : ρ.place pos pos') :
    (ofClass s b node cls pos).Renamed ρ (ofClass s' b' node (ρ.name cls) pos') := by
  unfold ofClass
  rcases hb.record? cls with ⟨hr, hr'⟩ | ⟨r, r', hr, hr', hrec⟩
  · rw [hr, hr']
    exact .fault ⟨hpos, rfl⟩
  · rw [hr, hr']
    simp only [hrec.entry, hs.level]
    exact .use node _

theorem ofSend?_renamed (hs : s.Renamed ρ s') (hb : b.Renamed ρ b') (node : NodeId)
    (x y : String) (hpos : ρ.place pos pos') :
    Option.Rel (Finding.Renamed ρ) (ofSend? s b node x y pos)
      (ofSend? s' b' node (ρ.name x) (ρ.name y) pos') := by
  unfold ofSend?
  rw [hs.use?]
  cases use? s x with
  | none => exact .some (.fault ⟨hpos, rfl⟩)
  | some u =>
    have href : ((b'.entry? u.entry).bind fun e => e.type.referent?) =
        ((b.entry? u.entry).bind fun e => e.type.referent?).map ρ.name := by
      rw [hb.entry?]
      cases b.entry? u.entry with
      | none => rfl
      | some e => exact Ty.referent?_rename ρ.name e.type
    simp only [href]
    cases (b.entry? u.entry).bind fun e => e.type.referent? with
    | none => exact .some (.fault ⟨hpos, rfl⟩)
    | some cls =>
      simp only [Option.map_some]
      rcases hb.record? cls with ⟨hr, hr'⟩ | ⟨r, r', hr, hr', hrec⟩
      · rw [hr, hr']
        exact .none
      · rw [hr, hr']
        simp only [Option.map_some, hrec.members.eq]
        refine .some ?_
        cases r.members[y]? with
        | some entry => exact .send node _
        | none => exact .fault ⟨hpos, rfl⟩

end Finding

theorem optionRel_toList {α β : Type} {V : α → β → Prop} {a : Option α} {b : Option β}
    (h : Option.Rel V a b) : List.Forall₂ V a.toList b.toList := by
  cases h with
  | some hab => exact .cons hab .nil
  | none => exact .nil

theorem Expr.Renamed.findings {ρ : Renaming} {s s' : Scope} {b b' : Bindings} {e e' : Expr}
    (h : e.Renamed ρ e') (hs : s.Renamed ρ s') (hb : b.Renamed ρ b') :
    List.Forall₂ (Finding.Renamed ρ) (e.findings s b) (e'.findings s' b') := by
  have hargs : ∀ {es es' : List Expr}, List.Forall₂ (fun e e' : Expr =>
      List.Forall₂ (Finding.Renamed ρ) (e.findings s b) (e'.findings s' b')) es es' →
      List.Forall₂ (Finding.Renamed ρ) (findingsOfArgs s b es) (findingsOfArgs s' b' es') := by
    intro es es' hes
    induction hes with
    | nil => exact .nil
    | cons he _ ih => exact List.rel_append he ih
  refine Expr.Renamed.induction ?_ ?_ ?_ ?_ ?_ ?_ ?_ ?_ ?_ h
  · intro value p q _
    exact .nil
  · intro id x p q hpos
    exact .cons (Finding.ofName_renamed hs id .variable x hpos) .nil
  · intro op a a' c c' p q ha hc _
    exact List.rel_append ha hc
  · intro a a' p q ha _
    exact ha
  · intro a a' c c' d d' p q _ ha hc hd _
    exact List.rel_append (List.rel_append ha hc) hd
  · intro a a' p q ha _
    exact ha
  · intro id x es es' p q _ hes hpos
    exact .cons (Finding.ofName_renamed hs id .function x hpos) (hargs hes)
  · intro id x y es es' p q _ hes hpos
    exact List.rel_append (optionRel_toList (Finding.ofSend?_renamed hs hb id x y hpos)) (hargs hes)
  · intro id x es es' p q _ hes hpos
    exact .cons (Finding.ofClass_renamed hs hb id x hpos) (hargs hes)

namespace Resolution.Renamed

variable {ρ : Renaming} {r r' : Resolution}

theorem record (h : r.Renamed ρ r') {f f' : Finding} (hf : f.Renamed ρ f') :
    (r.record f).Renamed ρ (r'.record f') := by
  cases hf with
  | use node u => exact { h with bindings := h.bindings.fileUse node u }
  | send node u => exact { h with bindings := h.bindings.fileSend node u }
  | fault he => exact { h with errors := List.rel_append h.errors (.cons he .nil) }

theorem bindExpr (h : r.Renamed ρ r') {e e' : Expr} (he : e.Renamed ρ e') :
    (r.bindExpr e).Renamed ρ (r'.bindExpr e') := by
  have hfindings := he.findings h.scope h.bindings
  unfold Resolution.bindExpr
  generalize e.findings r.scope r.bindings = fs, e'.findings r'.scope r'.bindings = fs' at hfindings
  induction hfindings generalizing r r' with
  | nil => exact h
  | cons hf _ ih => exact ih (h.record hf)

end Resolution.Renamed

/-! Class headers. -/

structure Header.Renamed (ρ : Renaming) (h h' : Header) : Prop where
  members : ρ.Maps Eq h.members h'.members
  shape : h'.shape = h.shape.rename ρ.name

/-- A state and a class header that have been put together. -/
structure Resolution.LaysRenamed (ρ : Renaming) (x x' : Resolution × Header) : Prop where
  state : x.1.Renamed ρ x'.1
  header : x.2.Renamed ρ x'.2

namespace Resolution.Renamed

variable {ρ : Renaming} {r r' : Resolution} {h h' : Header}

theorem fileMember (hr : r.Renamed ρ r') (hh : h.Renamed ρ h') (node : NodeId) (x : String)
    (e : Entry) : LaysRenamed ρ (r.fileMember h node x e)
      (r'.fileMember h' node (ρ.name x) (e.rename ρ.name)) := by
  obtain ⟨hid, hadd⟩ := hr.add node e
  refine ⟨hadd, ?_, hh.shape⟩
  simp only [Resolution.fileMember, hid]
  exact hh.members.insert x rfl

theorem member? (hr : r.Renamed ρ r') (hh : h.Renamed ρ h') (x : String) :
    r'.member? h' (ρ.name x) = (r.member? h x).map (Entry.rename ρ.name) := by
  unfold Resolution.member?
  rw [hh.members.eq]
  cases h.members[x]? with
  | none => rfl
  | some id => exact hr.bindings.entry? id

theorem placeField (hr : r.Renamed ρ r') (hh : h.Renamed ρ h') (cls : String) (level : Nat)
    {f f' : Binder} (hf : f.Renamed ρ f') :
    LaysRenamed ρ (r.placeField cls level h f) (r'.placeField (ρ.name cls) level h' f') := by
  unfold Resolution.placeField
  simp only [hf.name, hr.member? hh, hh.shape, hf.type.lower, hf.id]
  cases r.member? h f.name with
  | none =>
    simp only [Option.map_none, ClassShape.rename, List.length_map]
    refine hr.fileMember ?_ f.id f.name
      { level, type := f.type.lower, offset := -(h.shape.fields.length : Int) - 1 }
    exact ⟨hh.members, by simp [ClassShape.rename]⟩
  | some old =>
    have hmethod : (old.rename ρ.name).isMethod = old.isMethod := Ty.isMethod_rename ρ.name old.type
    have hposition : (old.rename ρ.name).fieldPosition? = old.fieldPosition? := rfl
    have hoffset : (old.rename ρ.name).offset = old.offset := rfl
    simp only [Option.map_some, hmethod, hposition, hoffset]
    cases old.isMethod with
    | true => exact ⟨hr.report hf.pos (.fieldOverMethod cls f.name), hh⟩
    | false =>
      refine hr.fileMember ?_ f.id f.name { level, type := f.type.lower, offset := old.offset }
      refine ⟨hh.members, ?_⟩
      cases old.fieldPosition? with
      | none => rfl
      | some i => simp [ClassShape.rename, List.map_set]

theorem placeFields (cls : String) (level : Nat) {fs fs' : List Binder}
    (hfs : List.Forall₂ (Binder.Renamed ρ) fs fs') :
    ∀ (seen : List String) {r r' : Resolution} {h h' : Header}, r.Renamed ρ r' → h.Renamed ρ h' →
      LaysRenamed ρ (Resolution.placeFields cls level seen fs r h)
        (Resolution.placeFields (ρ.name cls) level (seen.map ρ.name) fs' r' h') := by
  induction hfs with
  | nil =>
    intro seen r r' h h' hr hh
    exact ⟨hr, hh⟩
  | @cons f f' fs fs' hf _ ih =>
    intro seen r r' h h' hr hh
    have hcheck := hr.checkType hf.type
    simp only [Resolution.placeFields, hf.name, ρ.contains_name]
    cases seen.contains f.name with
    | true =>
      exact ih (f.name :: seen) (hcheck.report hf.pos (.repeatedMember .field cls f.name)) hh
    | false =>
      obtain ⟨hstate, hheader⟩ := hcheck.placeField hh cls level hf
      exact ih (f.name :: seen) hstate hheader

theorem fileMethod (hr : r.Renamed ρ r') (hh : h.Renamed ρ h') (level : Nat) {m m' : MethodDecl}
    (hm : m.Renamed ρ m') (slot : MethodSlot) :
    LaysRenamed ρ (r.fileMethod h level m slot) (r'.fileMethod h' level m' slot) := by
  obtain ⟨hstate, hheader⟩ := hr.fileMember hh m.id m.name
    { level, type := .method m.signature, offset := slot.index }
  unfold Resolution.fileMethod
  rw [hm.id, hm.name, hm.signature]
  exact ⟨{ hstate with bindings := hstate.bindings.fileSlot m.id slot }, hheader⟩

theorem placeMethod (hr : r.Renamed ρ r') (hh : h.Renamed ρ h') (cls : String) (level : Nat)
    {m m' : MethodDecl} (hm : m.Renamed ρ m') :
    LaysRenamed ρ (r.placeMethod cls level h m) (r'.placeMethod (ρ.name cls) level h' m') := by
  unfold Resolution.placeMethod
  simp only [hm.name, hr.member? hh, hh.shape, hm.signature]
  cases r.member? h m.name with
  | none =>
    simp only [Option.map_none, ClassShape.rename, List.length_map]
    refine hr.fileMethod ?_ level hm _
    exact ⟨hh.members, by simp [ClassShape.rename]⟩
  | some old =>
    have hmethod : (old.rename ρ.name).isMethod = old.isMethod := Ty.isMethod_rename ρ.name old.type
    have hoffset : (old.rename ρ.name).offset = old.offset := rfl
    simp only [Option.map_some, hmethod, hoffset]
    cases old.isMethod with
    | false => exact ⟨hr.report hm.pos (.methodOverField cls m.name), hh⟩
    | true =>
      refine hr.fileMethod ?_ level hm _
      exact ⟨hh.members, by simp [ClassShape.rename, List.map_set]⟩

theorem placeMethods (cls : String) (level : Nat) {ms ms' : List MethodDecl}
    (hms : List.Forall₂ (MethodDecl.Renamed ρ) ms ms') :
    ∀ (seen : List String) {r r' : Resolution} {h h' : Header}, r.Renamed ρ r' → h.Renamed ρ h' →
      LaysRenamed ρ (Resolution.placeMethods cls level seen ms r h)
        (Resolution.placeMethods (ρ.name cls) level (seen.map ρ.name) ms' r' h') := by
  induction hms with
  | nil =>
    intro seen r r' h h' hr hh
    exact ⟨hr, hh⟩
  | @cons m m' ms ms' hm _ ih =>
    intro seen r r' h h' hr hh
    have hcheck := hr.checkSignature hm.params hm.ret
    simp only [Resolution.placeMethods, hm.name, ρ.contains_name]
    cases seen.contains m.name with
    | true =>
      exact ih (m.name :: seen) (hcheck.report hm.pos (.repeatedMember .method cls m.name)) hh
    | false =>
      obtain ⟨hstate, hheader⟩ := hcheck.placeMethod hh cls level hm
      exact ih (m.name :: seen) hstate hheader

theorem inherit (hr : r.Renamed ρ r') {c c' : ClassDecl} (hc : c.Renamed ρ c') :
    (r.inherit c).1.Renamed ρ (r'.inherit c').1 ∧
      (r.inherit c).2.1.Renamed ρ (r'.inherit c').2.1 ∧
      (r'.inherit c').2.2 = (r.inherit c).2.2.map ρ.name := by
  have hempty : Header.Renamed ρ {} {} := ⟨.empty, rfl⟩
  unfold Resolution.inherit
  rw [hc.parent?, hc.name]
  cases c.parent? with
  | none => exact ⟨hr, hempty, rfl⟩
  | some parent =>
    simp only [Option.map_some]
    rcases hr.bindings.record? parent with ⟨hrec, hrec'⟩ | ⟨x, x', hrec, hrec', hx⟩
    · rw [hrec, hrec']
      exact ⟨hr.report hc.pos (.noSuperclass c.name parent), hempty, rfl⟩
    · rw [hrec, hrec']
      refine ⟨{ hr with ancestry := hr.ancestry.setParent c.name parent }, ⟨hx.members, ?_⟩, rfl⟩
      simp only [hr.bindings.shape?]
      cases r.bindings.shape? parent <;> rfl

theorem reportTaken (hr : r.Renamed ρ r') {c c' : ClassDecl} (hc : c.Renamed ρ c') :
    (if r.scope.hasLocal c.name then r.report c.pos (.redeclared .cls c.name) else r).Renamed ρ
      (if r'.scope.hasLocal (ρ.name c.name) then r'.report c'.pos (.redeclared .cls (ρ.name c.name))
      else r') := by
  rw [hr.scope.hasLocal]
  split
  · exact hr.report hc.pos (.redeclared .cls c.name)
  · exact hr

theorem layClass (hr : r.Renamed ρ r') {c c' : ClassDecl} (hc : c.Renamed ρ c') :
    (r.layClass c).1.Renamed ρ (r'.layClass c').1 ∧
      ρ.Maps Eq (r.layClass c).2 (r'.layClass c').2 := by
  obtain ⟨hoffset, htaken⟩ := hr.scope.takeDecl
  obtain ⟨hstate, hheader, hparent⟩ := (hr.withScope htaken).inherit hc
  obtain ⟨hfields, hplaced⟩ := placeFields c.name (r.scope.level + 1) hc.fields []
    (hstate.reportTaken hc) hheader
  have hmethods := placeMethods c.name (r.scope.level + 1) hc.methods [] hfields hplaced
  simp only [Resolution.layClass, hc.name, hc.id, hr.scope.level, hoffset, hparent]
  rw [List.map_nil] at hmethods
  -- From here on only the state and the header that were put together matter.
  generalize Resolution.placeMethods c.name _ _ _ _ _ = x,
    Resolution.placeMethods (ρ.name c.name) _ _ _ _ _ = x' at hmethods ⊢
  obtain ⟨hstate, hheader⟩ := hmethods
  obtain ⟨hid, hadd⟩ := hstate.add c.id
    { level := x.1.scope.level, type := x.2.shape.toTy, offset := r.scope.takeDecl.1 }
  have hentry : Entry.rename ρ.name
      { level := x.1.scope.level, type := x.2.shape.toTy, offset := r.scope.takeDecl.1 } =
      { level := x'.1.scope.level, type := x'.2.shape.toTy, offset := r.scope.takeDecl.1 } := by
    rw [hstate.scope.level, hheader.shape, ClassShape.toTy_rename]
    rfl
  rw [hentry] at hid hadd
  rw [hid]
  generalize x.1.add c.id _ = y, x'.1.add c.id _ = y' at hadd ⊢
  have hfiled := hadd.bindings.fileClass c.id
    { entry := y.1, parent? := (Resolution.inherit { r with scope := r.scope.takeDecl.2 } c).2.2 }
  refine ⟨⟨hadd.classNames, ?_, hfiled.register? c.name ⟨rfl, hheader.members⟩, hadd.ancestry,
    hadd.errors⟩, hheader.members⟩
  rcases hadd.scope.declare? c.name y.1 with ⟨hs, hs'⟩ | ⟨s, s', hs, hs', hrel⟩
  · simp only [hs, hs']
    exact hadd.scope
  · simp only [hs, hs']
    exact hrel

theorem layClasses {cs cs' : List ClassDecl} (hcs : List.Forall₂ (ClassDecl.Renamed ρ) cs cs') :
    ∀ {r r' : Resolution}, r.Renamed ρ r' →
      (Resolution.layClasses cs r).1.Renamed ρ (Resolution.layClasses cs' r').1 ∧
        List.Forall₂ (ρ.Maps Eq) (Resolution.layClasses cs r).2
          (Resolution.layClasses cs' r').2 := by
  induction hcs with
  | nil =>
    intro r r' hr
    exact ⟨hr, .nil⟩
  | cons hc _ ih =>
    intro r r' hr
    obtain ⟨hstate, hmembers⟩ := hr.layClass hc
    obtain ⟨hrest, hall⟩ := ih hstate
    exact ⟨hrest, .cons hmembers hall⟩

/-! Declarations. -/

theorem declareParams {bs bs' : List Binder} (hbs : List.Forall₂ (Binder.Renamed ρ) bs bs') :
    ∀ {r r' : Resolution}, r.Renamed ρ r' →
      (bs.foldl Resolution.declareParam r).Renamed ρ (bs'.foldl Resolution.declareParam r') := by
  induction hbs with
  | nil =>
    intro r r' hr
    exact hr
  | cons hb _ ih =>
    intro r r' hr
    exact ih (hr.declareParam hb)

theorem bindDecls_of {ds ds' : List Decl} (hds : List.Forall₂ (fun d d' => ∀ r r' : Resolution,
      r.Renamed ρ r' → (Resolution.bindDecl d r).Renamed ρ (Resolution.bindDecl d' r')) ds ds') :
    ∀ {r r' : Resolution}, r.Renamed ρ r' →
      (Resolution.bindDecls ds r).Renamed ρ (Resolution.bindDecls ds' r') := by
  induction hds with
  | nil =>
    intro r r' hr
    exact hr
  | cons hd _ ih =>
    intro r r' hr
    exact ih (hd _ _ hr)

theorem bindDecl {d d' : Decl} (hd : d.Renamed ρ d') (r r' : Resolution) (hr : r.Renamed ρ r') :
    (Resolution.bindDecl d r).Renamed ρ (Resolution.bindDecl d' r') := by
  revert r r'
  refine Decl.Renamed.induction ?_ ?_ hd
  · intro id x a a' e e' p q ha he hpos r r' hr
    simp only [Resolution.bindDecl, ha.lower]
    exact ((hr.bindExpr he).checkType ha).declareLocal id x .variable a.lower hpos
  · intro id x bs bs' a a' ds ds' e e' p q hbs ha _ hds he hpos r r' hr
    have hdeclared := (hr.checkSignature hbs ha).declareLocal id x .function
      (.arrow (signatureOf bs a)) hpos
    have hinside := declareParams hbs (hdeclared.enter .empty)
    simp only [Resolution.bindDecl, signatureOf_renamed hbs ha]
    exact leave (bindExpr (bindDecls_of hds hinside) he)

theorem bindDecls {ds ds' : List Decl} (hds : List.Forall₂ (Decl.Renamed ρ) ds ds')
    (hr : r.Renamed ρ r') :
    (Resolution.bindDecls ds r).Renamed ρ (Resolution.bindDecls ds' r') :=
  bindDecls_of (hds.imp fun _ _ hd => bindDecl hd) hr

theorem bindMethod (hr : r.Renamed ρ r') {m m' : MethodDecl} (hm : m.Renamed ρ m') :
    (r.bindMethod m).Renamed ρ (r'.bindMethod m') :=
  leave (bindExpr (bindDecls hm.decls (declareParams hm.params (hr.enter .empty))) hm.body)

theorem bindClass (hr : r.Renamed ρ r') {c c' : ClassDecl} (hc : c.Renamed ρ c')
    {names names' : Names} (hn : ρ.Maps Eq names names') :
    (r.bindClass c names).Renamed ρ (r'.bindClass c' names') := by
  have hall : ∀ {ms ms' : List MethodDecl}, List.Forall₂ (MethodDecl.Renamed ρ) ms ms' →
      ∀ {r r' : Resolution}, r.Renamed ρ r' →
        (ms.foldl Resolution.bindMethod r).Renamed ρ (ms'.foldl Resolution.bindMethod r') := by
    intro ms ms' hms
    induction hms with
    | nil =>
      intro r r' hr
      exact hr
    | cons hm _ ih =>
      intro r r' hr
      exact ih (hr.bindMethod hm)
  exact leave (hall hc.methods (hr.enter hn))

theorem bindClasses {cs cs' : List ClassDecl} (hcs : List.Forall₂ (ClassDecl.Renamed ρ) cs cs') :
    ∀ {all all' : List Names} {r r' : Resolution}, List.Forall₂ (ρ.Maps Eq) all all' →
      r.Renamed ρ r' →
      ((cs.zip all).foldl (fun r (c, ms) => r.bindClass c ms) r).Renamed ρ
        ((cs'.zip all').foldl (fun r (c, ms) => r.bindClass c ms) r') := by
  induction hcs with
  | nil =>
    intro all all' r r' _ hr
    exact hr
  | cons hc _ ih =>
    intro all all' r r' hall hr
    cases hall with
    | nil => exact hr
    | cons hn hall => exact ih hall (hr.bindClass hc hn)

end Resolution.Renamed

/-- Binding the names of programs that are renamed into each other finds the same entries and
the same faults. -/
theorem Program.Renamed.resolve {ρ : Renaming} {p p' : Program} (h : p.Renamed ρ p') :
    p.resolve.Renamed ρ p'.resolve := by
  have hnames : p'.classes.map ClassDecl.name = (p.classes.map ClassDecl.name).map ρ.name := by
    have hall := h.classes
    generalize p.classes = cs, p'.classes = cs' at hall
    induction hall with
    | nil => rfl
    | cons hc _ ih => simp only [List.map_cons, hc.name, ih]
  have hempty : Bindings.Renamed ρ {} {} :=
    ⟨by simp, rfl, rfl, rfl, rfl, fun node => by simp, .empty⟩
  have hstart : Resolution.Renamed ρ { classNames := p.classes.map ClassDecl.name }
      { classNames := p'.classes.map ClassDecl.name } :=
    ⟨hnames, .nil, hempty, ⟨.empty, rfl⟩, .nil⟩
  obtain ⟨hlaid, hmembers⟩ := Resolution.Renamed.layClasses h.classes (hstart.enter .empty)
  have hbound := Resolution.Renamed.bindClasses h.classes hmembers hlaid
  exact ((Resolution.Renamed.bindDecls h.decls hbound).bindExpr h.body).leave

end Classlet
