import Classlet.Proofs.MemberPlaces
import Classlet.Proofs.Scoping

/-!
The names of a whole program are bound as lexical scope says. The headers of the
classes are put together first: a class has under each name the declaration that
the text gives it, from its own members and those of its superclass, and of several
classes of one name the first counts. With that, every expression of the program is
bound inside frames which select what the frames of the text select.
-/

namespace Classlet

/-- The members of a class have the entries of their declarations, which tell fields
from methods. -/
def Bindings.Enrols (b : Bindings) (names : Names) (members : String → Option Member) : Prop :=
  ∀ x, match members x with
    | none => names[x]? = none
    | some m => ∃ id e, names[x]? = some id ∧ b.declarations[m.node]? = some id ∧
        b.entry? id = some e ∧ e.isMethod = m.isMethod

open Bindings

section

variable {b b' : Bindings} {names : Names} {members : String → Option Member}

theorem Bindings.Enrols.grows {ids : List NodeId} (h : b.Enrols names members)
    (ha : b.Awaits ids) (hg : b.Grows ids b') : b'.Enrols names members := by
  intro x
  have hx := h x
  cases hm : members x with
  | none =>
    rw [hm] at hx
    exact hx
  | some m =>
    rw [hm] at hx
    obtain ⟨id, e, hid, hdecl, he, hkind⟩ := hx
    exact ⟨id, e, hid, ha.declaration hg hdecl, hg.entries _ _ he, hkind⟩

theorem Bindings.Enrols.declares (h : b.Enrols names members) :
    b.Declares names fun x => (members x).map Member.node := by
  intro x
  have hx := h x
  cases hm : members x with
  | none =>
    rw [hm] at hx
    simpa only [hm, Option.map_none] using hx
  | some m =>
    rw [hm] at hx
    obtain ⟨id, e, hid, hdecl, he, -⟩ := hx
    simp only [hm, Option.map_some]
    exact ⟨id, e, hid, hdecl, he⟩

end

/-! Members are declared one after the other, and a name that was seen before is
left out. -/

/-- The declarations of a frame whose names are not among those seen before. -/
def Naming.unseen (seen : List String) (γ : Naming) : Naming :=
  fun x => if x ∈ seen then none else γ x

/-- Members with declarations of one kind added. -/
def Member.extend (isMethod : Bool) (γ : Naming) (members : String → Option Member) :
    String → Option Member :=
  fun x => Member.over isMethod (γ x) (members x)

theorem Member.over_none (isMethod : Bool) (m : Option Member) :
    Member.over isMethod none m = m := by
  cases m with
  | none => rfl
  | some old =>
    unfold Member.over
    by_cases h : old.isMethod = isMethod
    · subst h
      simp
    · simp [h]

theorem Member.extend_nil (isMethod : Bool) (seen : List String)
    (members : String → Option Member) :
    Member.extend isMethod (Naming.unseen seen (.ofList [])) members = members := by
  funext x
  have hnone : Naming.unseen seen (.ofList []) x = none := by
    simp [Naming.unseen, Naming.ofList]
  rw [Member.extend, hnone, Member.over_none]

theorem Member.extend_cons (isMethod : Bool) (seen : List String) (x : String) (n : NodeId)
    (l : List (String × NodeId)) (members : String → Option Member) :
    Member.extend isMethod (Naming.unseen seen (.ofList ((x, n) :: l))) members =
      Member.extend isMethod (Naming.unseen (x :: seen) (.ofList l))
        (if x ∈ seen then members else Member.extend isMethod (.ofList [(x, n)]) members) := by
  funext y
  have hsplit : Naming.ofList ((x, n) :: l) y =
      (Naming.ofList [(x, n)] y).or (Naming.ofList l y) := Naming.ofList_append [(x, n)] l y
  simp only [Member.extend, Naming.unseen, List.mem_cons, hsplit, Naming.ofList_singleton]
  by_cases hxy : x = y
  · subst hxy
    by_cases hseen : x ∈ seen
    · simp [hseen, Member.over_none]
    · simp [hseen, Member.over_none, Member.extend, Naming.ofList_singleton]
  · have hyx : ¬ y = x := Ne.symm hxy
    by_cases hseen : x ∈ seen
    · simp [hxy, hyx, hseen]
    · simp [hxy, hyx, hseen, Member.over_none, Member.extend, Naming.ofList_singleton]

namespace Resolution

/-- Filing a member gives its name to it. -/
theorem fileMember_enrols {members : String → Option Member} (r : Resolution) (h : Header)
    (node : NodeId) (name : String) (e : Entry) (hm : r.bindings.Enrols h.members members)
    (ha : r.bindings.Awaits [node]) :
    (r.fileMember h node name e).1.bindings.Enrols (r.fileMember h node name e).2.members
      fun x => if name = x then some ⟨node, e.isMethod⟩ else members x := by
  have hg := (binds_add r node e).bindings
  have hold := hm.grows ha hg
  have hdecl := getElem?_declarations_add r node e node
  rw [if_pos rfl] at hdecl
  intro x
  by_cases hx : name = x
  · subst hx
    simp only [if_true]
    exact ⟨r.bindings.entries.size, e, by simp [fileMember, add, Bindings.add], hdecl,
      entry_add r.bindings e, rfl⟩
  · have hy := hold x
    have hget : (r.fileMember h node name e).2.members[x]? = h.members[x]? := by
      simp [fileMember, Std.TreeMap.getElem?_insert, hx]
    simp only [if_neg hx]
    rw [hget]
    exact hy

/-- The member of a name, as found while the header is put together. -/
theorem member?_of_enrols {members : String → Option Member} {r : Resolution} {h : Header}
    (hm : r.bindings.Enrols h.members members) (x : String) :
    match members x with
    | none => r.member? h x = none
    | some m => ∃ e, r.member? h x = some e ∧ e.isMethod = m.isMethod := by
  have hx := hm x
  cases hmem : members x with
  | none =>
    rw [hmem] at hx
    simp only at hx ⊢
    simp [member?, hx]
  | some m =>
    rw [hmem] at hx
    obtain ⟨id, e, hid, -, he, hkind⟩ := hx
    exact ⟨e, by simp [member?, hid, he], hkind⟩

theorem extend_singleton (isMethod : Bool) (x : String) (n : NodeId)
    {members : String → Option Member} (h : ∀ m, members x = some m → m.isMethod = isMethod) :
    Member.extend isMethod (.ofList [(x, n)]) members =
      fun y => if x = y then some ⟨n, isMethod⟩ else members y := by
  funext y
  simp only [Member.extend, Naming.ofList_singleton]
  by_cases hxy : x = y
  · subst hxy
    cases hm : members x with
    | none => simp [Member.over]
    | some m => simp [Member.over, h m hm]
  · simp [hxy, Member.over_none]

theorem extend_refused (isMethod : Bool) (x : String) (n : NodeId)
    {members : String → Option Member} {m : Member} (hm : members x = some m)
    (h : m.isMethod ≠ isMethod) : Member.extend isMethod (.ofList [(x, n)]) members = members := by
  funext y
  simp only [Member.extend, Naming.ofList_singleton]
  by_cases hxy : x = y
  · subst hxy
    simp [hm, Member.over, h]
  · simp [hxy, Member.over_none]

theorem placeField_enrols {members : String → Option Member} (r : Resolution) (cls : String)
    (level : Nat) (h : Header) (f : Binder) (hm : r.bindings.Enrols h.members members)
    (ha : r.bindings.Awaits [f.id]) :
    (r.placeField cls level h f).1.bindings.Enrols (r.placeField cls level h f).2.members
      (Member.extend false (.ofList [f.named]) members) := by
  have hfound := member?_of_enrols hm f.name
  have hplain : ∀ offset, Entry.isMethod { level, type := f.type.lower, offset } = false :=
    fun _ => lower_isMethod f.type
  unfold placeField
  simp only
  cases hmem : members f.name with
  | none =>
    rw [hmem] at hfound
    simp only at hfound
    rw [hfound, Binder.named, extend_singleton false f.name f.id (by simp [hmem])]
    simp only
    rw [← hplain]
    exact fileMember_enrols r _ f.id f.name _ hm ha
  | some m =>
    rw [hmem] at hfound
    obtain ⟨old, hold, hkind⟩ := hfound
    rw [hold]
    simp only
    by_cases hmethod : old.isMethod
    · rw [if_pos hmethod, Binder.named, extend_refused false f.name f.id hmem]
      · exact hm
      · rw [← hkind, hmethod]
        simp
    · have hsame : ∀ m', members f.name = some m' → m'.isMethod = false := by
        intro m' hm'
        rw [hmem] at hm'
        cases hm'
        rw [← hkind]
        simpa using hmethod
      rw [if_neg hmethod, Binder.named, extend_singleton false f.name f.id hsame, ← hplain]
      exact fileMember_enrols r _ f.id f.name _ hm ha

theorem placeFields_enrols (cls : String) (level : Nat) (fs : List Binder) :
    ∀ (seen : List String) (r : Resolution) (h : Header) (members : String → Option Member),
      r.bindings.Enrols h.members members → r.bindings.Awaits (fs.map Binder.id) →
      (placeFields cls level seen fs r h).1.bindings.Enrols
        (placeFields cls level seen fs r h).2.members
        (Member.extend false (Naming.unseen seen (.ofList (fs.map Binder.named))) members) := by
  induction fs with
  | nil =>
    intro seen r h members hm _
    rw [List.map_nil, Member.extend_nil]
    exact hm
  | cons f fs ih =>
    intro seen r h members hm ha
    have ha' : r.bindings.Awaits ([] ++ ([f.id] ++ fs.map Binder.id)) := ha
    have htype := (binds_checkType r f.type).bindings
    have ha₁ := ha'.right htype
    have hm₁ := hm.grows ha'.left htype
    rw [List.map_cons, Binder.named, Member.extend_cons]
    simp only [placeFields]
    by_cases hs : f.name ∈ seen
    · simp only [List.contains_eq_mem, hs, decide_true, if_true]
      have hreport := binds_report (r.checkType f.type) f.pos (.repeatedMember .field cls f.name)
      exact ih _ _ _ _ hm₁ (ha₁.right (hreport.mono (List.nil_subset _)).bindings)
    · simp only [List.contains_eq_mem, hs, decide_false, Bool.false_eq_true, if_false]
      have hplace := binds_placeField (r.checkType f.type) cls level h f
      exact ih _ _ _ _ (placeField_enrols _ cls level h f hm₁ ha₁.left) (ha₁.right hplace.bindings)

theorem fileMethod_enrols {members : String → Option Member} (r : Resolution) (h : Header)
    (level : Nat) (m : MethodDecl) (slot : MethodSlot)
    (hm : r.bindings.Enrols h.members members) (ha : r.bindings.Awaits [m.id]) :
    (r.fileMethod h level m slot).1.bindings.Enrols (r.fileMethod h level m slot).2.members
      fun x => if m.name = x then some ⟨m.id, true⟩ else members x :=
  fileMember_enrols r h m.id m.name { level, type := .method m.signature, offset := slot.index }
    hm ha

theorem placeMethod_enrols {members : String → Option Member} (r : Resolution) (cls : String)
    (level : Nat) (h : Header) (m : MethodDecl) (hm : r.bindings.Enrols h.members members)
    (ha : r.bindings.Awaits [m.id]) :
    (r.placeMethod cls level h m).1.bindings.Enrols (r.placeMethod cls level h m).2.members
      (Member.extend true (.ofList [m.named]) members) := by
  have hfound := member?_of_enrols hm m.name
  unfold placeMethod
  simp only
  cases hmem : members m.name with
  | none =>
    rw [hmem] at hfound
    simp only at hfound
    rw [hfound, MethodDecl.named, extend_singleton true m.name m.id (by simp [hmem])]
    exact fileMethod_enrols r _ level m _ hm ha
  | some k =>
    rw [hmem] at hfound
    obtain ⟨old, hold, hkind⟩ := hfound
    rw [hold]
    simp only
    by_cases hmethod : old.isMethod
    · have hsame : ∀ k', members m.name = some k' → k'.isMethod = true := by
        intro k' hk'
        rw [hmem] at hk'
        cases hk'
        rw [← hkind, hmethod]
      rw [MethodDecl.named, extend_singleton true m.name m.id hsame]
      simp only [hmethod, Bool.not_true, Bool.false_eq_true, if_false]
      exact fileMethod_enrols r _ level m _ hm ha
    · rw [MethodDecl.named, extend_refused true m.name m.id hmem]
      · simp only [hmethod, Bool.not_false, if_true]
        exact hm
      · rw [← hkind]
        simpa using hmethod

theorem placeMethods_enrols (cls : String) (level : Nat) (ms : List MethodDecl) :
    ∀ (seen : List String) (r : Resolution) (h : Header) (members : String → Option Member),
      r.bindings.Enrols h.members members → r.bindings.Awaits (ms.map MethodDecl.id) →
      (placeMethods cls level seen ms r h).1.bindings.Enrols
        (placeMethods cls level seen ms r h).2.members
        (Member.extend true (Naming.unseen seen (.ofList (ms.map MethodDecl.named))) members) := by
  induction ms with
  | nil =>
    intro seen r h members hm _
    rw [List.map_nil, Member.extend_nil]
    exact hm
  | cons m ms ih =>
    intro seen r h members hm ha
    have ha' : r.bindings.Awaits ([] ++ ([m.id] ++ ms.map MethodDecl.id)) := ha
    have hsig := (binds_checkSignature r m.params m.ret).bindings
    have ha₁ := ha'.right hsig
    have hm₁ := hm.grows ha'.left hsig
    rw [List.map_cons, MethodDecl.named, Member.extend_cons]
    simp only [placeMethods]
    by_cases hs : m.name ∈ seen
    · simp only [List.contains_eq_mem, hs, decide_true, if_true]
      have hreport := binds_report (r.checkSignature m.params m.ret) m.pos
        (.repeatedMember .method cls m.name)
      exact ih _ _ _ _ hm₁ (ha₁.right (hreport.mono (List.nil_subset _)).bindings)
    · simp only [List.contains_eq_mem, hs, decide_false, Bool.false_eq_true, if_false]
      have hplace := binds_placeMethod (r.checkSignature m.params m.ret) cls level h m
      exact ih _ _ _ _ (placeMethod_enrols _ cls level h m hm₁ ha₁.left) (ha₁.right hplace.bindings)

/-- The members of a class are those of its superclass with its own over them. -/
theorem placeMembers_enrols {inherited : String → Option Member} (r : Resolution) (c : ClassDecl)
    (level : Nat) (h : Header) (hm : r.bindings.Enrols h.members inherited)
    (ha : r.bindings.Awaits (c.fields.map Binder.id ++ c.methods.map MethodDecl.id)) :
    (r.placeMembers c level h).1.bindings.Enrols (r.placeMembers c level h).2.members
      (c.membersOver inherited) := by
  have hall : ∀ γ : Naming, Naming.unseen [] γ = γ := by
    intro γ
    funext x
    simp [Naming.unseen]
  have hfields := placeFields_enrols c.name level c.fields [] r h inherited hm ha.left
  have hmethods := placeMethods_enrols c.name level c.methods [] _ _ _ hfields
    (ha.right (binds_placeFields c.name level c.fields [] r h).bindings)
  rw [hall, hall] at hmethods
  exact hmethods

end Resolution

/-! Classes. -/

theorem membersOf_cons_of_mem {c : ClassDecl} {earlier : List ClassDecl} {cls : String}
    (h : cls ∈ earlier.map ClassDecl.name) :
    membersOf (c :: earlier) cls = membersOf earlier cls := by
  funext x
  rw [membersOf, if_pos h]

theorem membersOf_cons_self {c : ClassDecl} {earlier : List ClassDecl}
    (h : c.name ∉ earlier.map ClassDecl.name) :
    membersOf (c :: earlier) c.name = c.membersOver (c.inherited earlier) := by
  funext x
  rw [membersOf, if_neg h, if_pos rfl]
  rfl

theorem membersOf_of_notMem {earlier : List ClassDecl} {cls : String}
    (h : cls ∉ earlier.map ClassDecl.name) (x : String) : membersOf earlier cls x = none := by
  cases earlier with
  | nil => rfl
  | cons c earlier =>
    simp only [List.map_cons, List.mem_cons, not_or] at h
    rw [membersOf, if_neg h.2, if_neg (Ne.symm h.1)]

namespace Resolution

section

variable {r : Resolution} {done : List ClassDecl} {c : ClassDecl}
  {P : Names → (String → Option Member) → Prop}

/-- A class starts from what holds of the members of all classes before it. -/
theorem openHeader_members
    (hreg : ∀ cls, (r.bindings.record? cls).isSome ↔ cls ∈ done.map ClassDecl.name)
    (hempty : P ∅ fun _ => none)
    (hold : ∀ cls record, r.bindings.record? cls = some record →
      P record.members (membersOf done cls)) :
    P (r.openHeader c).2.1.members (c.inherited done) := by
  have hheader : (r.openHeader c).2 = ({ r with scope := r.scope.takeDecl.2 }.inherit c).2 := rfl
  have hnone : (∀ x, c.inherited done x = none) → P ∅ (c.inherited done) := by
    intro h
    rw [funext h]
    exact hempty
  rw [hheader]
  unfold inherit
  cases hp : c.parent? with
  | none =>
    refine hnone fun x => ?_
    rw [ClassDecl.inherited, hp, Option.bind_none]
  | some parent =>
    cases hr : r.bindings.record? parent with
    | none =>
      simp only [hr]
      refine hnone fun x => ?_
      rw [ClassDecl.inherited, hp, Option.bind_some]
      apply membersOf_of_notMem
      rw [← hreg, hr]
      simp
    | some record =>
      simp only [hr]
      have hinherited : c.inherited done = membersOf done parent := by
        funext x
        rw [ClassDecl.inherited, hp, Option.bind_some]
      rw [hinherited]
      exact hold parent record hr

/-- What holds of the members of the classes before and of those of the class holds of the
members of all of them. -/
theorem layClass_members
    (hreg : ∀ cls, (r.bindings.record? cls).isSome ↔ cls ∈ done.map ClassDecl.name)
    (hold : ∀ cls record, r.bindings.record? cls = some record →
      P record.members (membersOf done cls))
    (hnew : P (r.layClass c).2 (c.membersOver (c.inherited done))) (cls : String)
    (record : ClassRecord) (hr : (r.layClass c).1.bindings.record? cls = some record) :
    P record.members (membersOf (c :: done) cls) := by
  rcases layClass_record_cases hr with ⟨rfl, hnone, rfl⟩ | hr
  · have hfirst : c.name ∉ done.map ClassDecl.name := by
      rw [← hreg, hnone]
      simp
    rw [membersOf_cons_self hfirst]
    exact hnew
  · have hknown : cls ∈ done.map ClassDecl.name := by
      rw [← hreg, hr]
      rfl
    rw [membersOf_cons_of_mem hknown]
    exact hold cls record hr

end

/-- The headers of classes are put together, the latest of them first in the list. -/
structure Announces (r : Resolution) (done : List ClassDecl) : Prop where
  selects : r.scope.Selects r.bindings [.ofList (done.reverse.map ClassDecl.named)]
  registered : ∀ cls, (r.bindings.record? cls).isSome ↔ cls ∈ done.map ClassDecl.name
  members : ∀ cls record, r.bindings.record? cls = some record →
    r.bindings.Enrols record.members (membersOf done cls)

/-- Closing a header declares the class behind the classes before it. -/
theorem closeHeader_selects {Γ : List Naming} {before : List (String × NodeId)} (r : Resolution)
    (c : ClassDecl) (h : Header) (parent? : Option String) (offset : Int)
    (hs : r.scope.Selects r.bindings (.ofList before :: Γ)) (ha : r.bindings.Awaits [c.id]) :
    let r' := r.closeHeader c h parent? offset
    r'.scope.Selects r'.bindings (.ofList (before ++ [c.named]) :: Γ) := by
  have hg := (extends_closeHeader r c h parent? offset).bindings
  obtain ⟨hdecl, he⟩ := closeHeader_declared r c h parent? offset
  exact (hs.grows ha hg).declare? hdecl he

theorem layClass_announces {r : Resolution} {done : List ClassDecl} (h : r.Announces done)
    (c : ClassDecl) (ha : r.bindings.Awaits c.headerIds) :
    (r.layClass c).1.Announces (c :: done) ∧
      (r.layClass c).1.bindings.Declares (r.layClass c).2 (c.naming done) := by
  have ha' : r.bindings.Awaits ((c.fields.map Binder.id ++ c.methods.map MethodDecl.id) ++
      [c.id]) := ha.perm (List.perm_append_singleton c.id _).symm
  have hfill := (extends_fillHeader r c).bindings
  have hclose := (extends_closed r c).bindings
  have hlast := ha'.right hfill
  have hplaced : (r.fillHeader c).1.bindings.Enrols (r.fillHeader c).2.members
      (c.membersOver (c.inherited done)) := by
    apply placeMembers_enrols
    · rw [openHeader_bindings]
      exact openHeader_members h.registered (fun x => by simp) h.members
    · rw [openHeader_bindings]
      exact ha'.left
  have hnew := hplaced.grows hlast hclose
  refine ⟨⟨?_, layClass_registered h.registered, ?_⟩, hnew.declares⟩
  · have hsel : (r.fillHeader c).1.scope.Selects (r.fillHeader c).1.bindings
        [.ofList (done.reverse.map ClassDecl.named)] := by
      rw [fillHeader_scope]
      exact (h.selects.rescope (Scope.names_takeDecl r.scope)).grows ha'.left hfill
    rw [List.reverse_cons, List.map_append]
    exact closeHeader_selects _ c _ _ _ hsel hlast
  · refine layClass_members h.registered ?_ hnew
    intro cls record hr
    exact ((h.members cls record hr).grows ha'.left hfill).grows hlast hclose

theorem layClasses_announces (cs : List ClassDecl) :
    ∀ (r : Resolution) (done : List ClassDecl), r.Announces done →
      r.bindings.Awaits (cs.flatMap ClassDecl.headerIds) →
      (layClasses cs r).1.Announces (cs.reverse ++ done) ∧
        List.Forall₂ (layClasses cs r).1.bindings.Declares (layClasses cs r).2
          (ClassDecl.namings done cs) := by
  induction cs with
  | nil =>
    intro r done h _
    exact ⟨h, List.Forall₂.nil⟩
  | cons c cs ih =>
    intro r done h ha
    obtain ⟨hone, hdecl⟩ := layClass_announces h c ha.left
    have hrest := ha.right (extends_layClass r c).bindings
    obtain ⟨hall, hdecls⟩ := ih (r.layClass c).1 (c :: done) hone hrest
    simp only [List.reverse_cons, List.append_assoc, List.singleton_append]
    exact ⟨hall, List.Forall₂.cons (hdecl.grows hrest (extends_layClasses cs _).bindings) hdecls⟩

/-! Headers report no missing name. -/

theorem undeclared_placeFields (cls : String) (level : Nat) (fs : List Binder) :
    ∀ (seen : List String) (r : Resolution) (h : Header),
      (placeFields cls level seen fs r h).1.undeclared = r.undeclared := by
  induction fs with
  | nil => intro seen r h; rfl
  | cons f fs ih =>
    intro seen r h
    simp only [placeFields, ih]
    split
    · rw [undeclared_report _ _ rfl, undeclared_checkType]
    · rw [← undeclared_checkType r f.type]
      unfold placeField
      simp only
      split
      · rfl
      · split
        · exact undeclared_report _ _ rfl
        · rfl

theorem undeclared_placeMethods (cls : String) (level : Nat) (ms : List MethodDecl) :
    ∀ (seen : List String) (r : Resolution) (h : Header),
      (placeMethods cls level seen ms r h).1.undeclared = r.undeclared := by
  induction ms with
  | nil => intro seen r h; rfl
  | cons m ms ih =>
    intro seen r h
    simp only [placeMethods, ih]
    split
    · rw [undeclared_report _ _ rfl, undeclared_checkSignature]
    · rw [← undeclared_checkSignature r m.params m.ret]
      unfold placeMethod
      simp only
      split
      · rfl
      · split
        · exact undeclared_report _ _ rfl
        · rfl

theorem undeclared_openHeader (r : Resolution) (c : ClassDecl) :
    (r.openHeader c).1.undeclared = r.undeclared := by
  have hinherit : ({ r with scope := r.scope.takeDecl.2 }.inherit c).1.undeclared =
      r.undeclared := by
    unfold inherit
    split
    · rfl
    · split
      · exact undeclared_report _ _ rfl
      · rfl
  unfold openHeader
  simp only
  split
  · rw [undeclared_report _ _ rfl, hinherit]
  · exact hinherit

theorem undeclared_layClasses (cs : List ClassDecl) (r : Resolution) :
    (layClasses cs r).1.undeclared = r.undeclared := by
  induction cs generalizing r with
  | nil => rfl
  | cons c cs ih =>
    have hone : (r.layClass c).1.undeclared = r.undeclared := by
      change (r.fillHeader c).1.undeclared = _
      simp only [fillHeader, placeMembers, undeclared_placeMethods, undeclared_placeFields,
        undeclared_openHeader]
    exact (ih _).trans hone

end Resolution

open Resolution

/-- What is filed once a program has been bound: its uses of names, and the members of its
classes. -/
structure Program.Filed (p : Program) : Prop where
  settled : ∀ q ∈ p.places, q.2.Settled p.resolve.bindings p.resolve.errors q.1
  separate : p.resolve.bindings.Separate
  undeclared : p.resolve.undeclared = p.places.filterMap fun q => q.2.undeclared? q.1
  members : ∀ cls record, p.resolve.bindings.record? cls = some record →
    p.resolve.bindings.Enrols record.members (membersOf p.classes.reverse cls)

/-- Before anything is bound, nothing is filed. -/
theorem Program.awaits_opened {p : Program} (hn : p.ids.Nodup) :
    p.opened.bindings.Awaits p.ids :=
  ⟨hn, by simp [opened, enter], by simp [opened, enter], by simp [opened, enter]⟩

theorem Program.laid_announces {p : Program} (hn : p.ids.Nodup) :
    p.laid.1.Announces p.classes.reverse ∧
      List.Forall₂ p.laid.1.bindings.Declares p.laid.2 (ClassDecl.namings [] p.classes) := by
  have hstart : p.opened.Announces [] := by
    refine ⟨List.Forall₂.cons ?_ List.Forall₂.nil, ?_, ?_⟩
    · intro x
      simp [Naming.ofList]
    · intro cls
      simp [opened, enter, Bindings.record?]
    · intro cls record hr
      simp [opened, enter, Bindings.record?] at hr
  have h := layClasses_announces p.classes p.opened [] hstart (p.awaits_opened hn).left
  rwa [List.append_nil] at h

/-- The bodies of a program are bound as lexical scope says. -/
theorem Program.resolves_laid {p : Program} (hn : p.ids.Nodup) :
    Resolves (p.classes.flatMap ClassDecl.innerIds ++ (Decl.idsOfAll p.decls ++ p.body.ids))
      p.places p.laid.1 p.resolve := by
  obtain ⟨hlaid, hnames⟩ := p.laid_announces hn
  have hs₁ : p.laid.1.scope.Selects p.laid.1.bindings
      [.ofList (p.classes.map ClassDecl.named)] := by
    simpa using hlaid.selects
  have ha₁ := (p.awaits_opened hn).right p.extends_laid.bindings
  obtain ⟨hs₂, hclasses⟩ :=
    bindClasses_resolves p.classes p.laid.2 _ p.laid.1 p.length_laid hs₁ hnames ha₁.left
  have ha₂ := ha₁.right hclasses.bindings
  obtain ⟨hs₃, hdecls⟩ := bindDecls_resolves.2 p.decls p.withMethods _ [] hs₂ ha₂.left
  have hbody := bindExpr_resolves p.body p.withDecls hs₃ (ha₂.right hdecls.bindings)
  exact (hclasses.append (hdecls.append hbody ha₂) ha₁).rescope _

theorem Program.filed (p : Program) (hn : p.ids.Nodup) : p.Filed := by
  have hall := p.resolves_laid hn
  refine ⟨hall.settled, ?_, ?_, ?_⟩
  · apply hall.bindings.separate
    apply p.extends_laid.bindings.separate
    exact ⟨by simp [opened, enter], by simp [opened, enter]⟩
  · have hnone : p.laid.1.undeclared = [] := undeclared_layClasses p.classes p.opened
    rw [hall.undeclared, hnone, List.nil_append]
  · intro cls record hr
    rw [Bindings.record?, hall.records] at hr
    exact ((p.laid_announces hn).1.members cls record hr).grows
      ((p.awaits_opened hn).right p.extends_laid.bindings) hall.bindings

/-- Every name in a program, and every function and receiver of a call, is filed with
the entry of the declaration that lexical scope selects for it, and exactly those
for which there is none are reported, in the order of the text. -/
theorem Program.resolve_lexical (p : Program) (hn : p.ids.Nodup) :
    p.places.map Prod.snd = p.parts ∧
    (∀ q ∈ p.places, q.2.Settled p.resolve.bindings p.resolve.errors q.1) ∧
    p.resolve.bindings.Separate ∧
    p.resolve.errors.filter (fun e => e.cause.isUndeclared) =
      p.places.filterMap fun q => q.2.undeclared? q.1 :=
  ⟨p.map_places, (p.filed hn).settled, (p.filed hn).separate, (p.filed hn).undeclared⟩

/-- A program with shadowed, repeated and missing names: the parameter of `set` hides
the inherited field and keeps its name against the variable after it, and the
variable `v` is visible neither in a class nor in its own value. -/
def shadowProgram : Program :=
  let pos := Position.ofLine 1
  { classes := [
      { id := 0, name := "A", parent? := none, pos
        fields := [⟨1, "x", .int pos, pos⟩]
        methods := [{ id := 2, name := "get", params := [⟨3, "n", .int pos, pos⟩]
                      ret := .int pos, decls := []
                      body := .binary .add (.name 4 "x" pos) (.name 5 "v" (.ofLine 2)) pos
                      pos }] },
      { id := 6, name := "B", parent? := some "A", pos
        fields := []
        methods := [{ id := 7, name := "set", params := [⟨8, "x", .int pos, pos⟩]
                      ret := .int pos
                      decls := [.var 9 "x" (.int pos) (.name 10 "x" pos) pos]
                      body := .name 11 "x" pos, pos }] }]
    decls := [
      .var 12 "v" (.int pos) (.name 13 "v" (.ofLine 3)) pos,
      .fn 14 "f" [⟨15, "v", .int pos, pos⟩] (.int pos) []
        (.call 16 "f" [.name 17 "v" pos] pos) pos]
    body := .send 18 "v" "get" [.name 19 "w" (.ofLine 4)] pos
    pos }

theorem shadowProgram_lexical : shadowProgram.ids.Nodup ∧
    NameSettled shadowProgram.resolve.bindings 11 (some 8) ∧
    NameSettled shadowProgram.resolve.bindings 16 (some 14) ∧
    NameSettled shadowProgram.resolve.bindings 19 none ∧
    shadowProgram.resolve.errors.filter (fun e => e.cause.isUndeclared) =
      [⟨.ofLine 2, .undeclared .variable "v"⟩, ⟨.ofLine 3, .undeclared .variable "v"⟩,
        ⟨.ofLine 4, .undeclared .variable "w"⟩] := by
  have hids : shadowProgram.ids.Nodup := by decide +kernel
  obtain ⟨-, hsettled, -, hreports⟩ := shadowProgram.resolve_lexical hids
  have hplace : ∀ i (hi : i < shadowProgram.places.length), (shadowProgram.places[i]).2.Settled
      shadowProgram.resolve.bindings shadowProgram.resolve.errors (shadowProgram.places[i]).1 :=
    fun i hi => hsettled _ (List.getElem_mem hi)
  refine ⟨hids, hplace 4 (by decide +kernel), hplace 6 (by decide +kernel),
    hplace 9 (by decide +kernel), ?_⟩
  rw [hreports]
  decide +kernel

end Classlet
