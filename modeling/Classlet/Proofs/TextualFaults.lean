import Classlet.Proofs.Superclasses

/-!
Faults that the text of a program tells by itself, whatever is in scope: a class that is
named and not declared, and a member that its class declares again. The fields of a class
are placed as its methods are, one after the other, so the two are treated alike. All faults
of these kinds are found, in an order that the text tells as well: first those of the class
headers, then those of the methods, and then those of the declarations and the body.
-/

namespace Classlet

namespace BindingFault

def isNoClass : BindingFault → Bool
  | .noClass _ => true
  | _ => false

def isRepeated : BindingFault → Bool
  | .repeatedMember _ _ _ => true
  | _ => false

def isTextual (cause : BindingFault) : Bool := cause.isNoClass || cause.isRepeated

end BindingFault

/-! Places that name classes. -/

namespace WrittenType

mutual

/-- The classes that a written type names, from left to right. -/
def classes : WrittenType → List (Located String)
  | .int _ | .bool _ => []
  | .named cls pos => [⟨pos, cls⟩]
  | .arrow sig _ => classesOfSignature sig
termination_by structural a => a

def classesOfSignature : Signature WrittenType → List (Located String)
  | ⟨params, ret⟩ => classesOfList params ++ classes ret
termination_by structural s => s

def classesOfList : List WrittenType → List (Located String)
  | [] => []
  | a :: as => classes a ++ classesOfList as
termination_by structural as => as

end

end WrittenType

/-- A place in a program that names classes. -/
inductive Mention where
  | ofType (type : WrittenType)
  | creation (cls : String) (pos : Position)

namespace Mention

def classes : Mention → List (Located String)
  | .ofType type => type.classes
  | .creation cls pos => [⟨pos, cls⟩]

/-- What is reported of a place: the first class that is not among the declared ones. -/
def fault? (declared : List String) (m : Mention) : Option BindingError :=
  (m.classes.find? fun n => n.cause ∉ declared).map fun n => ⟨n.pos, .noClass n.cause⟩

theorem isNoClass_fault? {declared : List String} {m : Mention} {e : BindingError}
    (h : m.fault? declared = some e) : e.cause.isNoClass = true := by
  obtain ⟨n, -, rfl⟩ := Option.map_eq_some_iff.mp h
  rfl

end Mention

def Expr.creation? : Expr → Option Mention
  | .new _ cls _ pos => some (.creation cls pos)
  | .lit _ _ | .name _ _ _ | .binary _ _ _ _ | .not _ _ | .cond _ _ _ _ | .print _ _
  | .call _ _ _ _ | .send _ _ _ _ _ => none

def Expr.mentions (e : Expr) : List Mention := e.parts.filterMap Expr.creation?

/-- The annotations of parameters and of the result. -/
def annotationsOf (params : List Binder) (ret : WrittenType) : List WrittenType :=
  params.map Binder.type ++ [ret]

namespace Decl

mutual

/-- The places in a declaration that name classes, in the order in which it is bound. -/
def mentions : Decl → List Mention
  | .var _ _ type init _ => init.mentions ++ [.ofType type]
  | .fn _ _ params ret decls body _ =>
    (annotationsOf params ret).map .ofType ++ (mentionsOfAll decls ++ body.mentions)
termination_by structural d => d

def mentionsOfAll : List Decl → List Mention
  | [] => []
  | d :: ds => mentions d ++ mentionsOfAll ds
termination_by structural ds => ds

end

end Decl

/-- The places inside a method; its signature belongs to the class header. -/
def MethodDecl.innerMentions (m : MethodDecl) : List Mention :=
  Decl.mentionsOfAll m.decls ++ m.body.mentions

def ClassDecl.headerMentions (c : ClassDecl) : List Mention :=
  (c.fields.flatMap fun f => [.ofType f.type]) ++
    c.methods.flatMap fun m => (annotationsOf m.params m.ret).map .ofType

/-- The places outside of class headers. -/
def Program.innerMentions (p : Program) : List Mention :=
  (p.classes.flatMap fun c => c.methods.flatMap MethodDecl.innerMentions) ++
    (Decl.mentionsOfAll p.decls ++ p.body.mentions)

/-- All places in a program that name classes. -/
def Program.mentions (p : Program) : List Mention :=
  p.classes.flatMap ClassDecl.headerMentions ++ p.innerMentions

/-! Members that are declared again. -/

section

variable {α : Type}

/-- The items of a list, each with those before it; the items in `before` come first. -/
def withEarlier (before : List α) : List α → List (α × List α)
  | [] => []
  | a :: l => (a, before) :: withEarlier (before ++ [a]) l

/-- One of the items before has the same name. -/
def isAgain (name : α → String) (q : α × List α) : Bool := q.2.any fun b => name b == name q.1

/-- The items whose name has come before. -/
def repeated (name : α → String) (l : List α) : List α :=
  ((withEarlier [] l).filter (isAgain name)).map Prod.fst

end

/-- What is read of the members of one kind, fields or methods. -/
structure MemberKind (α : Type) where
  name : α → String
  annotations : α → List WrittenType
  /-- The fault of a member that is declared again. -/
  again : α → BindingError

namespace MemberKind

def field (cls : String) : MemberKind Binder where
  name := Binder.name
  annotations f := [f.type]
  again f := ⟨f.pos, .repeatedMember .field cls f.name⟩

def method (cls : String) : MemberKind MethodDecl where
  name := MethodDecl.name
  annotations m := annotationsOf m.params m.ret
  again m := ⟨m.pos, .repeatedMember .method cls m.name⟩

variable {α : Type}

/-- Places members in order, where a name is placed once; `seen` holds the names before. -/
def placeAll (k : MemberKind α) (place : Resolution → Header → α → Resolution × Header) :
    (seen : List String) → List α → Resolution → Header → Resolution × Header
  | _, [], r, h => (r, h)
  | seen, a :: l, r, h =>
    let r := (k.annotations a).foldl Resolution.checkType r
    let (r, h) :=
      if seen.contains (k.name a) then ({ r with errors := r.errors ++ [k.again a] }, h)
      else place r h a
    placeAll k place (k.name a :: seen) l r h

/-- The textual faults of a member, given the members of its kind before it. -/
def faultsAt (k : MemberKind α) (declared : List String) (q : α × List α) : List BindingError :=
  ((k.annotations q.1).map .ofType).filterMap (Mention.fault? declared) ++
    if isAgain k.name q then [k.again q.1] else []

def faults (k : MemberKind α) (declared : List String) (l : List α) : List BindingError :=
  (withEarlier [] l).flatMap (k.faultsAt declared)

end MemberKind

/-- The textual faults of the header of a class. -/
def ClassDecl.headerFaults (declared : List String) (c : ClassDecl) : List BindingError :=
  (MemberKind.field c.name).faults declared c.fields ++
    (MemberKind.method c.name).faults declared c.methods

namespace WrittenType

/-- The first unknown class of a written type is looked for among those that it names. -/
theorem unknownClass?_eq (declared : List String) (a : WrittenType) :
    a.unknownClass? declared.contains = a.classes.find? fun n => n.cause ∉ declared := by
  refine @WrittenType.rec
    (fun a => a.unknownClass? declared.contains = a.classes.find? fun n => n.cause ∉ declared)
    (fun s => unknownInSignature? declared.contains s =
      (classesOfSignature s).find? fun n => n.cause ∉ declared)
    (fun as => unknownInList? declared.contains as =
      (classesOfList as).find? fun n => n.cause ∉ declared)
    ?_ ?_ ?_ ?_ ?_ ?_ ?_ a
  · intro pos
    rfl
  · intro pos
    rfl
  · intro cls pos
    by_cases h : cls ∈ declared <;> simp [unknownClass?, classes, h]
  · intro sig pos ih
    exact ih
  · intro params ret ihs ih
    rw [unknownInSignature?, classesOfSignature, List.find?_append, ihs, ih]
  · rfl
  · intro a as ih ihs
    rw [unknownInList?, classesOfList, List.find?_append, ih, ihs]

end WrittenType

namespace Resolution

/-- The textual faults that have been found. -/
def textual (r : Resolution) : List BindingError := r.errors.filter fun e => e.cause.isTextual

theorem textual_add (r : Resolution) (e : BindingError) :
    textual { r with errors := r.errors ++ [e] } =
      r.textual ++ if e.cause.isTextual then [e] else [] := by
  rw [textual, List.filter_append, textual, List.filter_singleton]
  cases e.cause.isTextual <;> rfl

theorem textual_report (r : Resolution) (pos : Position) (cause : BindingFault)
    (h : cause.isTextual = false) : (r.report pos cause).textual = r.textual := by
  rw [report, textual_add]
  simp [h]

theorem textual_checkType (r : Resolution) (a : WrittenType) :
    (r.checkType a).textual =
      r.textual ++ [Mention.ofType a].filterMap (Mention.fault? r.classNames) := by
  rw [checkType, WrittenType.unknownClass?_eq, List.filterMap_eq_flatMap_toList,
    List.flatMap_singleton, Mention.fault?, Mention.classes]
  cases a.classes.find? fun n => n.cause ∉ r.classNames with
  | none => exact (List.append_nil _).symm
  | some n => exact textual_add r _

theorem classNames_checkTypes (as : List WrittenType) (r : Resolution) :
    (as.foldl checkType r).classNames = r.classNames := by
  induction as generalizing r with
  | nil => rfl
  | cons a as ih => rw [List.foldl_cons, ih, (binds_checkType r a).classNames]

theorem textual_checkTypes (as : List WrittenType) (r : Resolution) :
    (as.foldl checkType r).textual =
      r.textual ++ (as.map .ofType).filterMap (Mention.fault? r.classNames) := by
  induction as generalizing r with
  | nil => exact (List.append_nil _).symm
  | cons a as ih =>
    rw [List.foldl_cons, ih, textual_checkType, (binds_checkType r a).classNames,
      List.append_assoc, ← List.filterMap_append]
    rfl

theorem checkSignature_eq (r : Resolution) (params : List Binder) (ret : WrittenType) :
    r.checkSignature params ret = (annotationsOf params ret).foldl checkType r := by
  rw [checkSignature, annotationsOf, List.foldl_append, List.foldl_map]
  rfl

/-! Class headers. -/

theorem placeFields_eq (cls : String) (level : Nat) (seen : List String) (fs : List Binder)
    (r : Resolution) (h : Header) :
    placeFields cls level seen fs r h =
      (MemberKind.field cls).placeAll (fun r h f => r.placeField cls level h f) seen fs r h := by
  induction fs generalizing seen r h with
  | nil => rfl
  | cons f fs ih => exact ih _ _ _

theorem placeMethods_eq (cls : String) (level : Nat) (seen : List String) (ms : List MethodDecl)
    (r : Resolution) (h : Header) :
    placeMethods cls level seen ms r h =
      (MemberKind.method cls).placeAll (fun r h m => r.placeMethod cls level h m) seen ms r h := by
  induction ms generalizing seen r h with
  | nil => rfl
  | cons m ms ih =>
    rw [placeMethods, checkSignature_eq]
    exact ih _ _ _

theorem textual_placeField (r : Resolution) (cls : String) (level : Nat) (h : Header) (f : Binder) :
    (r.placeField cls level h f).1.textual = r.textual := by
  unfold placeField
  simp only
  split
  · rfl
  · split
    · exact textual_report r _ _ rfl
    · rfl

theorem textual_placeMethod (r : Resolution) (cls : String) (level : Nat) (h : Header)
    (m : MethodDecl) : (r.placeMethod cls level h m).1.textual = r.textual := by
  unfold placeMethod
  simp only
  split
  · rfl
  · split
    · exact textual_report r _ _ rfl
    · rfl

end Resolution

open Resolution

section

variable {α : Type} {name : α → String} {before : List α} {seen : List String}

/-- The names of `seen` are those of the items in `before`. -/
def NamesOf (name : α → String) (before : List α) (seen : List String) : Prop :=
  ∀ x, seen.contains x = before.any fun b => name b == x

theorem NamesOf.nil (name : α → String) : NamesOf name [] [] := fun _ => rfl

theorem NamesOf.add (h : NamesOf name before seen) (a : α) :
    NamesOf name (before ++ [a]) (name a :: seen) := by
  intro x
  rw [List.contains_cons, h, List.any_append, List.any_cons, List.any_nil, Bool.or_false,
    Bool.or_comm, Bool.beq_comm]

/-- An item whose name has come before adds no name. -/
theorem NamesOf.again (h : NamesOf name before seen) {a : α}
    (ha : isAgain name (a, before) = true) : NamesOf name (before ++ [a]) seen := by
  intro x
  rw [h, List.any_append, List.any_cons, List.any_nil, Bool.or_false]
  by_cases hx : name a = x
  · rw [← hx]
    change isAgain name (a, before) = (isAgain name (a, before) || _)
    rw [ha, Bool.true_or]
  · rw [beq_false_of_ne hx, Bool.or_false]

theorem MemberKind.textual_placeAll (k : MemberKind α)
    (place : Resolution → Header → α → Resolution × Header)
    (hnames : ∀ r h a, (place r h a).1.classNames = r.classNames)
    (hquiet : ∀ r h a, (place r h a).1.textual = r.textual)
    (hagain : ∀ a, (k.again a).cause.isTextual = true) (l before : List α) (seen : List String)
    (hseen : NamesOf k.name before seen) (r : Resolution) (h : Header) :
    (k.placeAll place seen l r h).1.textual =
      r.textual ++ (withEarlier before l).flatMap (k.faultsAt r.classNames) := by
  induction l generalizing before seen r h with
  | nil => exact (List.append_nil _).symm
  | cons a l ih =>
    have hone : seen.contains (k.name a) = isAgain k.name (a, before) := hseen _
    have hkept := classNames_checkTypes (k.annotations a) r
    have htypes := textual_checkTypes (k.annotations a) r
    rw [withEarlier, List.flatMap_cons, placeAll, faultsAt, ← hone]
    generalize (k.annotations a).foldl checkType r = r₁ at hkept htypes ⊢
    simp only
    split
    · rw [ih _ _ (hseen.add a), textual_add, hagain]
      simp only [hkept, htypes, List.append_assoc]
      rfl
    · rw [ih _ _ (hseen.add a), hquiet, hnames, hkept, htypes, List.append_nil,
        List.append_assoc]

end

namespace Resolution

variable {r : Resolution}

theorem textual_placeMembers (r : Resolution) (c : ClassDecl) (level : Nat) (h : Header) :
    (r.placeMembers c level h).1.textual = r.textual ++ c.headerFaults r.classNames := by
  have hnames := (binds_placeFields c.name level c.fields [] r h).classNames
  have hfields := (MemberKind.field c.name).textual_placeAll
    (fun r h f => r.placeField c.name level h f)
    (fun r h f => (binds_placeField r c.name level h f).classNames)
    (fun r h f => textual_placeField r c.name level h f) (fun _ => rfl) c.fields [] []
    (NamesOf.nil _) r h
  rw [← placeFields_eq] at hfields
  unfold placeMembers
  generalize placeFields c.name level [] c.fields r h = q at hnames hfields ⊢
  have hmethods := (MemberKind.method c.name).textual_placeAll
    (fun r h m => r.placeMethod c.name level h m)
    (fun r h m => (binds_placeMethod r c.name level h m).classNames)
    (fun r h m => textual_placeMethod r c.name level h m) (fun _ => rfl) c.methods [] []
    (NamesOf.nil _) q.1 q.2
  rw [← placeMethods_eq] at hmethods
  rw [hmethods, hfields, hnames, List.append_assoc]
  rfl

theorem textual_inherit (r : Resolution) (c : ClassDecl) :
    (r.inherit c).1.textual = r.textual := by
  unfold inherit
  split
  · rfl
  · split
    · exact textual_report r _ _ rfl
    · rfl

theorem textual_openHeader (r : Resolution) (c : ClassDecl) :
    (r.openHeader c).1.textual = r.textual := by
  have hi := textual_inherit { r with scope := r.scope.takeDecl.2 } c
  unfold openHeader
  simp only
  split
  · rw [textual_report _ _ _ rfl, hi]
    rfl
  · exact hi

theorem textual_layClass (r : Resolution) (c : ClassDecl) :
    (r.layClass c).1.textual = r.textual ++ c.headerFaults r.classNames := by
  change (r.fillHeader c).1.textual = _
  rw [fillHeader, textual_placeMembers, textual_openHeader, (extends_openHeader r c).classNames]

theorem textual_layClasses (cs : List ClassDecl) (r : Resolution) :
    (layClasses cs r).1.textual =
      r.textual ++ cs.flatMap (ClassDecl.headerFaults r.classNames) := by
  induction cs generalizing r with
  | nil => exact (List.append_nil _).symm
  | cons c cs ih =>
    change (layClasses cs (r.layClass c).1).1.textual = _
    rw [ih, textual_layClass, (extends_layClass r c).classNames, List.flatMap_cons,
      List.append_assoc]

/-! Methods, declarations and bodies. -/

/-- The classes of the program are known, and they are the ones that are registered. -/
structure Knows (r : Resolution) (declared : List String) : Prop where
  classNames : r.classNames = declared
  registered : ∀ cls, (r.bindings.record? cls).isSome ↔ cls ∈ declared

theorem Knows.binds {declared : List String} {ids : List NodeId} {r' : Resolution}
    (h : r.Knows declared) (hb : Binds ids r r') : r'.Knows declared where
  classNames := hb.classNames.trans h.classNames
  registered cls := by
    rw [Bindings.record?, hb.records]
    exact h.registered cls

end Resolution

/-- The textual fault that a finding is. -/
def Finding.textual? : Finding → Option BindingError
  | .fault e => if e.cause.isTextual then some e else none
  | .use _ _ | .send _ _ => none

namespace Finding

variable {s : Scope} {b : Bindings} {declared : List String}

theorem textual?_ofName (id : NodeId) (kind : NameKind) (x : String) (pos : Position) :
    (ofName s id kind x pos).textual? = none := by
  unfold ofName
  split <;> rfl

theorem textual?_ofSend (id : NodeId) (receiver method : String) (pos : Position) :
    (ofSend? s b id receiver method pos).toList.filterMap textual? = [] := by
  unfold ofSend?
  split
  · rfl
  · split
    · rfl
    · cases b.record? _ with
      | none => rfl
      | some record =>
        simp only [Option.map_some]
        split <;> rfl

theorem textual?_ofClass (hb : ∀ cls, (b.record? cls).isSome ↔ cls ∈ declared) (id : NodeId)
    (cls : String) (pos : Position) :
    (ofClass s b id cls pos).textual? = (Mention.creation cls pos).fault? declared := by
  rw [ofClass, Mention.fault?, Mention.classes]
  by_cases hcls : cls ∈ declared
  · obtain ⟨record, hr⟩ := Option.isSome_iff_exists.mp ((hb cls).mpr hcls)
    simp [hr, hcls, textual?]
  · have hr := Option.not_isSome_iff_eq_none.mp (mt (hb cls).mp hcls)
    simp [hr, hcls, textual?, BindingFault.isTextual, BindingFault.isNoClass]

end Finding

namespace Expr

variable {s : Scope} {b : Bindings} {declared : List String}

theorem textual_findingsOfArgs {args : List Expr}
    (h : ∀ a ∈ args, (a.findings s b).filterMap Finding.textual? =
      a.mentions.filterMap (Mention.fault? declared)) :
    (findingsOfArgs s b args).filterMap Finding.textual? =
      ((partsOfArgs args).filterMap creation?).filterMap (Mention.fault? declared) := by
  induction args with
  | nil => rfl
  | cons a args ih =>
    rw [findingsOfArgs, partsOfArgs, List.filterMap_append, List.filterMap_append,
      List.filterMap_append, h a (by simp), ih fun x hx => h x (by simp [hx])]
    rfl

/-- The textual faults of an expression are those of the classes that it creates. -/
theorem textual_findings (hb : ∀ cls, (b.record? cls).isSome ↔ cls ∈ declared) (e : Expr) :
    (e.findings s b).filterMap Finding.textual? =
      e.mentions.filterMap (Mention.fault? declared) := by
  induction e with
  | lit v pos => rfl
  | name id x pos => simp [findings, mentions, parts, creation?, Finding.textual?_ofName]
  | binary op left right pos ihl ihr =>
    simp only [findings, mentions, parts, creation?, List.filterMap_append,
      List.filterMap_cons] at *
    rw [ihl, ihr]
  | not e pos ih =>
    simp only [findings, mentions, parts, creation?, List.filterMap_cons] at *
    exact ih
  | print e pos ih =>
    simp only [findings, mentions, parts, creation?, List.filterMap_cons] at *
    exact ih
  | cond test yes no pos iht ihy ihn =>
    simp only [findings, mentions, parts, creation?, List.filterMap_append,
      List.filterMap_cons] at *
    rw [iht, ihy, ihn]
  | call id callee args pos ih =>
    have hargs := textual_findingsOfArgs ih
    simpa only [findings, mentions, parts, creation?, List.filterMap_cons,
      Finding.textual?_ofName] using hargs
  | send id receiver method args pos ih =>
    have hargs := textual_findingsOfArgs ih
    simpa only [findings, mentions, parts, creation?, List.filterMap_cons, List.filterMap_append,
      Finding.textual?_ofSend, List.nil_append] using hargs
  | new id cls args pos ih =>
    have hargs := textual_findingsOfArgs ih
    simp only [findings, mentions, parts, creation?, List.filterMap_cons,
      Finding.textual?_ofClass hb, hargs]

end Expr

namespace Resolution

variable {r : Resolution} {declared : List String}

theorem textual_records (fs : List Finding) (r : Resolution) :
    (fs.foldl record r).textual = r.textual ++ fs.filterMap Finding.textual? := by
  induction fs generalizing r with
  | nil => exact (List.append_nil _).symm
  | cons f fs ih =>
    have hone : (r.record f).textual = r.textual ++ f.textual?.toList := by
      cases f with
      | use node u => exact (List.append_nil _).symm
      | send node u => exact (List.append_nil _).symm
      | fault e =>
        rw [record, textual_add, Finding.textual?]
        cases e.cause.isTextual <;> rfl
    rw [List.foldl_cons, ih, hone, List.append_assoc, List.filterMap_cons]
    cases f.textual? <;> rfl

theorem textual_bindExpr (h : r.Knows declared) (e : Expr) :
    (r.bindExpr e).textual = r.textual ++ e.mentions.filterMap (Mention.fault? declared) := by
  rw [bindExpr, textual_records, Expr.textual_findings h.registered]

theorem textual_declare (r : Resolution) (node : NodeId) (name : String) (kind : NameKind)
    (type : Ty) (offset : Int) (pos : Position) :
    (r.declare node name kind type offset pos).textual = r.textual := by
  unfold declare
  simp only
  split
  · rfl
  · rw [textual_report _ _ _ rfl]
    rfl

theorem textual_declareLocal (r : Resolution) (node : NodeId) (name : String) (kind : NameKind)
    (type : Ty) (pos : Position) :
    (r.declareLocal node name kind type pos).textual = r.textual :=
  textual_declare _ node name kind type _ pos

theorem textual_declareParams (ps : List Binder) (r : Resolution) :
    (ps.foldl declareParam r).textual = r.textual := by
  induction ps generalizing r with
  | nil => rfl
  | cons p ps ih =>
    rw [List.foldl_cons, ih]
    exact textual_declare _ p.id p.name .parameter p.type.lower _ p.pos

/-- Binding the parameters again finds no fault of their annotations. -/
theorem textual_bindRoutine (params : List Binder) (decls : List Decl) (body : Expr)
    (hds : ∀ r : Resolution, r.Knows declared → (bindDecls decls r).textual =
      r.textual ++ (Decl.mentionsOfAll decls).filterMap (Mention.fault? declared))
    (h : r.Knows declared) :
    (r.bindRoutine params decls body).textual =
      r.textual ++ (Decl.mentionsOfAll decls ++ body.mentions).filterMap
        (Mention.fault? declared) := by
  have henter := (h.binds (binds_enter r ∅)).binds (binds_declareParams params r.enter)
  change ((bindDecls decls (params.foldl declareParam r.enter)).bindExpr body).textual = _
  rw [textual_bindExpr (henter.binds (binds_bindDecls decls _)), hds _ henter,
    textual_declareParams, List.append_assoc, ← List.filterMap_append]
  rfl

theorem textual_decls :
    (∀ (d : Decl) (r : Resolution), r.Knows declared → (bindDecl d r).textual =
      r.textual ++ d.mentions.filterMap (Mention.fault? declared)) ∧
    ∀ (ds : List Decl) (r : Resolution), r.Knows declared → (bindDecls ds r).textual =
      r.textual ++ (Decl.mentionsOfAll ds).filterMap (Mention.fault? declared) := by
  apply Decl.induction
  · intro id name type init pos r h
    rw [bindDecl, textual_declareLocal, textual_checkType, textual_bindExpr h,
      (h.binds (binds_bindExpr init r)).classNames, List.append_assoc, ← List.filterMap_append]
    rfl
  · intro id name params ret decls body pos ih r h
    have hsig := h.binds (binds_checkSignature r params ret)
    have hdecl := hsig.binds (binds_declareLocal _ id name .function
      (.arrow (signatureOf params ret)) pos)
    change (bindRoutine _ params decls body).textual = _
    rw [textual_bindRoutine params decls body ih hdecl, textual_declareLocal, checkSignature_eq,
      textual_checkTypes, h.classNames, List.append_assoc, ← List.filterMap_append]
    rfl
  · intro r _
    exact (List.append_nil _).symm
  · intro d ds ihd ihs r h
    rw [bindDecls, ihs _ (h.binds (binds_decls.1 d r)), ihd r h, Decl.mentionsOfAll,
      List.filterMap_append, List.append_assoc]

theorem textual_bindMethods (ms : List MethodDecl) (h : r.Knows declared) :
    (ms.foldl bindMethod r).textual =
      r.textual ++ (ms.flatMap MethodDecl.innerMentions).filterMap (Mention.fault? declared) := by
  induction ms generalizing r with
  | nil => exact (List.append_nil _).symm
  | cons m ms ih =>
    have hone := h.binds (binds_bindRoutine m.params m.decls m.body (binds_bindDecls m.decls) r)
    rw [List.foldl_cons, bindMethod_eq, ih hone,
      textual_bindRoutine m.params m.decls m.body (textual_decls.2 m.decls) h, List.append_assoc,
      ← List.filterMap_append]
    rfl

theorem textual_bindClasses (cs : List (ClassDecl × Names)) (h : r.Knows declared) :
    (bindClasses cs r).textual = r.textual ++
      (cs.flatMap fun q => q.1.methods.flatMap MethodDecl.innerMentions).filterMap
        (Mention.fault? declared) := by
  induction cs generalizing r with
  | nil => exact (List.append_nil _).symm
  | cons q cs ih =>
    have hone : (r.bindClass q.1 q.2).textual = _ :=
      textual_bindMethods q.1.methods (h.binds (binds_enter r q.2))
    change (bindClasses cs (r.bindClass q.1 q.2)).textual = _
    rw [ih (h.binds (binds_bindClass r q.1 q.2)), hone, List.append_assoc, ← List.filterMap_append]
    rfl

/-! A whole program. -/

theorem registered_layClasses (cs : List ClassDecl) (r : Resolution) (cls : String) :
    ((layClasses cs r).1.bindings.record? cls).isSome ↔
      (r.bindings.record? cls).isSome ∨ cls ∈ cs.map ClassDecl.name := by
  induction cs generalizing r with
  | nil => simp [layClasses]
  | cons c cs ih =>
    change ((layClasses cs (r.layClass c).1).1.bindings.record? cls).isSome ↔ _
    rw [ih, isSome_layClass_record?, List.map_cons, List.mem_cons, eq_comm (a := cls)]
    tauto

end Resolution

namespace Program

/-- The textual faults of a program: those of the class headers, and then those of all places
outside of them. -/
theorem textual_resolve (p : Program) :
    p.resolve.textual =
      p.classes.flatMap (ClassDecl.headerFaults (p.classes.map ClassDecl.name)) ++
        p.innerMentions.filterMap (Mention.fault? (p.classes.map ClassDecl.name)) := by
  have hknows : p.laid.1.Knows (p.classes.map ClassDecl.name) := by
    refine ⟨p.classNames_laid, fun cls => ?_⟩
    rw [laid, registered_layClasses]
    simp [opened, enter, Bindings.record?]
  have hmethods := hknows.binds p.binds_withMethods
  have hdecls := hmethods.binds p.binds_withDecls
  have hheaders : p.laid.1.textual =
      p.classes.flatMap (ClassDecl.headerFaults (p.classes.map ClassDecl.name)) :=
    textual_layClasses p.classes p.opened
  have hinner : p.withMethods.textual = p.laid.1.textual ++
      (p.classes.flatMap fun c => c.methods.flatMap MethodDecl.innerMentions).filterMap
        (Mention.fault? (p.classes.map ClassDecl.name)) := by
    have h := textual_bindClasses (p.classes.zip p.laid.2) hknows
    rwa [p.flatMap_zip_laid fun c => c.methods.flatMap MethodDecl.innerMentions] at h
  change (p.withDecls.bindExpr p.body).textual = _
  rw [textual_bindExpr hdecls, withDecls, textual_decls.2 p.decls _ hmethods, hinner, hheaders,
    innerMentions, List.filterMap_append, List.filterMap_append]
  simp only [List.append_assoc]

end Program

/-! The two kinds of textual faults. -/

theorem map_fst_withEarlier {α : Type} (before l : List α) :
    (withEarlier before l).map Prod.fst = l := by
  induction l generalizing before with
  | nil => rfl
  | cons a l ih => rw [withEarlier, List.map_cons, ih]

theorem Mention.filter_isNoClass (declared : List String) (ms : List Mention) :
    (ms.filterMap (fault? declared)).filter (fun e => e.cause.isNoClass) =
      ms.filterMap (fault? declared) := by
  rw [List.filter_eq_self]
  intro e he
  obtain ⟨m, -, hm⟩ := List.mem_filterMap.mp he
  exact isNoClass_fault? hm

theorem Mention.filter_isRepeated (declared : List String) (ms : List Mention) :
    (ms.filterMap (fault? declared)).filter (fun e => e.cause.isRepeated) = [] := by
  rw [List.filter_eq_nil_iff]
  intro e he hrep
  obtain ⟨m, -, hm⟩ := List.mem_filterMap.mp he
  obtain ⟨n, -, rfl⟩ := Option.map_eq_some_iff.mp hm
  cases hrep

namespace MemberKind

variable {α : Type} (k : MemberKind α)

/-- The unknown classes of members are those of their annotations, repeated members included. -/
theorem faults_isNoClass (hk : ∀ a, (k.again a).cause.isNoClass = false) (declared : List String)
    (l : List α) :
    (k.faults declared l).filter (fun e => e.cause.isNoClass) =
      (l.flatMap fun a => (k.annotations a).map .ofType).filterMap
        (Mention.fault? declared) := by
  have hone : ∀ q : α × List α, (k.faultsAt declared q).filter (fun e => e.cause.isNoClass) =
      ((k.annotations q.1).map .ofType).filterMap (Mention.fault? declared) := by
    intro q
    rw [faultsAt, List.filter_append, Mention.filter_isNoClass]
    split
    · rw [List.filter_singleton, hk, cond_false, List.append_nil]
    · exact List.append_nil _
  simp only [faults, List.filter_flatMap, hone, List.filterMap_flatMap]
  rw [← List.flatMap_map Prod.fst fun a => ((k.annotations a).map _).filterMap _,
    map_fst_withEarlier]

theorem faults_isRepeated (hk : ∀ a, (k.again a).cause.isRepeated = true) (declared : List String)
    (l : List α) :
    (k.faults declared l).filter (fun e => e.cause.isRepeated) =
      (repeated k.name l).map k.again := by
  have hone : ∀ q : α × List α, (k.faultsAt declared q).filter (fun e => e.cause.isRepeated) =
      if isAgain k.name q then [k.again q.1] else [] := by
    intro q
    rw [faultsAt, List.filter_append, Mention.filter_isRepeated, List.nil_append]
    split
    · rw [List.filter_singleton, hk, cond_true]
    · rfl
  simp only [faults, List.filter_flatMap, hone, repeated]
  induction withEarlier [] l with
  | nil => rfl
  | cons q qs ih =>
    rw [List.flatMap_cons, ih, List.filter_cons]
    split <;> rfl

end MemberKind

theorem Resolution.filter_textual (r : Resolution) {q : BindingFault → Bool}
    (hq : ∀ cause, q cause = true → cause.isTextual = true) :
    r.textual.filter (fun e => q e.cause) = r.errors.filter fun e => q e.cause := by
  rw [textual, List.filter_filter]
  refine List.filter_congr fun e _ => ?_
  cases h : q e.cause with
  | true => rw [hq _ h, Bool.and_self]
  | false => rw [Bool.false_and]

theorem BindingFault.isTextual_of_isNoClass (cause : BindingFault) (h : cause.isNoClass = true) :
    cause.isTextual = true := by
  rw [isTextual, h, Bool.true_or]

theorem BindingFault.isTextual_of_isRepeated (cause : BindingFault)
    (h : cause.isRepeated = true) : cause.isTextual = true := by
  rw [isTextual, h, Bool.or_true]

/-- Every place that names a class which is not declared is reported once, with the first
such class from left to right, and nothing else is reported as an unknown class. The places
are all annotations and all creations in the program, whatever their class or member is. -/
theorem Program.unknown_classes_reported (p : Program) :
    p.resolve.errors.filter (fun e => e.cause.isNoClass) =
      p.mentions.filterMap (Mention.fault? (p.classes.map ClassDecl.name)) := by
  rw [← filter_textual _ BindingFault.isTextual_of_isNoClass, textual_resolve, List.filter_append,
    Mention.filter_isNoClass, List.filter_flatMap, mentions, List.filterMap_append,
    List.filterMap_flatMap]
  congr 1
  refine List.flatMap_congr fun c _ => ?_
  rw [ClassDecl.headerFaults, List.filter_append, MemberKind.faults_isNoClass _ fun _ => rfl,
    MemberKind.faults_isNoClass _ fun _ => rfl, ← List.filterMap_append]
  rfl

/-- A program that names classes which it does not declare: in a member that is repeated, in a
class of a name that is taken, in nested arrows, inside a method and inside a function. -/
def strangerProgram : Program :=
  let pos := Position.ofLine 1
  let known : WrittenType := .named "A" pos
  { classes := [
      { id := 0, name := "A", parent? := none, pos
        fields := [
          ⟨1, "x", .arrow ⟨[known, .arrow ⟨[.named "B" (.ofLine 2)], .named "C" pos⟩ pos],
            .named "D" pos⟩ pos, pos⟩,
          ⟨2, "x", .named "E" (.ofLine 3), pos⟩]
        methods := [{
          id := 3, name := "m", params := [⟨4, "y", .named "F" (.ofLine 4), pos⟩], ret := known
          decls := [.var 5 "z" (.named "G" (.ofLine 8)) (.new 6 "H" [] (.ofLine 7)) pos]
          body := .new 7 "A" [] pos, pos }] },
      { id := 8, name := "A", parent? := none, fields := [⟨9, "w", .named "I" (.ofLine 5), pos⟩]
        methods := [], pos }]
    decls := [
      .fn 10 "f" [⟨11, "u", .named "J" (.ofLine 9), pos⟩] (.named "J" (.ofLine 10)) []
        (.call 12 "f" [.new 13 "K" [] (.ofLine 11)] pos) pos]
    body := .new 14 "A" [.new 15 "K" [] (.ofLine 12)] pos
    pos }

theorem strangerProgram_unknown :
    strangerProgram.resolve.errors.filter (fun e => e.cause.isNoClass) =
      [⟨.ofLine 2, .noClass "B"⟩, ⟨.ofLine 3, .noClass "E"⟩, ⟨.ofLine 4, .noClass "F"⟩,
        ⟨.ofLine 5, .noClass "I"⟩, ⟨.ofLine 7, .noClass "H"⟩, ⟨.ofLine 8, .noClass "G"⟩,
        ⟨.ofLine 9, .noClass "J"⟩, ⟨.ofLine 10, .noClass "J"⟩, ⟨.ofLine 11, .noClass "K"⟩,
        ⟨.ofLine 12, .noClass "K"⟩] :=
  strangerProgram.unknown_classes_reported.trans (by decide +kernel)

end Classlet
