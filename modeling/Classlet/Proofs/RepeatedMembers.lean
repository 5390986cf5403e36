import Classlet.Proofs.TextualFaults

/-!
Members that a class declares again. Each of them is reported once, and the header of the
class comes out as if it were not there, whether the first member of that name is new, takes
over an inherited place or is itself rejected. Two states are compared that have the same
tables and scopes but may have different reports.
-/

namespace Classlet

/-- The items of a list whose name has not come before; the items in `before` come first. -/
def firstsAfter {α : Type} (name : α → String) (before l : List α) : List α :=
  ((withEarlier before l).filter fun q => !isAgain name q).map Prod.fst

namespace ClassDecl

/-- A class without the members that it declares again. -/
def withoutRepeats (c : ClassDecl) : ClassDecl :=
  { c with
    fields := firstsAfter Binder.name [] c.fields
    methods := firstsAfter MethodDecl.name [] c.methods }

/-- The faults of the members that a class declares again. -/
def repeats (c : ClassDecl) : List BindingError :=
  ((repeated Binder.name c.fields).map fun f => ⟨f.pos, .repeatedMember .field c.name f.name⟩) ++
    (repeated MethodDecl.name c.methods).map fun m =>
      ⟨m.pos, .repeatedMember .method c.name m.name⟩

end ClassDecl

def Program.withoutRepeats (p : Program) : Program :=
  { p with classes := p.classes.map ClassDecl.withoutRepeats }

namespace Resolution

/-- Two states that differ in their reports at most. -/
def Agree (r r' : Resolution) : Prop := ∃ errors, r' = { r with errors }

variable {r r' : Resolution}

namespace Agree

theorem refl (r : Resolution) : Agree r r := ⟨r.errors, rfl⟩

theorem symm (h : Agree r r') : Agree r' r := by
  obtain ⟨errors, rfl⟩ := h
  exact ⟨r.errors, rfl⟩

theorem bindings (h : Agree r r') : r'.bindings = r.bindings := by
  obtain ⟨errors, rfl⟩ := h
  rfl

theorem scope (h : Agree r r') : r'.scope = r.scope := by
  obtain ⟨errors, rfl⟩ := h
  rfl

theorem withErrors (h : Agree r r') (errors : List BindingError) :
    Agree { r with errors } r' := by
  obtain ⟨errors', rfl⟩ := h
  exact ⟨errors', rfl⟩

theorem report (h : Agree r r') (pos : Position) (cause : BindingFault) :
    Agree (r.report pos cause) (r'.report pos cause) := by
  obtain ⟨errors, rfl⟩ := h
  exact ⟨_, rfl⟩

theorem checkTypes (h : Agree r r') (as : List WrittenType) :
    Agree (as.foldl Resolution.checkType r) r' := by
  induction as generalizing r with
  | nil => exact h
  | cons a as ih =>
    refine ih ?_
    unfold Resolution.checkType
    split
    · exact h.withErrors _
    · exact h

end Agree

/-- A step that goes the same way in states that agree. -/
def Uniform {β : Type} (step : Resolution → Resolution × β) : Prop :=
  ∀ r r', Agree r r' → Agree (step r).1 (step r').1 ∧ (step r).2 = (step r').2

theorem uniform_placeField (cls : String) (level : Nat) (h : Header) (f : Binder) :
    Uniform fun r => r.placeField cls level h f := by
  rintro r _ ⟨errors, rfl⟩
  have hsame : member? { r with errors } h f.name = r.member? h f.name := rfl
  unfold placeField
  simp only [hsame]
  split
  · exact ⟨⟨errors, rfl⟩, rfl⟩
  · split
    · exact ⟨⟨_, rfl⟩, rfl⟩
    · exact ⟨⟨errors, rfl⟩, rfl⟩

theorem uniform_placeMethod (cls : String) (level : Nat) (h : Header) (m : MethodDecl) :
    Uniform fun r => r.placeMethod cls level h m := by
  rintro r _ ⟨errors, rfl⟩
  have hsame : member? { r with errors } h m.name = r.member? h m.name := rfl
  unfold placeMethod
  simp only [hsame]
  split
  · exact ⟨⟨errors, rfl⟩, rfl⟩
  · split
    · exact ⟨⟨_, rfl⟩, rfl⟩
    · exact ⟨⟨errors, rfl⟩, rfl⟩

theorem uniform_inherit (c : ClassDecl) : Uniform fun r => r.inherit c := by
  rintro r _ ⟨errors, rfl⟩
  unfold inherit
  cases c.parent? with
  | none => exact ⟨⟨errors, rfl⟩, rfl⟩
  | some parent =>
    simp only
    split
    · exact ⟨⟨_, rfl⟩, rfl⟩
    · exact ⟨⟨errors, rfl⟩, rfl⟩

theorem uniform_openHeader (c : ClassDecl) : Uniform fun r => r.openHeader c := by
  rintro r _ ⟨errors, rfl⟩
  obtain ⟨hagree, heq⟩ := uniform_inherit c { r with scope := r.scope.takeDecl.2 }
    { r with scope := r.scope.takeDecl.2, errors } ⟨errors, rfl⟩
  simp only at hagree heq
  unfold openHeader
  simp only [hagree.scope, ← heq, and_true]
  split
  · exact hagree.report _ _
  · exact hagree

end Resolution

open Resolution

/-- The members that are declared again leave tables, scopes and the header as they are. The
names that count as seen are the same in both runs. -/
theorem MemberKind.placeAll_firsts {α : Type} (k : MemberKind α)
    (place : Resolution → Header → α → Resolution × Header)
    (hplace : ∀ h a, Uniform fun r => place r h a) (l before : List α) (seen seen' : List String)
    (hseen : NamesOf k.name before seen) (hseen' : NamesOf k.name before seen')
    {r r' : Resolution} (hr : Agree r r') (h : Header) :
    Agree (k.placeAll place seen l r h).1
        (k.placeAll place seen' (firstsAfter k.name before l) r' h).1 ∧
      (k.placeAll place seen l r h).2 =
        (k.placeAll place seen' (firstsAfter k.name before l) r' h).2 := by
  induction l generalizing before seen seen' r r' h with
  | nil => exact ⟨hr, rfl⟩
  | cons a l ih =>
    have hone : seen.contains (k.name a) = isAgain k.name (a, before) := hseen _
    have hone' : seen'.contains (k.name a) = isAgain k.name (a, before) := hseen' _
    have hchecked := hr.checkTypes (k.annotations a)
    cases hagain : isAgain k.name (a, before) with
    | true =>
      have hrest : firstsAfter k.name before (a :: l) = firstsAfter k.name (before ++ [a]) l := by
        simp [firstsAfter, withEarlier, hagain]
      rw [hrest, placeAll, hone, hagain]
      exact ih _ _ _ (hseen.add a) (hseen'.again hagain) (hchecked.withErrors _) h
    | false =>
      have hrest : firstsAfter k.name before (a :: l) =
          a :: firstsAfter k.name (before ++ [a]) l := by
        simp [firstsAfter, withEarlier, hagain]
      have hchecked' := (hchecked.symm.checkTypes (k.annotations a)).symm
      obtain ⟨hagree, heq⟩ := hplace h a _ _ hchecked'
      rw [hrest, placeAll, placeAll, hone, hone', hagain]
      simp only [Bool.false_eq_true, if_false]
      simp only at heq
      rw [← heq]
      exact ih _ _ _ (hseen.add a) (hseen'.add a) hagree _

namespace Resolution

variable {r r' : Resolution}

theorem Agree.placeMembers (hr : Agree r r') (c : ClassDecl) (level : Nat) (h : Header) :
    Agree (r.placeMembers c level h).1 (r'.placeMembers c.withoutRepeats level h).1 ∧
      (r.placeMembers c level h).2 = (r'.placeMembers c.withoutRepeats level h).2 := by
  obtain ⟨hfields, heq⟩ := (MemberKind.field c.name).placeAll_firsts
    (fun r h f => r.placeField c.name level h f) (uniform_placeField c.name level) c.fields []
    [] [] (NamesOf.nil _) (NamesOf.nil _) hr h
  rw [← placeFields_eq, ← placeFields_eq] at hfields heq
  change Agree (placeMethods c.name level [] c.methods _ _).1
    (placeMethods c.name level [] (firstsAfter MethodDecl.name [] c.methods) _ _).1 ∧
      (placeMethods c.name level [] c.methods _ _).2 =
        (placeMethods c.name level [] (firstsAfter MethodDecl.name [] c.methods) _ _).2
  rw [placeMethods_eq, placeMethods_eq, heq]
  exact (MemberKind.method c.name).placeAll_firsts (fun r h m => r.placeMethod c.name level h m)
    (uniform_placeMethod c.name level) c.methods [] [] [] (NamesOf.nil _) (NamesOf.nil _) hfields _

/-- The header of a class is the same without the members that the class declares again. -/
theorem Agree.fillHeader (hr : Agree r r') (c : ClassDecl) :
    Agree (r.fillHeader c).1 (r'.fillHeader c.withoutRepeats).1 ∧
      (r.fillHeader c).2 = (r'.fillHeader c.withoutRepeats).2 := by
  obtain ⟨hagree, heq⟩ := uniform_openHeader c r r' hr
  have hopen : r'.openHeader c.withoutRepeats = r'.openHeader c := rfl
  have hheader : (r'.openHeader c).2.1 = (r.openHeader c).2.1 := congrArg Prod.fst heq.symm
  unfold Resolution.fillHeader
  rw [hopen, hr.scope, hheader]
  exact hagree.placeMembers c (r.scope.level + 1) (r.openHeader c).2.1

theorem Agree.layClass (hr : Agree r r') (c : ClassDecl) :
    Agree (r.layClass c).1 (r'.layClass c.withoutRepeats).1 ∧
      (r.layClass c).2 = (r'.layClass c.withoutRepeats).2 := by
  obtain ⟨⟨errors, hfill⟩, hheader⟩ := hr.fillHeader c
  have hparent : (r'.openHeader c.withoutRepeats).2.2 = (r.openHeader c).2.2 :=
    congrArg Prod.snd (uniform_openHeader c r r' hr).2.symm
  rw [layClass_eq, layClass_eq, hfill, ← hheader, hparent, hr.scope]
  exact ⟨⟨errors, rfl⟩, rfl⟩

theorem Agree.layClasses (hr : Agree r r') (cs : List ClassDecl) :
    Agree (layClasses cs r).1 (layClasses (cs.map ClassDecl.withoutRepeats) r').1 := by
  induction cs generalizing r r' with
  | nil => exact hr
  | cons c cs ih => exact ih (hr.layClass c).1

/-- The classes keep their layout and their members while other names are bound. -/
theorem Orderly.kept {ids : List NodeId} (h : r.Orderly) (hb : Binds ids r r') (cls : String) :
    r'.bindings.shape? cls = r.bindings.shape? cls ∧
      ∀ x, r'.bindings.member? cls x = r.bindings.member? cls x := by
  have hrecord : r'.bindings.record? cls = r.bindings.record? cls := by
    rw [Bindings.record?, hb.records, Bindings.record?]
  cases hr : r.bindings.record? cls with
  | none =>
    rw [hr] at hrecord
    simp [Bindings.shape?, Bindings.member?, hrecord, hr]
  | some record =>
    rw [hr] at hrecord
    obtain ⟨l, hl⟩ := h.records cls record hr
    have hl' := hl.grows hb.bindings
    refine ⟨by rw [hl'.shape? hrecord, hl.shape? hr], fun x => ?_⟩
    rw [hl'.member? hrecord, hl.member? hr]

end Resolution

namespace Program

/-- The classes of a program at the end are as they were after the headers. -/
theorem resolve_kept (p : Program) (cls : String) :
    p.resolve.bindings.shape? cls = p.laid.1.bindings.shape? cls ∧
      ∀ x, p.resolve.bindings.member? cls x = p.laid.1.bindings.member? cls x :=
  p.laid_orderly.kept p.binds_laid cls

/-- The tables after the headers are the same without the members that are declared again. -/
theorem laid_withoutRepeats (p : Program) :
    p.withoutRepeats.laid.1.bindings = p.laid.1.bindings := by
  have hopened : p.withoutRepeats.opened = p.opened := by
    rw [opened, withoutRepeats, List.map_map]
    rfl
  rw [laid, hopened]
  exact ((Agree.refl p.opened).layClasses p.classes).bindings

/-- Every field whose name a field before it in the class has is reported once, and so is
every method whose name a method before it has, and nothing else is reported as a repeated
member. From any state, the header of a class comes out the same as without these members:
the members of the class, all tables, the scope and the ancestry. So all classes of the
program have the layouts and the members that they have without them. -/
theorem repeated_members_reported (p : Program) :
    p.resolve.errors.filter (fun e => e.cause.isRepeated) = p.classes.flatMap ClassDecl.repeats ∧
    (∀ (r : Resolution) (c : ClassDecl), (r.layClass c).2 = (r.layClass c.withoutRepeats).2 ∧
      Agree (r.layClass c).1 (r.layClass c.withoutRepeats).1) ∧
    ∀ cls, p.resolve.bindings.shape? cls = p.withoutRepeats.resolve.bindings.shape? cls ∧
      ∀ x, p.resolve.bindings.member? cls x = p.withoutRepeats.resolve.bindings.member? cls x := by
  refine ⟨?_, ?_, ?_⟩
  · rw [← filter_textual _ BindingFault.isTextual_of_isRepeated, textual_resolve,
      List.filter_append, Mention.filter_isRepeated, List.append_nil, List.filter_flatMap]
    refine List.flatMap_congr fun c _ => ?_
    rw [ClassDecl.headerFaults, List.filter_append, MemberKind.faults_isRepeated _ fun _ => rfl,
      MemberKind.faults_isRepeated _ fun _ => rfl]
    rfl
  · intro r c
    obtain ⟨hagree, heq⟩ := (Agree.refl r).layClass c
    exact ⟨heq, hagree⟩
  · intro cls
    obtain ⟨hshape, hmember⟩ := p.resolve_kept cls
    obtain ⟨hshape', hmember'⟩ := p.withoutRepeats.resolve_kept cls
    rw [laid_withoutRepeats] at hshape' hmember'
    exact ⟨hshape.trans hshape'.symm, fun x => (hmember x).trans (hmember' x).symm⟩

end Program

/-- Two classes that declare members again, of other types: after a member that is new, after
one that takes over an inherited place, and after one that is rejected because the inherited
member is of the other kind. -/
def echoProgram : Program :=
  let pos := Position.ofLine 1
  let get (id line : Nat) (name : String) (ret : WrittenType) : MethodDecl :=
    { id, name, params := [], ret, decls := [], body := .lit (.int 0) pos, pos := .ofLine line }
  { classes := [
      { id := 0, name := "A", parent? := none, pos
        fields := [⟨1, "x", .int pos, pos⟩, ⟨2, "x", .bool pos, .ofLine 2⟩]
        methods := [get 3 1 "m" (.int pos), get 4 3 "m" (.bool pos)] },
      { id := 5, name := "B", parent? := some "A", pos
        fields := [⟨6, "x", .int pos, pos⟩, ⟨7, "m", .int pos, pos⟩, ⟨8, "x", .bool pos, .ofLine 4⟩,
          ⟨9, "m", .bool pos, .ofLine 5⟩]
        methods := [get 10 1 "x" (.int pos), get 11 1 "m" (.int pos), get 12 6 "x" (.bool pos),
          get 13 7 "m" (.bool pos), get 14 8 "m" (.int pos)] }]
    decls := []
    body := .lit (.int 0) pos
    pos }

/-- The second and third of its methods of one name are each reported, and the layout of the
class has the types of the first ones. -/
theorem echoProgram_repeated :
    echoProgram.resolve.errors.filter (fun e => e.cause.isRepeated) =
      [⟨.ofLine 2, .repeatedMember .field "A" "x"⟩, ⟨.ofLine 3, .repeatedMember .method "A" "m"⟩,
        ⟨.ofLine 4, .repeatedMember .field "B" "x"⟩, ⟨.ofLine 5, .repeatedMember .field "B" "m"⟩,
        ⟨.ofLine 6, .repeatedMember .method "B" "x"⟩, ⟨.ofLine 7, .repeatedMember .method "B" "m"⟩,
        ⟨.ofLine 8, .repeatedMember .method "B" "m"⟩] ∧
    (echoProgram.resolve.bindings.shape? "B").map (fun s => (s.fields, s.methods)) =
      some ([.int], [⟨[], .int⟩]) ∧
    echoProgram.resolve.bindings.member? "B" "m" =
      some { level := 1, type := .method ⟨[], .int⟩, offset := 0 } := by
  obtain ⟨hreported, -, hkept⟩ := echoProgram.repeated_members_reported
  obtain ⟨hshape, hmember⟩ := hkept "B"
  refine ⟨hreported.trans (by decide +kernel), ?_, (hmember "m").trans (by decide +kernel)⟩
  rw [hshape]
  decide +kernel

end Classlet
