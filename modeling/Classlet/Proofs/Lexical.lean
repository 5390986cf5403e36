import Classlet.Binding.Error
import Classlet.Binding.Table
import Classlet.Proofs.Tree

/-!
Lexical scope, read off the text of a program. A frame says of a name which node
declares it there, and frames are searched from the innermost outwards. The frame
of a function or method has its parameters and then the declarations before the
place in question, and the first declaration of a name counts. Around a method is
the frame of the members of its class, own and inherited, and outermost is the
frame of the program: its classes, and after them its declarations.
-/

namespace Classlet

/-- The node that declares a name, for the names of one frame. -/
abbrev Naming := String → Option NodeId

namespace Naming

/-- The names of declarations in the order of the text: the first declaration of
a name counts. -/
def ofList (l : List (String × NodeId)) : Naming := fun x => l.lookup x

/-- The declaration that a name stands for, within frames that are given
innermost first. -/
def select? (Γ : List Naming) (x : String) : Option NodeId := Γ.findSome? fun γ => γ x

end Naming

/-- All expressions in an expression, with the frames around them. -/
def Expr.places (Γ : List Naming) (e : Expr) : List (List Naming × Expr) :=
  e.parts.map fun part => (Γ, part)

def Binder.named (p : Binder) : String × NodeId := (p.name, p.id)

namespace Decl

def named (d : Decl) : String × NodeId := (d.name, d.id)

mutual

/-- The expressions in a declaration, each with the frames around it; `before` are
the declarations before it in its own frame. A variable is not visible in its own
value, but a function is visible in its own body. -/
def places (outer : List Naming) (before : List (String × NodeId)) :
    Decl → List (List Naming × Expr)
  | .var _ _ _ init _ => init.places (.ofList before :: outer)
  | .fn id name params _ decls body _ =>
    let Γ := Naming.ofList (before ++ [(name, id)]) :: outer
    placesOfAll Γ (params.map Binder.named) decls ++
      body.places (.ofList (params.map Binder.named ++ decls.map named) :: Γ)
termination_by structural d => d

def placesOfAll (outer : List Naming) (before : List (String × NodeId)) :
    List Decl → List (List Naming × Expr)
  | [] => []
  | d :: ds => places outer before d ++ placesOfAll outer (before ++ [d.named]) ds
termination_by structural ds => ds

end

end Decl

/-- The expressions inside a function or method. -/
def routinePlaces (Γ : List Naming) (params : List Binder) (decls : List Decl) (body : Expr) :
    List (List Naming × Expr) :=
  Decl.placesOfAll Γ (params.map Binder.named) decls ++
    body.places (.ofList (params.map Binder.named ++ decls.map Decl.named) :: Γ)

/-! Members of classes. -/

/-- The declaration of a field or method. -/
structure Member where
  node : NodeId
  isMethod : Bool

/-- The member under a name, where a class declares the node `own?` under it as a
field or as a method and its superclass has the given member: a declaration takes a
name that is free, or the name of a member of the same kind. -/
def Member.over (isMethod : Bool) (own? : Option NodeId) (inherited : Option Member) :
    Option Member :=
  match inherited with
  | none => own?.map fun node => ⟨node, isMethod⟩
  | some old => if old.isMethod = isMethod then some ⟨own?.getD old.node, isMethod⟩ else some old

def MethodDecl.named (m : MethodDecl) : String × NodeId := (m.name, m.id)

/-- The members of a class, from those of its superclass. The first field and the
first method of a name count, and fields come before methods. -/
def ClassDecl.membersOver (c : ClassDecl) (inherited : String → Option Member) (x : String) :
    Option Member :=
  Member.over true (Naming.ofList (c.methods.map MethodDecl.named) x)
    (Member.over false (Naming.ofList (c.fields.map Binder.named) x) (inherited x))

/-- The members of the class of the given name. The classes are given with the
latest first; of several classes of one name the earliest counts, and a superclass
is a class before its subclass. -/
def membersOf : List ClassDecl → String → String → Option Member
  | [], _, _ => none
  | c :: earlier, cls, x =>
    if cls ∈ earlier.map ClassDecl.name then membersOf earlier cls x
    else if c.name = cls then
      c.membersOver (fun x => c.parent?.bind fun parent => membersOf earlier parent x) x
    else none

namespace ClassDecl

def named (c : ClassDecl) : String × NodeId := (c.name, c.id)

/-- The members that a class behind the classes `earlier` inherits. -/
def inherited (c : ClassDecl) (earlier : List ClassDecl) (x : String) : Option Member :=
  c.parent?.bind fun parent => membersOf earlier parent x

/-- The frame of the members of a class. -/
def naming (c : ClassDecl) (earlier : List ClassDecl) : Naming :=
  fun x => (c.membersOver (c.inherited earlier) x).map Member.node

/-- The frames of the members of classes behind the classes `earlier`. -/
def namings (earlier : List ClassDecl) : List ClassDecl → List Naming
  | [] => []
  | c :: cs => c.naming earlier :: namings (c :: earlier) cs

/-- The expressions inside the methods of a class. -/
def places (Γ : List Naming) (c : ClassDecl) : List (List Naming × Expr) :=
  c.methods.flatMap fun m => routinePlaces Γ m.params m.decls m.body

end ClassDecl

/-- All expressions of a program, each with the frames around it. The bodies of
classes see no declarations of the program. -/
def Program.places (p : Program) : List (List Naming × Expr) :=
  let classes := p.classes.map ClassDecl.named
  (p.classes.zip (ClassDecl.namings [] p.classes)).flatMap
      (fun q => q.1.places [q.2, .ofList classes]) ++
    (Decl.placesOfAll [] classes p.decls ++
      p.body.places [.ofList (classes ++ p.decls.map Decl.named)])

/-! Every expression has one place. -/

theorem Expr.map_places (Γ : List Naming) (e : Expr) : (e.places Γ).map Prod.snd = e.parts := by
  rw [places, List.map_map]
  exact List.map_id _

theorem Decl.map_places :
    (∀ (d : Decl) (outer : List Naming) (before : List (String × NodeId)),
      (d.places outer before).map Prod.snd = d.parts) ∧
    ∀ (ds : List Decl) (outer : List Naming) (before : List (String × NodeId)),
      (placesOfAll outer before ds).map Prod.snd = partsOfAll ds := by
  apply Decl.induction
  · intro id name type init pos outer before
    exact Expr.map_places _ init
  · intro id name params ret decls body pos ih outer before
    simp [places, Decl.parts, ih, Expr.map_places]
  · intro outer before
    rfl
  · intro d ds ihd ihs outer before
    simp [placesOfAll, partsOfAll, ihd, ihs]

theorem map_routinePlaces (Γ : List Naming) (params : List Binder) (decls : List Decl)
    (body : Expr) : (routinePlaces Γ params decls body).map Prod.snd =
      Decl.partsOfAll decls ++ body.parts := by
  rw [routinePlaces, List.map_append, Decl.map_places.2, Expr.map_places]

theorem ClassDecl.map_places (c : ClassDecl) (Γ : List Naming) :
    (c.places Γ).map Prod.snd = c.methods.flatMap MethodDecl.parts := by
  simp only [places, List.map_flatMap, map_routinePlaces]
  rfl

theorem ClassDecl.length_namings (cs : List ClassDecl) (earlier : List ClassDecl) :
    (namings earlier cs).length = cs.length := by
  induction cs generalizing earlier with
  | nil => rfl
  | cons c cs ih => simp [namings, ih]

theorem Program.map_places (p : Program) : p.places.map Prod.snd = p.parts := by
  have hclasses : ((p.classes.zip (ClassDecl.namings [] p.classes)).flatMap fun q =>
      q.1.methods.flatMap MethodDecl.parts) =
        p.classes.flatMap fun c => c.methods.flatMap MethodDecl.parts := by
    rw [← List.flatMap_map Prod.fst fun c : ClassDecl => c.methods.flatMap MethodDecl.parts,
      List.map_fst_zip (Nat.le_of_eq (ClassDecl.length_namings _ _).symm)]
  simp only [places, List.map_append, List.map_flatMap, ClassDecl.map_places, hclasses,
    Decl.map_places.2, Expr.map_places, Program.parts]

/-! What the tables and the report say of the names in a place. -/

def BindingFault.isUndeclared : BindingFault → Bool
  | .undeclared _ _ => true
  | _ => false

namespace Expr

/-- The report of a name that no frame declares: a name, the function of a call,
or the receiver of a method call. -/
def undeclared? (Γ : List Naming) : Expr → Option BindingError
  | .name _ x pos => unselected .variable x pos
  | .call _ callee _ pos => unselected .function callee pos
  | .send _ receiver _ _ pos => unselected .variable receiver pos
  | _ => none
where
  unselected (kind : NameKind) (x : String) (pos : Position) : Option BindingError :=
    if (Naming.select? Γ x).isSome then none else some ⟨pos, .undeclared kind x⟩

end Expr

/-- A name or the function of a call is filed with the entry of its declaration,
or with nothing if there is none. -/
def NameSettled (b : Bindings) (node : NodeId) (declaration? : Option NodeId) : Prop :=
  match declaration? with
  | none => b.uses[node]? = none
  | some n => ∃ u, b.uses[node]? = some u ∧ b.declarations[n]? = some u.entry

/-- A method call is filed with the entry of the declaration of its receiver, and
with the method that the class of the receiver has. Where the declaration is not one
of an object, or its class has no such method, that is reported. -/
def ReceiverSettled (b : Bindings) (errors : List BindingError) (node : NodeId)
    (receiver method : String) (pos : Position) (declaration? : Option NodeId) : Prop :=
  match declaration? with
  | none => b.sends[node]? = none
  | some n => ∃ id entry, b.declarations[n]? = some id ∧ b.entry? id = some entry ∧
    match entry.type.referent? with
    | none => b.sends[node]? = none ∧ ⟨pos, .notAReference receiver⟩ ∈ errors
    | some cls =>
      match b.record? cls with
      | none => b.sends[node]? = none
      | some record =>
        match record.members[method]? with
        | none => b.sends[node]? = none ∧ ⟨pos, .noMethod cls method⟩ ∈ errors
        | some m => ∃ u, b.sends[node]? = some u ∧ u.receiver.entry = id ∧ u.method = m

/-- What an expression itself refers to is settled as the frames around it say. -/
def Expr.Settled (b : Bindings) (errors : List BindingError) (Γ : List Naming) : Expr → Prop
  | .name id x _ => NameSettled b id (Naming.select? Γ x)
  | .call id callee _ _ => NameSettled b id (Naming.select? Γ callee)
  | .send id receiver method _ pos =>
    ReceiverSettled b errors id receiver method pos (Naming.select? Γ receiver)
  | _ => True

end Classlet
