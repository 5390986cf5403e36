import Classlet.Binding.Resolution

/-!
Class headers. A class starts from the members and the layout of its
superclass. A field or method of an inherited name takes over its place; a new
field comes below all fields, and a new method after all methods. A field never
takes the place of a method, nor a method that of a field.
-/

namespace Classlet

/-- The members and the layout of a class while they are being put together. -/
structure Header where
  members : Names := ∅
  shape : ClassShape := {}

namespace Resolution

/-- Files a member of a class under its name. -/
def fileMember (r : Resolution) (h : Header) (node : NodeId) (name : String) (e : Entry) :
    Resolution × Header :=
  let (id, r) := r.add node e
  (r, { h with members := h.members.insert name id })

/-- The member that a class has under a name so far. -/
def member? (r : Resolution) (h : Header) (name : String) : Option Entry :=
  h.members[name]?.bind r.bindings.entry?

/-- Gives a field the place of the inherited one, or a new place. -/
def placeField (r : Resolution) (cls : String) (level : Nat) (h : Header) (f : Binder) :
    Resolution × Header :=
  let type := f.type.lower
  let fields := h.shape.fields
  match r.member? h f.name with
  | none =>
    let offset := -(fields.length : Int) - 1
    r.fileMember { h with shape.fields := fields ++ [type] } f.id f.name { level, type, offset }
  | some old =>
    if old.isMethod then (r.report f.pos (.fieldOverMethod cls f.name), h)
    else
      let fields := match old.fieldPosition? with
        | some i => fields.set i type
        | none => fields
      r.fileMember { h with shape.fields := fields } f.id f.name
        { level, type, offset := old.offset }

/-- Places fields in order. A name is placed once; `seen` holds the names of
the fields before. -/
def placeFields (cls : String) (level : Nat) :
    (seen : List String) → List Binder → Resolution → Header → Resolution × Header
  | _, [], r, h => (r, h)
  | seen, f :: fs, r, h =>
    let r := r.checkType f.type
    let (r, h) :=
      if seen.contains f.name then (r.report f.pos (.repeatedMember .field cls f.name), h)
      else r.placeField cls level h f
    placeFields cls level (f.name :: seen) fs r h

/-- Files a method under its name and its slot. -/
def fileMethod (r : Resolution) (h : Header) (level : Nat) (m : MethodDecl) (slot : MethodSlot) :
    Resolution × Header :=
  let (r, h) := r.fileMember h m.id m.name
    { level, type := .method m.signature, offset := slot.index }
  ({ r with bindings := r.bindings.fileSlot m.id slot }, h)

/-- Gives a method the slot of the inherited one, or a new slot. -/
def placeMethod (r : Resolution) (cls : String) (level : Nat) (h : Header) (m : MethodDecl) :
    Resolution × Header :=
  let methods := h.shape.methods
  match r.member? h m.name with
  | none =>
    r.fileMethod { h with shape.methods := methods ++ [m.signature] } level m
      { index := methods.length, inherited := false }
  | some old =>
    if !old.isMethod then (r.report m.pos (.methodOverField cls m.name), h)
    else
      let index := old.offset.toNat
      r.fileMethod { h with shape.methods := methods.set index m.signature } level m
        { index, inherited := true }

/-- Places methods in order. A name is placed once; `seen` holds the names of
the methods before. -/
def placeMethods (cls : String) (level : Nat) :
    (seen : List String) → List MethodDecl → Resolution → Header → Resolution × Header
  | _, [], r, h => (r, h)
  | seen, m :: ms, r, h =>
    let r := r.checkSignature m.params m.ret
    let (r, h) :=
      if seen.contains m.name then (r.report m.pos (.repeatedMember .method cls m.name), h)
      else r.placeMethod cls level h m
    placeMethods cls level (m.name :: seen) ms r h

/-- Starts a class from its superclass, which must be a class before it. The
result also names the superclass that was found. -/
def inherit (r : Resolution) (c : ClassDecl) : Resolution × Header × Option String :=
  match c.parent? with
  | none => (r, {}, none)
  | some parent =>
    match r.bindings.record? parent with
    | none => (r.report c.pos (.noSuperclass c.name parent), {}, none)
    | some record =>
      let shape := (r.bindings.shape? parent).getD {}
      ({ r with ancestry := r.ancestry.setParent c.name parent },
        { members := record.members, shape }, some parent)

/-- Puts the header of a class together and declares the class. Of several
classes of one name the first keeps the name, and the others are reported. -/
def layClass (r : Resolution) (c : ClassDecl) : Resolution × Names :=
  let level := r.scope.level + 1
  let (offset, scope) := r.scope.takeDecl
  let (r, h, parent?) := { r with scope }.inherit c
  let r :=
    if r.scope.hasLocal c.name then
      r.report c.pos (.redeclared .cls c.name)
    else r
  let (r, h) := placeFields c.name level [] c.fields r h
  let (r, h) := placeMethods c.name level [] c.methods r h
  let (entry, r) := r.add c.id { level := r.scope.level, type := h.shape.toTy, offset }
  let bindings := r.bindings.fileClass c.id { entry, parent? }
  ({ r with
      scope := (r.scope.declare? c.name entry).getD r.scope
      bindings := (bindings.register? c.name { entry, members := h.members }).getD bindings },
    h.members)

/-- Puts the headers of classes together, in order, with the members of each. -/
def layClasses : List ClassDecl → Resolution → Resolution × List Names
  | [], r => (r, [])
  | c :: cs, r =>
    let (r, members) := r.layClass c
    let (r, rest) := layClasses cs r
    (r, members :: rest)

end Resolution

end Classlet
