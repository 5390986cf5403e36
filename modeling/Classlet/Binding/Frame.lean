import Std.Data.TreeMap

/-!
Scopes as stacks of frames. A frame holds the names declared in it, each with
the number of its entry, and counts out the places of its declarations (from
-2 downwards) and of its parameters (from 1 upwards). The level of a frame is
its distance from the outermost frame.

The numbers of entries, the levels and the places have no bounds. With fewer than
2^31 - 1 entries in a program all of them fit in 32 bits, the places with a sign,
and so do the places that are free next.
-/

namespace Classlet

abbrev EntryId := Nat

/-- The names of a frame or the members of a class. -/
abbrev Names := Std.TreeMap String EntryId

structure Frame where
  names : Names := ∅
  declPlace : Int := -2
  paramPlace : Int := 1

structure Scope where
  /-- The open frames, innermost first. -/
  frames : List Frame := []

namespace Scope

/-- Opens a frame that already knows some names. -/
def push (s : Scope) (names : Names := ∅) : Scope := ⟨{ names } :: s.frames⟩

def pop (s : Scope) : Scope := ⟨s.frames.tail⟩

/-- The level of the innermost frame. -/
def level (s : Scope) : Nat := s.frames.length - 1

/-- The place of the next declaration. -/
def takeDecl (s : Scope) : Int × Scope :=
  match s.frames with
  | [] => (-2, s)
  | f :: fs => (f.declPlace, ⟨{ f with declPlace := f.declPlace - 1 } :: fs⟩)

/-- The place of the next parameter. -/
def takeParam (s : Scope) : Int × Scope :=
  match s.frames with
  | [] => (1, s)
  | f :: fs => (f.paramPlace, ⟨{ f with paramPlace := f.paramPlace + 1 } :: fs⟩)

def hasLocal (s : Scope) (name : String) : Bool :=
  match s.frames with
  | [] => false
  | f :: _ => f.names.contains name

/-- Adds a name to the innermost frame, unless it is taken there. -/
def declare? (s : Scope) (name : String) (entry : EntryId) : Option Scope :=
  match s.frames with
  | [] => none
  | f :: fs =>
    if f.names.contains name then none
    else some ⟨{ f with names := f.names.insert name entry } :: fs⟩

/-- The innermost frame that has the name, as entry and level. -/
def find? (name : String) : List Frame → Option (EntryId × Nat)
  | [] => none
  | f :: fs =>
    match f.names[name]? with
    | some entry => some (entry, fs.length)
    | none => find? name fs

def lookup? (s : Scope) (name : String) : Option (EntryId × Nat) := find? name s.frames

end Scope

end Classlet
