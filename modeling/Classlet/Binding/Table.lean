import Classlet.Binding.Frame
import Classlet.Tree.Expression
import Classlet.Ty.Basic

/-!
What is known about the names of a program. Each declaration has an entry with
its level, its type and its place; nodes of the tree are filed with the entries
they declare or use.
-/

namespace Classlet

/-- A declared name. The offset is its place in a frame, the place of a field
in an object, or the slot of a method in the dispatch table. -/
structure Entry where
  level : Nat
  type : Ty
  offset : Int
deriving DecidableEq

namespace Entry

def isMethod (e : Entry) : Bool := e.type.isMethod

/-- The position of a field in its class: the first field has offset -1. -/
def fieldPosition? (e : Entry) : Option Nat :=
  match -e.offset - 1 with
  | .ofNat n => some n
  | .negSucc _ => none

end Entry

/-- A use of an entry from within a frame of the given level. -/
structure Use where
  entry : EntryId
  level : Nat
deriving DecidableEq

/-- The number of frames between a use and the entry it uses. -/
def Use.distance (u : Use) (e : Entry) : Nat := u.level - e.level

/-- A method called on a receiver. -/
structure SendUse where
  receiver : Use
  method : EntryId
deriving DecidableEq

/-- The place of a method in the dispatch table, and whether it was taken over
from the superclass. -/
structure MethodSlot where
  index : Nat
  inherited : Bool
deriving DecidableEq

structure ClassBinding where
  entry : EntryId
  parent? : Option String
deriving DecidableEq

/-- The entry of a class and all its members, inherited ones included. -/
structure ClassRecord where
  entry : EntryId
  members : Names := ∅

structure Bindings where
  entries : Array Entry := #[]
  uses : Std.TreeMap NodeId Use := ∅
  sends : Std.TreeMap NodeId SendUse := ∅
  declarations : Std.TreeMap NodeId EntryId := ∅
  slots : Std.TreeMap NodeId MethodSlot := ∅
  classes : Std.TreeMap NodeId ClassBinding := ∅
  records : Std.TreeMap String ClassRecord := ∅

namespace Bindings

/-- Adds an entry under the next number. -/
def add (b : Bindings) (e : Entry) : EntryId × Bindings :=
  (b.entries.size, { b with entries := b.entries.push e })

def fileUse (b : Bindings) (node : NodeId) (u : Use) : Bindings :=
  { b with uses := b.uses.insert node u }

def fileSend (b : Bindings) (node : NodeId) (u : SendUse) : Bindings :=
  { b with sends := b.sends.insert node u }

def fileDeclaration (b : Bindings) (node : NodeId) (entry : EntryId) : Bindings :=
  { b with declarations := b.declarations.insert node entry }

def fileSlot (b : Bindings) (node : NodeId) (slot : MethodSlot) : Bindings :=
  { b with slots := b.slots.insert node slot }

def fileClass (b : Bindings) (node : NodeId) (c : ClassBinding) : Bindings :=
  { b with classes := b.classes.insert node c }

/-- Registers a class under its name, unless the name is registered. -/
def register? (b : Bindings) (name : String) (record : ClassRecord) : Option Bindings :=
  if b.records.contains name then none
  else some { b with records := b.records.insert name record }

def entry? (b : Bindings) (id : EntryId) : Option Entry := b.entries[id]?

/-- The use filed for a node, with the entry it uses. -/
def used? (b : Bindings) (node : NodeId) : Option (Use × Entry) := do
  let u ← b.uses[node]?
  return (u, ← b.entry? u.entry)

/-- The entry that a node declares. -/
def declared? (b : Bindings) (node : NodeId) : Option Entry := do
  b.entry? (← b.declarations[node]?)

def record? (b : Bindings) (cls : String) : Option ClassRecord := b.records[cls]?

/-- The member that a registered class has under a name. -/
def member? (b : Bindings) (cls name : String) : Option Entry := do
  b.entry? (← (← b.record? cls).members[name]?)

/-- The layout of a class that is registered under a name. -/
def shape? (b : Bindings) (cls : String) : Option ClassShape := do
  (← b.entry? (← b.record? cls).entry).type.shape?

/-- The number of nodes that are filed as using an entry. -/
def usedNodes (b : Bindings) : Nat := b.uses.size + b.sends.size

end Bindings

end Classlet
