import Std.Data.TreeMap

/-!
The ancestry of classes as the map from a class to its superclass. Nothing
keeps the map from being cyclic, so a walk upwards takes at most as many steps
as there are classes with a superclass.
-/

namespace Classlet

structure Ancestry where
  parents : Std.TreeMap String String := ∅

namespace Ancestry

def parent? (h : Ancestry) (c : String) : Option String := h.parents[c]?

/-- Makes `s` the superclass of `c`, in place of any other. -/
def setParent (h : Ancestry) (c s : String) : Ancestry :=
  { h with parents := h.parents.insert c s }

/-- The number of classes that have a superclass. -/
def size (h : Ancestry) : Nat := h.parents.size

/-- The first `n` classes above `c`, nearest first. -/
def climb (h : Ancestry) : Nat → String → List String
  | 0, _ => []
  | n + 1, c =>
    match h.parent? c with
    | none => []
    | some s => s :: climb h n s

def ancestors (h : Ancestry) (c : String) : List String := h.climb h.size c

/-- A class descends from itself and from its ancestors. -/
def descends (h : Ancestry) (c d : String) : Bool := c == d || (h.ancestors c).contains d

end Ancestry

end Classlet
