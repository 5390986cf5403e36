import Classlet.Tree.Program

/-!
Trees are built from their leaves up. A supply hands out the numbers of the
nodes that have one, from zero, and knows the line that is stamped on every
node; the line stays until another one is set.

The numbers and the lines have no upper bound. With fewer than 2^32 numbered nodes
and lines below 2^32 all of them fit in 32 bits, and so does the next number.
-/

namespace Classlet

structure Supply where
  next : NodeId := 0
  line : Nat := 1
deriving DecidableEq

abbrev Build := StateM Supply

namespace Build

def setLine (line : Nat) : Build Unit := modify fun s => { s with line }

/-- A node that has a position only. -/
def stamped {α : Type} (node : Position → α) : Build α :=
  return node (Position.ofLine (← get).line)

/-- A node that has a number of its own, which no node has had before. -/
def numbered {α : Type} (node : NodeId → Position → α) : Build α :=
  modifyGet fun s => (node s.next (Position.ofLine s.line), { s with next := s.next + 1 })

end Build

end Classlet
