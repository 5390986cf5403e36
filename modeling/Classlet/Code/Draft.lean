import Classlet.Code.Listing

/-!
A draft collects the lines of a program whose functions are generated while
other code is still being written. A function's lines go to a block of its own;
a block that is closed is set aside under its label, and the finished listing
has the outer lines first and the closed blocks after them, in closing order.
-/

namespace Classlet

structure Draft where
  labels : LabelSupply := {}
  outer : List Line := []
  /-- Blocks that are still open, innermost first. -/
  opened : List (List Line) := []
  /-- The lines of the closed blocks, each block headed by its label. -/
  closed : List Line := []

namespace Draft

/-- Adds lines to the innermost open block, or to the outer lines. -/
def write (d : Draft) (lines : List Line) : Draft :=
  match d.opened with
  | [] => { d with outer := d.outer ++ lines }
  | block :: rest => { d with opened := (block ++ lines) :: rest }

def writeInstrs (d : Draft) (is : List Instr) : Draft := d.write (is.map .instr)

def writeLabel (d : Draft) (l : Label) : Draft := d.write [.label l]

def takeBranch (d : Draft) : Label × Draft :=
  let (l, labels) := d.labels.takeBranch
  (l, { d with labels })

def takeFunction (d : Draft) : Label × Draft :=
  let (l, labels) := d.labels.takeFunction
  (l, { d with labels })

def openBlock (d : Draft) : Draft := { d with opened := [] :: d.opened }

/-- Closes the innermost block under a label; without an open block the label
heads an empty one. -/
def closeBlock (d : Draft) (l : Label) : Draft :=
  match d.opened with
  | [] => { d with closed := d.closed ++ [.label l] }
  | block :: rest => { d with opened := rest, closed := d.closed ++ .label l :: block }

def inBlock (d : Draft) : Bool := !d.opened.isEmpty

/-- Blocks left open follow the outer lines, innermost first. -/
def finish (d : Draft) : Listing := ⟨d.outer ++ d.opened.flatten ++ d.closed⟩

end Draft

end Classlet
