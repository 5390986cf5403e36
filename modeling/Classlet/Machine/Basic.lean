import Classlet.Code.Operation
import Classlet.Machine.Fault

/-!
The machine has a memory of words and six registers. The stack grows downwards
from the top of memory to the word at `sp`, the heap upwards from zero to `hp`.
An action may fail at any point, and what it did up to there stays done.
-/

namespace Classlet

structure Machine where
  memory : Array Word
  /-- The next code word. -/
  ip : Word := 0
  /-- The top of the stack. -/
  sp : Word
  /-- The current frame. -/
  fp : Word
  /-- The first free word of the heap. -/
  hp : Word := 0
  /-- The return address. -/
  ra : Word := 0
  /-- A word in passing. -/
  tm : Word := 0
deriving DecidableEq

/-- An action of the machine, which ends in a value or a fault. -/
abbrev Action := EStateM Fault Machine

namespace Machine

/-- A machine with an empty stack and an empty heap. A negative size means no
memory at all. -/
def fresh (size : Word) : Machine :=
  let top := if size < 0 then 0 else size
  { memory := Array.replicate top.toNatClampNeg 0, sp := top, fp := top }

/-- The word at an address of the memory. -/
def word? (m : Machine) (address : Word) : Option Word :=
  (Word.index? address).bind fun i => m.memory[i]?

/-- The word on top of the stack. -/
def top? (m : Machine) : Option Word := m.word? m.sp

def register (m : Machine) : Register → Word
  | .ra => m.ra
  | .tm => m.tm
  | .fp => m.fp
  | .hp => m.hp

def setRegister (m : Machine) (r : Register) (w : Word) : Machine :=
  match r with
  | .ra => { m with ra := w }
  | .tm => { m with tm := w }
  | .fp => { m with fp := w }
  | .hp => { m with hp := w }

def read (address : Word) : Action Word := do
  match (← get).word? address with
  | some w => return w
  | none => throw (.addressOutOfRange address)

def write (address value : Word) : Action Unit := do
  let m ← get
  match Word.index? address with
  | none => throw (.addressOutOfRange address)
  | some i =>
    if i < m.memory.size then
      set { m with memory := m.memory.setIfInBounds i value }
    else
      throw (.addressOutOfRange address)

def push (value : Word) : Action Unit := do
  let address := (← get).sp - 1
  write address value
  modify fun m => { m with sp := address }

def pop : Action Word := do
  let value ← read (← get).sp
  modify fun m => { m with sp := m.sp + 1 }
  return value

end Machine

end Classlet
