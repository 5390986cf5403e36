import Classlet.Machine.Step

/-!
Runs of the machine. Before each instruction the stack must still be above the
heap. A run ends when the machine halts or fails; a run with a limit also ends
when it has carried out that many instructions.
-/

namespace Classlet

namespace Machine

/-- The number of instructions a run may take if nothing else is said. -/
def defaultLimit : Nat := 10000000

structure Config where
  memorySize : Word := 10000
  /-- The most instructions a run may take; without it a run may go on for ever. -/
  maxSteps : Option Nat := some defaultLimit
deriving DecidableEq

/-- What a run that halts has to show. -/
structure Outcome where
  output : List Word
  result : Option Word
  steps : Nat
deriving DecidableEq

/-- A machine in the middle of a run. -/
structure Progress where
  machine : Machine
  output : Array Word := #[]
  steps : Nat := 0

/-- How a run ends. -/
inductive Ending where
  | halted (result : Option Word)
  | failed (fault : Fault)
deriving DecidableEq, Inhabited

/-- Carries out at most `fuel` instructions; without an ending the run could go
on. -/
def Progress.advance (code : Array Word) : (fuel : Nat) → Progress → Progress × Option Ending
  | fuel, ⟨m, output, steps⟩ =>
    if m.sp ≤ m.hp then (⟨m, output, steps⟩, some (.failed (.outOfMemory m.sp m.hp)))
    else
      match fuel with
      | 0 => (⟨m, output, steps⟩, none)
      | fuel + 1 =>
        match step code m with
        | .error fault m => (⟨m, output, steps + 1⟩, some (.failed fault))
        | .ok (.halted result) m => (⟨m, output, steps + 1⟩, some (.halted result))
        | .ok (.printed w) m => Progress.advance code fuel ⟨m, output.push w, steps + 1⟩
        | .ok .quiet m => Progress.advance code fuel ⟨m, output, steps + 1⟩
termination_by structural fuel => fuel

/-- What a run that ended has to show for itself. -/
def Progress.close (p : Progress) : Ending → Except Fault Outcome
  | .halted result => .ok { output := p.output.toList, result, steps := p.steps }
  | .failed fault => .error fault

/-- Runs code for at most `limit` instructions. The machine is left as the run
leaves it, and its next run goes on from there. -/
def run (limit : Nat) (code : Array Word) (m : Machine) : Machine × Except Fault Outcome :=
  match Progress.advance code limit { machine := m } with
  | (p, some ending) => (p.machine, p.close ending)
  | (p, none) => (p.machine, .error (.stepLimit limit))

end Machine

end Classlet
