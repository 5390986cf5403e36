import Classlet.Assembly.Assemble
import Classlet.Compile
import Classlet.Machine.Run

/-!
Assembly texts and programs, run from beginning to end on a fresh machine.
-/

namespace Classlet

/-- Why a text or a program has no outcome. -/
inductive RunError where
  | assembly (error : AssemblyError)
  | machine (fault : Fault)
deriving DecidableEq

def RunError.message : RunError → String
  | .assembly e => e.message
  | .machine fault => fault.message

/-- Assembles a text and runs its code for at most `limit` instructions on a
machine of the given size. -/
def runAssembly (memorySize : Word) (limit : Nat) (source : String) :
    Except RunError Machine.Outcome :=
  match assemble source with
  | .error e => .error (.assembly e)
  | .ok code =>
    match (Machine.run limit code.toArray (Machine.fresh memorySize)).2 with
    | .error fault => .error (.machine fault)
    | .ok outcome => .ok outcome

/-- Why a program could not be executed. -/
inductive ExecutionError where
  | compile (errors : List Diagnostic)
  | run (error : RunError)
deriving DecidableEq

def ExecutionError.message : ExecutionError → String
  | .compile errors => s!"compilation failed with {errors.length} error(s)"
  | .run error => "runtime error: " ++ error.message

/-- A program that was compiled and run. -/
structure Execution where
  listing : Listing
  programType? : Option Ty
  outcome : Machine.Outcome

/-- Compiles a program and runs it on a machine of the size it was compiled
for. -/
def Program.execute (p : Program) (o : Options) : Except ExecutionError Execution :=
  let c := p.compile o
  match c.listing? with
  | none => .error (.compile c.errors)
  | some listing =>
    match runAssembly o.memorySize Machine.defaultLimit listing.text with
    | .error e => .error (.run e)
    | .ok outcome => .ok { listing, programType? := c.programType?, outcome }

end Classlet
