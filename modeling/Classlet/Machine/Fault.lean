import Classlet.Numeral

/-!
Why a run of the machine fails.
-/

namespace Classlet

inductive Fault where
  | invalidOpcode (word address : Word)
  | outOfMemory (sp hp : Word)
  | addressOutOfRange (address : Word)
  | divisionByZero (address : Word)
  | stepLimit (limit : Nat)
deriving DecidableEq

def Fault.message : Fault → String
  | .invalidOpcode word address =>
    s!"invalid opcode {Numeral.text word} at {Numeral.text address}"
  | .outOfMemory sp hp => s!"out of memory (sp {Numeral.text sp}, hp {Numeral.text hp})"
  | .addressOutOfRange address => s!"address {Numeral.text address} out of range"
  | .divisionByZero address => s!"division by zero at {Numeral.text address}"
  | .stepLimit limit => s!"step limit of {limit} exceeded"

end Classlet
