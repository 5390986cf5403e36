/-!
What can be wrong with an assembly text.
-/

namespace Classlet

inductive AssemblyError where
  | unknownMnemonic (mnemonic : String) (line : Nat)
  | undefinedLabel (label : String)
  | badOperand (mnemonic : String) (line : Nat)
deriving DecidableEq

def AssemblyError.message : AssemblyError → String
  | .unknownMnemonic mnemonic line => s!"line {line}: unknown instruction '{mnemonic}'"
  | .undefinedLabel label => s!"label '{label}' is never defined"
  | .badOperand mnemonic line => s!"line {line}: bad operand for '{mnemonic}'"

end Classlet
