import Classlet.Assembly.Statement

/-!
Assembly of a text into code words. Every line is read first; then each label
stands for the number of code words before its first definition.
-/

namespace Classlet

namespace Statement

/-- The defined labels in text order, with the address after `start` words. -/
def addresses (start : Nat) : List Statement → List (String × Nat)
  | [] => []
  | s :: ss => s.labels.map (fun l => (l, start)) ++ addresses (start + s.size) ss

/-- The value of an operand, given where labels are. -/
def operandWord (table : List (String × Nat)) : Operand → Except AssemblyError Word
  | .number w => .ok w
  | .label l =>
    match table.lookup l with
    | some address => .ok (Int64.ofNat address)
    | none => .error (.undefinedLabel l)

/-- The code words of a statement. -/
def encode (table : List (String × Nat)) (s : Statement) : Except AssemblyError (List Word) :=
  match s.instr with
  | none => .ok []
  | some (o, none) => .ok [o.toWord]
  | some (o, some operand) => return [o.toWord, ← operandWord table operand]

def encodeAll (table : List (String × Nat)) : List Statement → Except AssemblyError (List Word)
  | [] => .ok []
  | s :: ss => do
    let words ← s.encode table
    return words ++ (← encodeAll table ss)

end Statement

/-- The code words of an assembly text. -/
def assemble (source : String) : Except AssemblyError (List Word) := do
  let statements ← Statement.ofLines 1 (Text.lines source.toList)
  Statement.encodeAll (Statement.addresses 0 statements) statements

end Classlet
