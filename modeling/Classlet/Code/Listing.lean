import Classlet.Code.Label
import Classlet.Code.Operation

/-!
A listing is symbolic code: instructions whose operands are words or labels,
and between them the lines that place the labels. Its text has one line for
each of its lines.
-/

namespace Classlet

inductive Instr where
  | push (value : Word)
  | pushLabel (label : Label)
  | plain (op : PlainOp)
  | jump (test : JumpTest) (target : Label)
deriving DecidableEq

namespace Instr

def operation : Instr → Operation
  | .push _ | .pushLabel _ => .push
  | .plain op => .plain op
  | .jump test _ => .jump test

/-- The label an instruction refers to. -/
def target? : Instr → Option Label
  | .pushLabel l | .jump _ l => some l
  | .push _ | .plain _ => none

def operandText? : Instr → Option String
  | .push w => some (Numeral.text w)
  | .pushLabel l | .jump _ l => some l.text
  | .plain _ => none

def text (i : Instr) : String :=
  match i.operandText? with
  | some operand => i.operation.mnemonic ++ " " ++ operand
  | none => i.operation.mnemonic

/-- The instruction of an operation with the given text as its operand. -/
def ofOperand? (o : Operation) (operand : Option (List Char)) : Option Instr :=
  match o, operand with
  | .push, some cs =>
    match Numeral.read? cs with
    | some w => some (.push w)
    | none => (Label.read? cs).map .pushLabel
  | .jump test, some cs => (Label.read? cs).map (.jump test)
  | .plain op, none => some (.plain op)
  | _, _ => none

/-- Reads an instruction as `text` writes it. -/
def read? (s : String) : Option Instr :=
  let cs := s.toList
  (Operation.ofMnemonic? (String.ofList (cs.takeWhile (· ≠ ' ')))).bind fun o =>
    match cs.dropWhile (· ≠ ' ') with
    | [] => ofOperand? o none
    | _ :: operand => ofOperand? o (some operand)

end Instr

inductive Line where
  | label (label : Label)
  | instr (instr : Instr)
deriving DecidableEq

namespace Line

def text : Line → String
  | .label l => l.text ++ ":"
  | .instr i => i.text

def instr? : Line → Option Instr
  | .instr i => some i
  | .label _ => none

def label? : Line → Option Label
  | .label l => some l
  | .instr _ => none

end Line

structure Listing where
  lines : List Line := []
deriving DecidableEq

namespace Listing

def text (l : Listing) : String := String.join (l.lines.map fun line => line.text ++ "\n")

def instrs (l : Listing) : List Instr := l.lines.filterMap Line.instr?

def labels (l : Listing) : List Label := l.lines.filterMap Line.label?

end Listing

end Classlet
