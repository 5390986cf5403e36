import Classlet.Assembly.Error
import Classlet.Code.Operation
import Classlet.Numeral
import Classlet.Text

/-!
One line of assembly text is a statement: any number of labels, each a token
that ends in a colon, and then at most one instruction with its operand. An
operand that is no numeral is the name of a label, defined on whatever line.
-/

namespace Classlet

inductive Operand where
  | number (value : Word)
  | label (name : String)
deriving DecidableEq

structure Statement where
  labels : List String := []
  instr : Option (Operation × Option Operand) := none
deriving DecidableEq

namespace Statement

/-- The label that a token defines: all of it but a colon at its end. -/
def definedLabel? (token : List Char) : Option String :=
  if token.getLast? = some ':' then some (String.ofList token.dropLast) else none

/-- The labels defined by the leading tokens, and the tokens after them. -/
def splitLabels : List (List Char) → List String × List (List Char)
  | [] => ([], [])
  | t :: ts =>
    match definedLabel? t with
    | some l => let (ls, rest) := splitLabels ts; (l :: ls, rest)
    | none => ([], t :: ts)

/-- A numeral is a number, and anything else the name of a label. -/
def operand (token : List Char) : Operand :=
  match Numeral.read? token with
  | some w => .number w
  | none => .label (String.ofList token)

/-- What follows the mnemonic must be what the operation takes. -/
def operands? (kind : OperandKind) (tokens : List (List Char)) : Option (Option Operand) :=
  match kind, tokens with
  | .nothing, [] => some none
  | .value, [token] => some (some (operand token))
  | .target, [token] =>
    match operand token with
    | .number _ => none
    | .label l => some (some (.label l))
  | _, _ => none

/-- Reads the tokens of the line with the given number. -/
def ofTokens (line : Nat) (tokens : List (List Char)) : Except AssemblyError Statement :=
  match splitLabels tokens with
  | (labels, []) => .ok { labels }
  | (labels, word :: rest) =>
    let mnemonic := String.ofList word
    match Operation.ofMnemonic? mnemonic with
    | none => .error (.unknownMnemonic mnemonic line)
    | some o =>
      match operands? o.operandKind rest with
      | none => .error (.badOperand mnemonic line)
      | some operand => .ok { labels, instr := some (o, operand) }

/-- Reads lines that are numbered from `first` on. -/
def ofLines (first : Nat) : List (List Char) → Except AssemblyError (List Statement)
  | [] => .ok []
  | l :: ls => do
    let s ← ofTokens first (Text.tokens l)
    return s :: (← ofLines (first + 1) ls)

/-- The number of code words of a statement. -/
def size (s : Statement) : Nat :=
  match s.instr with
  | none => 0
  | some (_, none) => 1
  | some (_, some _) => 2

end Statement

end Classlet
