import Classlet.Word

/-!
The operations of the stack machine. Pushing a word and the three jumps have an
operand in the code word that follows; all other operations are a single word.
The number of an operation is its place in the table of all operations.
-/

namespace Classlet

/-- The registers that can be pushed and popped: the return address, the word
in passing, the frame and the end of the heap. -/
inductive Register where
  | ra
  | tm
  | fp
  | hp
deriving DecidableEq

inductive Arith where
  | add
  | sub
  | mul
  | div
deriving DecidableEq

/-- The value of an operation on words; only a quotient can be missing. -/
def Arith.apply? : Arith → Word → Word → Option Word
  | .add, a, b => some (a + b)
  | .sub, a, b => some (a - b)
  | .mul, a, b => some (a * b)
  | .div, a, b => Word.quotient? a b

/-- When a jump is taken: always, or by comparing the two topmost words. -/
inductive JumpTest where
  | always
  | equal
  | lessEqual
deriving DecidableEq

/-- The operations that take no operand. -/
inductive PlainOp where
  | pop
  | arith (op : Arith)
  | store
  | load
  | call
  | pushReg (r : Register)
  | popReg (r : Register)
  /-- Makes the top of the stack the frame. -/
  | setFrame
  | print
  | halt
deriving DecidableEq

inductive Operation where
  | push
  | plain (op : PlainOp)
  | jump (test : JumpTest)
deriving DecidableEq

/-- What an operation may have as its operand: nothing, a number or a label, or
only a label. -/
inductive OperandKind where
  | nothing
  | value
  | target
deriving DecidableEq

namespace Operation

/-- Every operation, at the place that is its code word. -/
def all : Array Operation := #[
  .push, .plain .pop, .plain (.arith .add), .plain (.arith .sub), .plain (.arith .mul),
  .plain (.arith .div), .plain .store, .plain .load, .jump .always, .jump .equal,
  .jump .lessEqual, .plain .call, .plain (.pushReg .ra), .plain (.popReg .ra),
  .plain (.pushReg .tm), .plain (.popReg .tm), .plain (.pushReg .fp), .plain (.popReg .fp),
  .plain .setFrame, .plain (.pushReg .hp), .plain (.popReg .hp), .plain .print, .plain .halt]

def toNat (o : Operation) : Nat := all.idxOf o

def toWord (o : Operation) : Word := Int64.ofNat o.toNat

def ofWord? (w : Word) : Option Operation := (Word.index? w).bind fun i => all[i]?

def mnemonic : Operation → String
  | .push => "push"
  | .plain .pop => "pop"
  | .plain (.arith .add) => "add"
  | .plain (.arith .sub) => "sub"
  | .plain (.arith .mul) => "mult"
  | .plain (.arith .div) => "div"
  | .plain .store => "sw"
  | .plain .load => "lw"
  | .jump .always => "b"
  | .jump .equal => "beq"
  | .jump .lessEqual => "bleq"
  | .plain .call => "js"
  | .plain (.pushReg .ra) => "lra"
  | .plain (.popReg .ra) => "sra"
  | .plain (.pushReg .tm) => "ltm"
  | .plain (.popReg .tm) => "stm"
  | .plain (.pushReg .fp) => "lfp"
  | .plain (.popReg .fp) => "sfp"
  | .plain .setFrame => "cfp"
  | .plain (.pushReg .hp) => "lhp"
  | .plain (.popReg .hp) => "shp"
  | .plain .print => "print"
  | .plain .halt => "halt"

def ofMnemonic? (s : String) : Option Operation := all.find? fun o => o.mnemonic == s

def operandKind : Operation → OperandKind
  | .push => .value
  | .plain _ => .nothing
  | .jump _ => .target

end Operation

end Classlet
