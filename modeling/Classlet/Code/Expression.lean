import Classlet.Binding.Table
import Classlet.Code.Error
import Classlet.Code.Listing

/-!
Code for expressions. The code of an expression leaves its value on the stack
and the stack below it as it was. Booleans are 0 and 1, and null is -1.

A frame holds its access link at `fp`, the parameters above it and the local
declarations below it. A name is reached by following access links, one for
each frame between its use and its declaration. The access link of a method is
the object it was called on, whose fields are below the object's address and
whose dispatch table is at that address.
-/

namespace Classlet

/-- What code is generated for: the bindings of the names, and the size of the
memory, at whose end the outermost frame begins. -/
structure Target where
  bindings : Bindings
  memorySize : Word

/-- Generation of code, which hands out branch labels. -/
abbrev Gen := StateT LabelSupply (Except GenerationError)

namespace Gen

/-- What a look-up found; without it the name has no binding. -/
def require {α : Type} (name : String) (pos : Position) : Option α → Gen α
  | some a => return a
  | none => throw ⟨pos, .unbound name⟩

def takeBranch : Gen Label := modifyGet LabelSupply.takeBranch

end Gen

def Literal.word : Literal → Word
  | .int w => w
  | .bool b => if b then 1 else 0
  | .null => -1

namespace Code

open Gen

/-- Lines of instructions only. -/
def instrs (is : List Instr) : List Line := is.map .instr

/-- Pushes the frame that is `distance` access links away. -/
def pushFrame (distance : Nat) : List Instr :=
  .plain (.pushReg .fp) :: List.replicate distance (.plain .load)

/-- Replaces the address on top by the word at an offset from it. -/
def loadAt (offset : Int) : List Instr :=
  [.push (Int64.ofInt offset), .plain (.arith .add), .plain .load]

/-- Moves the end of the heap by one word. -/
def growHeap : List Instr :=
  [.plain (.pushReg .hp), .push 1, .plain (.arith .add), .plain (.popReg .hp)]

/-- Moves the topmost word to the heap. -/
def moveToHeap : List Instr := [.plain (.pushReg .hp), .plain .store] ++ growHeap

/-- Pushes a second copy of the topmost word. -/
def duplicate : List Instr := [.plain (.popReg .tm), .plain (.pushReg .tm), .plain (.pushReg .tm)]

/-- Calls the code whose address is at an offset from the frame on top, which
becomes the access link. The code of a method is found in the dispatch table. -/
def callAt (e : Entry) : List Instr :=
  duplicate ++ (if e.isMethod then [.plain .load] else []) ++ loadAt e.offset ++ [.plain .call]

/-- Calls a method of the object on top, which becomes the access link. -/
def callMethod (method : Entry) : List Instr :=
  duplicate ++ [.plain .load] ++ loadAt method.offset ++ [.plain .call]

/-- Moves the arguments on the stack to the heap and puts the dispatch table
found in the slot of the class behind them; the address of that word is the
object. -/
def allocate (args : Nat) (slot : Word) : List Instr :=
  (List.replicate args moveToHeap).flatten ++
    [.push slot, .plain .load, .plain (.pushReg .hp), .plain .store, .plain (.pushReg .hp)] ++
    growHeap

/-- Evaluates both operands in the given order and compares them. -/
def comparison (test : JumpTest) (first second : Gen (List Line)) : Gen (List Line) := do
  let yes ← takeBranch
  let done ← takeBranch
  let a ← first
  let b ← second
  return a ++ b ++ instrs [.jump test yes, .push 0, .jump .always done] ++
    [.label yes, .instr (.push 1), .label done]

/-- Evaluates both operands and combines them by one operation. -/
def arithmetic (op : Arith) (left right : Gen (List Line)) : Gen (List Line) := do
  let a ← left
  let b ← right
  return a ++ b ++ instrs [.plain (.arith op)]

/-- Evaluates both operands; the disjunction is false if their sum is zero. -/
def disjunction (left right : Gen (List Line)) : Gen (List Line) := do
  let no ← takeBranch
  let done ← takeBranch
  let a ← left
  let b ← right
  return a ++ b ++
    instrs [.plain (.arith .add), .push 0, .jump .equal no, .push 1, .jump .always done] ++
    [.label no, .instr (.push 0), .label done]

/-- The code of a binary operation from the code of its operands. Only `>=`
evaluates its right operand first. -/
def binary (op : BinOp) (left right : Gen (List Line)) : Gen (List Line) :=
  match op with
  | .equal => comparison .equal left right
  | .lessEqual => comparison .lessEqual left right
  | .greaterEqual => comparison .lessEqual right left
  | .and => arithmetic .mul left right
  | .or => disjunction left right
  | .add => arithmetic .add left right
  | .sub => arithmetic .sub left right
  | .mul => arithmetic .mul left right
  | .div => arithmetic .div left right

/-- Evaluates the test and then one of the branches. -/
def conditional (test yes no : Gen (List Line)) : Gen (List Line) := do
  let yesLabel ← takeBranch
  let done ← takeBranch
  let t ← test
  let n ← no
  let y ← yes
  return t ++ instrs [.push 1, .jump .equal yesLabel] ++ n ++ instrs [.jump .always done] ++
    [.label yesLabel] ++ y ++ [.label done]

mutual

def ofExpr (t : Target) : Expr → Gen (List Line)
  | .lit value _ => return instrs [.push value.word]
  | .name id x pos => do
    let (u, e) ← require x pos (t.bindings.used? id)
    return instrs (pushFrame (u.distance e) ++ loadAt e.offset)
  | .binary op left right _ => binary op (ofExpr t left) (ofExpr t right)
  | .not operand _ => do
    let code ← ofExpr t operand
    return code ++ instrs [.push (-1), .plain (.arith .mul), .push 1, .plain (.arith .add)]
  | .cond test yes no _ => conditional (ofExpr t test) (ofExpr t yes) (ofExpr t no)
  | .print operand _ => do
    let code ← ofExpr t operand
    return code ++ instrs [.plain .print]
  | .call id callee args pos => do
    let (u, e) ← require callee pos (t.bindings.used? id)
    let code ← ofArgsBackwards t args
    return instrs [.plain (.pushReg .fp)] ++ code ++
      instrs (pushFrame (u.distance e) ++ callAt e)
  | .send id receiver method args pos => do
    let u ← require method pos t.bindings.sends[id]?
    let r ← require receiver pos (t.bindings.entry? u.receiver.entry)
    let m ← require method pos (t.bindings.entry? u.method)
    let code ← ofArgsBackwards t args
    return instrs [.plain (.pushReg .fp)] ++ code ++
      instrs (pushFrame (u.receiver.distance r) ++ loadAt r.offset ++ callMethod m)
  | .new id cls args pos => do
    let (_, e) ← require cls pos (t.bindings.used? id)
    let code ← ofArgs t args
    return code ++ instrs (allocate args.length (t.memorySize + Int64.ofInt e.offset))
termination_by structural e => e

/-- Evaluates arguments from the first to the last. -/
def ofArgs (t : Target) : List Expr → Gen (List Line)
  | [] => return []
  | e :: es => do
    let code ← ofExpr t e
    let rest ← ofArgs t es
    return code ++ rest
termination_by structural es => es

/-- Evaluates arguments from the last to the first. -/
def ofArgsBackwards (t : Target) : List Expr → Gen (List Line)
  | [] => return []
  | e :: es => do
    let rest ← ofArgsBackwards t es
    let code ← ofExpr t e
    return rest ++ code
termination_by structural es => es

end

end Code

end Classlet
