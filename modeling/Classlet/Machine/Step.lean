import Classlet.Machine.Basic

/-!
One instruction of the machine. The instruction pointer passes the operation
before the operation is carried out, and its operand before that is used.
-/

namespace Classlet.Machine

/-- What an instruction says to the outside. -/
inductive Signal where
  | quiet
  | printed (value : Word)
  | halted (result : Option Word)
deriving DecidableEq

/-- The code word at an address. -/
def codeAt (code : Array Word) (address : Word) : Action Word :=
  match (Word.index? address).bind fun i => code[i]? with
  | some w => return w
  | none => throw (.addressOutOfRange address)

def advanceIp : Action Unit := modify fun m => { m with ip := m.ip + 1 }

def jumpTo (target : Word) : Action Unit := modify fun m => { m with ip := target }

/-- The operand after the operation that is being carried out. -/
def operand (code : Array Word) : Action Word := do
  let w ← codeAt code (← get).ip
  advanceIp
  return w

/-- Carries out an operation without operand that stands at an address. -/
def runPlain (address : Word) : PlainOp → Action Signal
  | .pop => do
    let _ ← pop
    return .quiet
  | .arith op => do
    let b ← pop
    let a ← pop
    match op.apply? a b with
    | some w => push w; return .quiet
    | none => throw (.divisionByZero address)
  | .store => do
    let target ← pop
    let value ← pop
    write target value
    return .quiet
  | .load => do
    let source ← pop
    push (← read source)
    return .quiet
  | .call => do
    let target ← pop
    modify fun m => { m with ra := m.ip, ip := target }
    return .quiet
  | .pushReg r => do
    push ((← get).register r)
    return .quiet
  | .popReg r => do
    let w ← pop
    modify fun m => m.setRegister r w
    return .quiet
  | .setFrame => do
    modify fun m => { m with fp := m.sp }
    return .quiet
  | .print => do
    match (← get).top? with
    | some w => return .printed w
    | none => return .quiet
  | .halt => return .halted (← get).top?

/-- Jumps to the operand if the test passes. An unconditional jump takes no
words from the stack. -/
def runJump (code : Array Word) : JumpTest → Action Signal
  | .always => do
    jumpTo (← codeAt code (← get).ip)
    return .quiet
  | .equal => do
    let target ← operand code
    let right ← pop
    let left ← pop
    if left = right then jumpTo target
    return .quiet
  | .lessEqual => do
    let target ← operand code
    let right ← pop
    let left ← pop
    if left ≤ right then jumpTo target
    return .quiet

/-- Carries out an operation that stands at an address. -/
def execute (code : Array Word) (address : Word) : Operation → Action Signal
  | .push => do
    push (← operand code)
    return .quiet
  | .plain op => runPlain address op
  | .jump test => runJump code test

/-- Takes up the operation at the instruction pointer and carries it out. -/
def step (code : Array Word) : Action Signal := do
  let address := (← get).ip
  let word ← codeAt code address
  match Operation.ofWord? word with
  | none => throw (.invalidOpcode word address)
  | some o =>
    advanceIp
    execute code address o

end Classlet.Machine
