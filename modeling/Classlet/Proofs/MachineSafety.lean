import Classlet.Proofs.Actions
import Classlet.Proofs.AssemblyGrammar
import Classlet.Proofs.Limits
import Mathlib.Logic.Relation

/-!
What no code can do to the machine. The memory keeps its size, and the stack pointer stays
within it or at its end, after every instruction and also where one fails halfway. The other
registers may hold anything. Counting the pointers up and down never leaves the range of
words: a machine that checks each of these updates does what the machine does that does not.
So a pointer is only counted up after the word at it was found, and only counted down from
within the memory.
-/

namespace Classlet.Machine

/-- Why a machine that checks its pointers stops. -/
inductive Trap where
  | overflow
  | fault (fault : Fault)

/-- An action of a machine that checks its pointers. -/
abbrev CheckedAction := EStateM Trap Machine

/-! The machine that checks each update of a pointer by one. -/

namespace Checked

/-- An action that updates no pointer by one. -/
def lift {α : Type} (x : Action α) : CheckedAction α := x.adaptExcept Trap.fault

/-- The word that is so much further on. -/
def move (w : Word) (distance : Int) : CheckedAction Word :=
  match Word.ofInt? (w.toInt + distance) with
  | some w' => return w'
  | none => throw .overflow

def push (value : Word) : CheckedAction Unit := do
  let address ← move (← get).sp (-1)
  lift (write address value)
  modify fun m => { m with sp := address }

def pop : CheckedAction Word := do
  let value ← lift (read (← get).sp)
  let address ← move (← get).sp 1
  modify fun m => { m with sp := address }
  return value

def advanceIp : CheckedAction Unit := do
  let address ← move (← get).ip 1
  modify fun m => { m with ip := address }

def operand (code : Array Word) : CheckedAction Word := do
  let w ← lift (codeAt code (← get).ip)
  advanceIp
  return w

def runPlain (address : Word) : PlainOp → CheckedAction Signal
  | .pop => do
    let _ ← pop
    return .quiet
  | .arith op => do
    let b ← pop
    let a ← pop
    match op.apply? a b with
    | some w => push w; return .quiet
    | none => throw (.fault (.divisionByZero address))
  | .store => do
    let target ← pop
    let value ← pop
    lift (write target value)
    return .quiet
  | .load => do
    let source ← pop
    push (← lift (read source))
    return .quiet
  | .call => do
    let target ← pop
    modify fun m => { m with ra := m.ip, ip := target }
    return .quiet
  | .pushReg r => do
    push ((← get).register r)
    return .quiet
  | .popReg r => do
    let w ← pop
    modify fun m => m.setRegister r w
    return .quiet
  | .setFrame => lift (Machine.runPlain address .setFrame)
  | .print => lift (Machine.runPlain address .print)
  | .halt => lift (Machine.runPlain address .halt)

def runJump (code : Array Word) : JumpTest → CheckedAction Signal
  | .always => lift (Machine.runJump code .always)
  | .equal => do
    let target ← operand code
    let right ← pop
    let left ← pop
    if left = right then lift (jumpTo target)
    return .quiet
  | .lessEqual => do
    let target ← operand code
    let right ← pop
    let left ← pop
    if left ≤ right then lift (jumpTo target)
    return .quiet

def execute (code : Array Word) (address : Word) : Operation → CheckedAction Signal
  | .push => do
    push (← operand code)
    return .quiet
  | .plain op => runPlain address op
  | .jump test => runJump code test

def step (code : Array Word) : CheckedAction Signal := do
  let address := (← get).ip
  let word ← lift (codeAt code address)
  match Operation.ofWord? word with
  | none => throw (.fault (.invalidOpcode word address))
  | some o =>
    advanceIp
    execute code address o

end Checked

/-- The memory has the size it was made with, and the stack pointer is in it or at its end. -/
structure Bounded (size : Word) (m : Machine) : Prop where
  memory : (m.memory.size : Int) = max size.toInt 0
  sp_nonneg : 0 ≤ m.sp.toInt
  sp_le : m.sp.toInt ≤ max size.toInt 0

theorem Bounded.of_eq {size : Word} {m m' : Machine} (h : Bounded size m)
    (hmemory : m'.memory.size = m.memory.size) (hsp : m'.sp = m.sp) : Bounded size m' := by
  obtain ⟨hsize, hnonneg, hle⟩ := h
  refine ⟨?_, ?_, ?_⟩
  · rw [hmemory, hsize]
  · rwa [hsp]
  · rwa [hsp]

/-- The machine that an action leaves, whether it fails or not. -/
def leftBy {α : Type} (x : Action α) (m : Machine) : Machine :=
  match x m with
  | .ok _ m' | .error _ m' => m'

/-- On a machine within its bounds, an action keeps them; and if all places of the code have
an address, the action with checks does the same. -/
def Tracks (size : Word) (code : Array Word) {α : Type} (x : Action α) (y : CheckedAction α) :
    Prop :=
  ∀ m, Bounded size m →
    Bounded size (leftBy x m) ∧ (code.size < Word.limit → y m = Checked.lift x m)

theorem Checked.move_of_toInt {w w' : Word} {distance : Int} (h : w'.toInt = w.toInt + distance)
    (m : Machine) : Checked.move w distance m = .ok w' m := by
  rw [Checked.move, Numeral.ofInt?_eq_some.mpr h]
  rfl

theorem leftBy_of_ok {α : Type} {x : Action α} {m m' : Machine} {a : α} (h : x m = .ok a m') :
    leftBy x m = m' := by
  rw [leftBy, h]

theorem leftBy_of_error {α : Type} {x : Action α} {m m' : Machine} {e : Fault}
    (h : x m = .error e m') : leftBy x m = m' := by
  rw [leftBy, h]

namespace Checked

variable {α β : Type} {x : Action α} {m m' : Machine}

theorem lift_of_ok {a : α} (h : x m = .ok a m') : lift x m = .ok a m' := by
  rw [lift, EStateM.adaptExcept, h]

theorem lift_of_error {e : Fault} (h : x m = .error e m') : lift x m = .error (.fault e) m' := by
  rw [lift, EStateM.adaptExcept, h]

theorem bind_ok {y : CheckedAction α} {g : α → CheckedAction β} {a : α} (h : y m = .ok a m') :
    (y >>= g) m = g a m' := by
  simp [bind, EStateM.bind, h]

theorem bind_error {y : CheckedAction α} {g : α → CheckedAction β} {e : Trap}
    (h : y m = .error e m') : (y >>= g) m = .error e m' := by
  simp [bind, EStateM.bind, h]

theorem get_bind {g : Machine → CheckedAction β} :
    ((get : CheckedAction Machine) >>= g) m = g m m := rfl

end Checked

namespace Tracks

variable {size : Word} {code : Array Word} {α β : Type}

theorem pure (a : α) : Tracks size code (Pure.pure a) (Pure.pure a) :=
  fun _ hm => ⟨hm, fun _ => rfl⟩

theorem fail (e : Fault) : Tracks size code (throw e : Action α) (throw (.fault e)) :=
  fun _ hm => ⟨hm, fun _ => rfl⟩

theorem state : Tracks size code (get : Action Machine) get := fun _ hm => ⟨hm, fun _ => rfl⟩

theorem update {f : Machine → Machine} (h : ∀ m, (f m).memory = m.memory ∧ (f m).sp = m.sp) :
    Tracks size code (modify f : Action PUnit) (modify f) := by
  intro m hm
  obtain ⟨hmemory, hsp⟩ := h m
  exact ⟨hm.of_eq (congrArg Array.size hmemory) hsp, fun _ => rfl⟩

/-- An action that keeps the bounds and updates no pointer by one. -/
theorem lift {x : Action α} (h : ∀ m, Bounded size m → Bounded size (leftBy x m)) :
    Tracks size code x (Checked.lift x) :=
  fun m hm => ⟨h m hm, fun _ => rfl⟩

theorem bind {x : Action α} {y : CheckedAction α} {f : α → Action β} {g : α → CheckedAction β}
    (hx : Tracks size code x y) (hf : ∀ a, Tracks size code (f a) (g a)) :
    Tracks size code (x >>= f) (y >>= g) := by
  intro m hm
  obtain ⟨hleft, hsame⟩ := hx m hm
  rcases hrun : x m with ⟨a, m'⟩ | ⟨e, m'⟩
  · rw [leftBy_of_ok hrun] at hleft
    obtain ⟨hleft', hsame'⟩ := hf a m' hleft
    have hbind : (x >>= f) m = f a m' := bind_ok hrun
    refine ⟨?_, fun hcode => ?_⟩
    · rw [leftBy, hbind]
      exact hleft'
    · rw [Checked.bind_ok ((hsame hcode).trans (Checked.lift_of_ok hrun)), hsame' hcode,
        Checked.lift, Checked.lift, EStateM.adaptExcept, EStateM.adaptExcept, hbind]
  · rw [leftBy_of_error hrun] at hleft
    have hbind : (x >>= f) m = .error e m' := bind_error hrun
    refine ⟨?_, fun hcode => ?_⟩
    · rw [leftBy_of_error hbind]
      exact hleft
    · rw [Checked.bind_error ((hsame hcode).trans (Checked.lift_of_error hrun)),
        Checked.lift_of_error hbind]

end Tracks

section

variable {size : Word} {code : Array Word}

theorem tracks_read (address : Word) :
    Tracks size code (read address) (Checked.lift (read address)) := by
  refine .lift fun m hm => ?_
  rcases read_cases address m with ⟨i, w, -, -, hread⟩ | hread
  · rwa [leftBy_of_ok hread]
  · rwa [leftBy_of_error hread]

theorem tracks_write (address value : Word) :
    Tracks size code (write address value) (Checked.lift (write address value)) := by
  refine .lift fun m hm => ?_
  rcases write_cases address value m with ⟨i, -, -, hwrite⟩ | hwrite
  · rw [leftBy_of_ok hwrite]
    exact hm.of_eq (Array.size_setIfInBounds ..) rfl
  · rwa [leftBy_of_error hwrite]

theorem tracks_codeAt (address : Word) :
    Tracks size code (codeAt code address) (Checked.lift (codeAt code address)) := by
  refine .lift fun m hm => ?_
  rcases codeAt_cases code address m with ⟨i, w, -, -, hcode⟩ | hcode
  · rwa [leftBy_of_ok hcode]
  · rwa [leftBy_of_error hcode]

/-- The stack pointer is not negative, so it can be counted down; and the word that is
written below it is in memory. -/
theorem tracks_push (value : Word) : Tracks size code (push value) (Checked.push value) := by
  intro m hm
  have hnonneg := hm.sp_nonneg
  have hsize := hm.memory
  have hle := hm.sp_le
  have hmove : Checked.move m.sp (-1) m = .ok (m.sp - 1) m :=
    Checked.move_of_toInt (Word.toInt_sub_one hnonneg) m
  unfold Checked.push
  rw [Checked.get_bind, Checked.bind_ok hmove]
  rcases write_cases (m.sp - 1) value m with ⟨i, hi, hlt, hwrite⟩ | hwrite
  · have hsp := Word.toInt_of_index? hi
    rw [leftBy_of_ok (push_of_ok hwrite), Checked.lift_of_ok (push_of_ok hwrite),
      Checked.bind_ok (Checked.lift_of_ok hwrite)]
    refine ⟨⟨?_, ?_, ?_⟩, fun _ => rfl⟩
    · simpa using hsize
    · simp only
      omega
    · simp only
      omega
  · rw [leftBy_of_error (push_of_error hwrite), Checked.lift_of_error (push_of_error hwrite),
      Checked.bind_error (Checked.lift_of_error hwrite)]
    exact ⟨hm, fun _ => rfl⟩

/-- The word at the stack pointer was read, so the memory does not end before it. -/
theorem tracks_pop : Tracks size code pop Checked.pop := by
  intro m hm
  have hsize := hm.memory
  have hlt := Int64.toInt_lt size
  unfold Checked.pop
  rw [Checked.get_bind]
  -- No memory is larger than the greatest word.
  rcases read_cases m.sp m with ⟨i, w, hi, hin, hread⟩ | hread
  · have hsp := Word.toInt_of_index? hi
    have hnext : (m.sp + 1).toInt = m.sp.toInt + 1 := by
      refine Word.toInt_add_one ?_
      rw [Word.limit]
      omega
    rw [leftBy_of_ok (pop_of_ok hread), Checked.lift_of_ok (pop_of_ok hread),
      Checked.bind_ok (Checked.lift_of_ok hread), Checked.get_bind,
      Checked.bind_ok (Checked.move_of_toInt hnext m)]
    refine ⟨⟨hsize, ?_, ?_⟩, fun _ => rfl⟩
    · simp only [hnext]
      omega
    · simp only [hnext]
      omega
  · rw [leftBy_of_error (pop_of_error hread), Checked.lift_of_error (pop_of_error hread),
      Checked.bind_error (Checked.lift_of_error hread)]
    exact ⟨hm, fun _ => rfl⟩

/-- The instruction pointer can be counted up where a code word was found. -/
theorem checked_advanceIp {m : Machine} {i : Nat} {w : Word} (hi : Word.index? m.ip = some i)
    (hw : code[i]? = some w) (hcode : code.size < Word.limit) :
    Checked.advanceIp m = .ok () { m with ip := m.ip + 1 } := by
  have hlt := (Array.getElem?_eq_some_iff.mp hw).1
  have hip := Word.toInt_of_index? hi
  have hnext : (m.ip + 1).toInt = m.ip.toInt + 1 := Word.toInt_add_one (by omega)
  unfold Checked.advanceIp
  rw [Checked.get_bind, Checked.bind_ok (Checked.move_of_toInt hnext m)]
  rfl

theorem tracks_operand : Tracks size code (operand code) (Checked.operand code) := by
  intro m hm
  unfold Checked.operand
  rw [Checked.get_bind]
  rcases codeAt_cases code m.ip m with ⟨i, w, hi, hw, hword⟩ | hword
  · rw [leftBy_of_ok (operand_of_ok hword), Checked.lift_of_ok (operand_of_ok hword),
      Checked.bind_ok (Checked.lift_of_ok hword)]
    refine ⟨hm.of_eq rfl rfl, fun hcode => ?_⟩
    rw [Checked.bind_ok (checked_advanceIp hi hw hcode)]
    rfl
  · rw [leftBy_of_error (operand_of_error hword), Checked.lift_of_error (operand_of_error hword),
      Checked.bind_error (Checked.lift_of_error hword)]
    exact ⟨hm, fun _ => rfl⟩

theorem tracks_runPlain (address : Word) (op : PlainOp) :
    Tracks size code (runPlain address op) (Checked.runPlain address op) := by
  cases op with
  | pop => exact tracks_pop.bind fun _ => .pure _
  | arith op =>
    refine tracks_pop.bind fun b => tracks_pop.bind fun a => ?_
    cases op.apply? a b with
    | some w => exact (tracks_push w).bind fun _ => .pure _
    | none => exact .fail _
  | store =>
    exact tracks_pop.bind fun _ => tracks_pop.bind fun _ => (tracks_write _ _).bind
      fun _ => .pure _
  | load =>
    exact tracks_pop.bind fun _ => (tracks_read _).bind fun _ => (tracks_push _).bind
      fun _ => .pure _
  | call => exact tracks_pop.bind fun _ => .bind (.update fun _ => ⟨rfl, rfl⟩) fun _ => .pure _
  | pushReg r => exact Tracks.state.bind fun _ => (tracks_push _).bind fun _ => .pure _
  | popReg r =>
    refine tracks_pop.bind fun w => .bind (.update fun m => ?_) fun _ => .pure _
    cases r <;> exact ⟨rfl, rfl⟩
  | setFrame => exact .lift fun m hm => hm.of_eq rfl rfl
  | print =>
    refine .lift fun m hm => ?_
    have hkept : leftBy (runPlain address .print) m = m := by
      simp only [leftBy, runPlain]
      rw [get_bind]
      cases m.top? <;> rfl
    rwa [hkept]
  | halt => exact .lift fun m hm => hm

theorem tracks_jumpTo (target : Word) :
    Tracks size code (jumpTo target) (Checked.lift (jumpTo target)) :=
  .lift fun _ hm => hm.of_eq rfl rfl

/-- A jump that compares the two topmost words. -/
theorem tracks_compare (taken : Word → Word → Prop) [∀ a b, Decidable (taken a b)]
    (target : Word) :
    Tracks size code
      (do
        let right ← pop
        let left ← pop
        if taken left right then jumpTo target
        return Signal.quiet)
      (do
        let right ← Checked.pop
        let left ← Checked.pop
        if taken left right then Checked.lift (jumpTo target)
        return Signal.quiet) := by
  refine tracks_pop.bind fun right => tracks_pop.bind fun left => ?_
  by_cases h : taken left right
  · rw [if_pos h, if_pos h]
    exact (tracks_jumpTo target).bind fun _ => .pure _
  · rw [if_neg h, if_neg h]
    exact (Tracks.pure _).bind fun _ => .pure _

theorem tracks_runJump (test : JumpTest) :
    Tracks size code (runJump code test) (Checked.runJump code test) := by
  cases test with
  | always =>
    refine .lift fun m hm => ?_
    have hjump : Tracks size code (runJump code .always) _ :=
      Tracks.state.bind fun m => (tracks_codeAt m.ip).bind fun target =>
        (tracks_jumpTo target).bind fun _ => .pure _
    exact (hjump m hm).1
  | equal => exact tracks_operand.bind fun target => tracks_compare (fun a b => a = b) target
  | lessEqual => exact tracks_operand.bind fun target => tracks_compare (fun a b => a ≤ b) target

theorem tracks_execute (address : Word) (o : Operation) :
    Tracks size code (execute code address o) (Checked.execute code address o) := by
  cases o with
  | push => exact tracks_operand.bind fun w => (tracks_push w).bind fun _ => .pure _
  | plain op => exact tracks_runPlain address op
  | jump test => exact tracks_runJump test

/-- Every instruction keeps the bounds, and the checks of its pointers pass. -/
theorem tracks_step : Tracks size code (step code) (Checked.step code) := by
  intro m hm
  unfold Checked.step
  rw [Checked.get_bind]
  rcases codeAt_cases code m.ip m with ⟨i, w, hi, hw, hword⟩ | hword
  · rw [Checked.bind_ok (Checked.lift_of_ok hword)]
    -- An operation is only passed once it was found to be one.
    cases ho : Operation.ofWord? w with
    | none =>
      have hstep := step_of_invalid hword ho
      rw [leftBy_of_error hstep, Checked.lift_of_error hstep]
      exact ⟨hm, fun _ => rfl⟩
    | some o =>
      have hstep := step_of_operation? ((operation?_of_word hi hw).trans ho)
      have htracks : Tracks size code (execute code m.ip o) _ := tracks_execute m.ip o
      obtain ⟨hleft, hsame⟩ := htracks { m with ip := m.ip + 1 } (hm.of_eq rfl rfl)
      refine ⟨?_, fun hcode => ?_⟩
      · rw [leftBy, hstep]
        exact hleft
      · rw [Checked.lift, EStateM.adaptExcept, hstep]
        simp only
        rw [Checked.bind_ok (checked_advanceIp hi hw hcode)]
        exact hsame hcode
  · have hstep := step_of_missing hword
    rw [leftBy_of_error hstep, Checked.lift_of_error hstep,
      Checked.bind_error (Checked.lift_of_error hword)]
    exact ⟨hm, fun _ => rfl⟩

end

open Progress

/-- The machines of a configuration that any number of runs can leave, one after the other,
each with any code and however it ends. -/
inductive Left (c : Config) : Machine → Prop
  | made : Left c (fresh c.memorySize)
  | ran {m : Machine} {code : Array Word} {p : Progress} {ending : Ending} (before : Left c m)
    (hends : Ends code c.maxSteps { machine := m } p ending) : Left c p.machine

section

variable {size : Word} {code : Array Word} {limit : Option Nat} {p q : Progress}

theorem bounded_fresh (size : Word) : Bounded size (fresh size) := by
  have htop : (if size < 0 then 0 else size : Word).toInt = max size.toInt 0 := by
    split
    · rename_i h
      rw [Int64.lt_iff_toInt_lt, Int64.toInt_zero] at h
      rw [Int64.toInt_zero]
      omega
    · rename_i h
      rw [Int64.lt_iff_toInt_lt, Int64.toInt_zero] at h
      omega
  refine ⟨?_, ?_, ?_⟩
  · simp only [fresh, Array.size_replicate, Int64.toNatClampNeg, htop]
    omega
  · simp only [fresh, htop]
    omega
  · simp only [fresh, htop]
    omega

theorem Bounded.step_ok {m m' : Machine} {signal : Signal} (hm : Bounded size m)
    (h : step code m = .ok signal m') : Bounded size m' := by
  obtain ⟨hleft, -⟩ := tracks_step m hm
  rwa [leftBy_of_ok h] at hleft

theorem Bounded.step_error {m m' : Machine} {e : Fault} (hm : Bounded size m)
    (h : step code m = .error e m') : Bounded size m' := by
  obtain ⟨hleft, -⟩ := tracks_step m hm
  rwa [leftBy_of_error h] at hleft

theorem Bounded.continues (hp : Bounded size p.machine) (h : Continues code limit p q) :
    Bounded size q.machine := by
  cases h with
  | quiet _ hstep => exact hp.step_ok hstep
  | printed _ hstep => exact hp.step_ok hstep

/-- The bounds hold before every instruction of a run. -/
theorem Bounded.reaches (hp : Bounded size p.machine)
    (h : Relation.ReflTransGen (Continues code limit) p q) : Bounded size q.machine := by
  induction h with
  | refl => exact hp
  | tail _ hnext ih => exact ih.continues hnext

/-- The bounds hold however a run ends. -/
theorem Bounded.ends {ending : Ending} (hp : Bounded size p.machine)
    (h : Ends code limit p q ending) : Bounded size q.machine := by
  induction h with
  | exhausted _ => exact hp
  | stopped _ _ _ => exact hp
  | halted _ hstep => exact hp.step_ok hstep
  | failed _ hstep => exact hp.step_error hstep
  | next hnext _ ih => exact ih (hp.continues hnext)

theorem Left.bounded {c : Config} {m : Machine} (h : Left c m) : Bounded c.memorySize m := by
  induction h with
  | made => exact bounded_fresh c.memorySize
  | ran _ hends ih => exact ih.ends hends

end

/-- The machine is safe on any code, after any runs. Before every instruction and at the end
of a run, the memory has its size and the stack pointer is in it or at its end. If every word
of the code has an address, no update of a pointer by one leaves the range of words, whatever
the other registers hold. A run with a limit ends, after that many instructions at most. -/
theorem Left.runs_safe {c : Config} {m : Machine} (h : Left c m) (code : Array Word) :
    (∀ p, Relation.ReflTransGen (Continues code c.maxSteps) { machine := m } p →
      Bounded c.memorySize p.machine ∧
      (code.size < Word.limit → ∀ m', m'.memory = p.machine.memory → m'.sp = p.machine.sp →
        Checked.step code m' = Checked.lift (step code) m')) ∧
    (∀ p ending, Ends code c.maxSteps { machine := m } p ending →
      Bounded c.memorySize p.machine) ∧
    ∀ n, c.maxSteps = some n → ∃ p ending, Ends code c.maxSteps { machine := m } p ending ∧
      p.steps ≤ n ∧ run n code m = (p.machine, p.close ending) := by
  have hm := h.bounded
  refine ⟨fun p hp => ?_, fun p ending hends => hm.ends hends, fun n hn => ?_⟩
  · have hbounded := hm.reaches hp
    refine ⟨hbounded, fun hcode m' hmemory hsp => ?_⟩
    have hm' : Bounded c.memorySize m' := hbounded.of_eq (congrArg Array.size hmemory) hsp
    exact (tracks_step m' hm').2 hcode
  · have hruns : Runs code (some n) m (run n code m).1 (run n code m).2 := runs_some_iff.mpr rfl
    obtain ⟨p, ending, hends, hmachine, hreport⟩ := hruns
    refine ⟨p, ending, ?_, hends.steps_le_limit rfl (Nat.zero_le n), ?_⟩
    · rwa [hn]
    · rw [← hmachine, ← hreport]

/-- A machine whose first run has failed on an empty stack. -/
def popped : Machine := { memory := #[0, 0, 0, 0], ip := 1, sp := 4, fp := 4 }

theorem left_popped : Left { memorySize := 4, maxSteps := some 3 } popped := by
  have hrun : run 3 #[1] (fresh 4) = (popped, .error (.addressOutOfRange 4)) := rfl
  obtain ⟨p, ending, hends, hmachine, -⟩ := runs_some_iff.mpr hrun
  rw [hmachine]
  exact .ran .made hends

theorem popped_safe :
    Bounded 4 popped ∧
    (∀ ip hp, Checked.step printCode { popped with ip, hp } =
      Checked.lift (step printCode) { popped with ip, hp }) ∧
    ∃ p ending, Ends printCode (some 3) { machine := popped } p ending ∧ Bounded 4 p.machine ∧
      p.steps ≤ 3 := by
  obtain ⟨hbefore, hafter, hlimit⟩ := left_popped.runs_safe printCode
  obtain ⟨hbounded, hchecks⟩ := hbefore _ .refl
  obtain ⟨p, ending, hends, hsteps, -⟩ := hlimit 3 rfl
  refine ⟨hbounded, fun ip hp => ?_, p, ending, hends, hafter p ending hends, hsteps⟩
  exact hchecks (by decide) _ rfl rfl

end Classlet.Machine
