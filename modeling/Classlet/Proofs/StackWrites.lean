import Classlet.Proofs.MachineSafety

/-!
Where instructions write. Apart from a store, an instruction writes at most one word: the
one that it pushes, as its last action. It pops two words at most before it pushes, so the
word is at most one place away from the top of the stack. As the stack is above the heap when
an instruction is taken up, the word is not in the heap. All of this holds with any code and
also if the instruction fails halfway.
-/

namespace Classlet

namespace Word

theorem toInt_sub_one_of_lt {a w : Word} (h : a < w) : (w - 1).toInt = w.toInt - 1 := by
  have hle := Int64.le_toInt a
  have hlt := Int64.toInt_lt w
  rw [Int64.lt_iff_toInt_lt] at h
  rw [Int64.toInt_sub, Int64.toInt_one, Int.bmod_eq_of_le] <;> omega

/-- Counting up from a place does not wrap around if it leads to a place. -/
theorem toInt_add_one_of_index? {w : Word} {i j : Nat} (hi : index? w = some i)
    (hj : index? (w + 1) = some j) : (w + 1).toInt = w.toInt + 1 := by
  have hw := toInt_of_index? hi
  have hnext := toInt_of_index? hj
  have hlt := Int64.toInt_lt w
  by_cases hlast : w.toInt + 1 < limit
  · exact toInt_add_one hlast
  · rw [Int64.toInt_add, Int64.toInt_one] at hnext
    rw [limit] at hlast
    have htop : w.toInt = 9223372036854775807 := by omega
    rw [htop] at hnext
    have hwrap : Int.bmod (9223372036854775807 + 1) (2 ^ 64) = -9223372036854775808 := by decide
    omega

end Word

namespace Machine

/-- At most one word of the memory has changed. Its address is not below the end of the heap,
and not more than one place away from the top of the stack. -/
structure WritesNearTop (m m' : Machine) : Prop where
  size : m'.memory.size = m.memory.size
  word : ∃ address : Int, m.hp.toInt ≤ address ∧ m.sp.toInt - 1 ≤ address ∧
    address ≤ m.sp.toInt + 1 ∧ ∀ i : Nat, (i : Int) ≠ address → m'.memory[i]? = m.memory[i]?

section

variable {α β : Type} {x : Action α} {f : α → Action β} {m m₁ : Machine}

theorem leftBy_bind_ok {a : α} (h : x m = .ok a m₁) : leftBy (x >>= f) m = leftBy (f a) m₁ := by
  rw [leftBy, bind_ok h, leftBy]

theorem leftBy_bind_error {e : Fault} (h : x m = .error e m₁) : leftBy (x >>= f) m = m₁ :=
  leftBy_of_error (bind_error h)

end

/-! Actions that leave the memory alone. -/

def KeepsMemory {α : Type} (x : Action α) : Prop := ∀ m, (leftBy x m).memory = m.memory

namespace KeepsMemory

variable {α β : Type}

theorem pure (a : α) : KeepsMemory (Pure.pure a : Action α) := fun _ => rfl

theorem state : KeepsMemory (get : Action Machine) := fun _ => rfl

theorem update {f : Machine → Machine} (h : ∀ m, (f m).memory = m.memory) :
    KeepsMemory (modify f : Action PUnit) := h

theorem bind {x : Action α} {f : α → Action β} (hx : KeepsMemory x)
    (hf : ∀ a, KeepsMemory (f a)) : KeepsMemory (x >>= f) := by
  intro m
  have hkept := hx m
  rcases hrun : x m with ⟨a, m₁⟩ | ⟨e, m₁⟩
  · rw [leftBy_of_ok hrun] at hkept
    rw [leftBy_bind_ok hrun, hf a m₁, hkept]
  · rw [leftBy_of_error hrun] at hkept
    rw [leftBy_bind_error hrun, hkept]

end KeepsMemory

theorem keepsMemory_codeAt (code : Array Word) (address : Word) :
    KeepsMemory (codeAt code address) := by
  intro m
  rcases codeAt_cases code address m with ⟨i, w, -, -, hcode⟩ | hcode
  · rw [leftBy_of_ok hcode]
  · rw [leftBy_of_error hcode]

theorem keepsMemory_pop : KeepsMemory pop := by
  intro m
  rcases pop_cases m with ⟨w, -, hpop⟩ | ⟨-, hpop⟩
  · rw [leftBy_of_ok hpop]
  · rw [leftBy_of_error hpop]

theorem keepsMemory_jumpIf (P : Prop) [Decidable P] (target : Word) :
    KeepsMemory (do
      if P then jumpTo target
      return Signal.quiet) := by
  split
  · exact .bind (.update fun _ => rfl) fun _ => .pure _
  · exact .pure _

theorem keepsMemory_operand (code : Array Word) : KeepsMemory (operand code) :=
  KeepsMemory.state.bind fun _ => (keepsMemory_codeAt _ _).bind fun _ =>
    .bind (.update fun _ => rfl) fun _ => .pure _

theorem keepsMemory_runJump (code : Array Word) (test : JumpTest) :
    KeepsMemory (runJump code test) := by
  cases test with
  | always =>
    exact KeepsMemory.state.bind fun _ => (keepsMemory_codeAt _ _).bind fun _ =>
      .bind (.update fun _ => rfl) fun _ => .pure _
  | equal =>
    exact (keepsMemory_operand code).bind fun _ => keepsMemory_pop.bind fun _ =>
      keepsMemory_pop.bind fun _ => keepsMemory_jumpIf _ _
  | lessEqual =>
    exact (keepsMemory_operand code).bind fun _ => keepsMemory_pop.bind fun _ =>
      keepsMemory_pop.bind fun _ => keepsMemory_jumpIf _ _

/-! Instructions. -/

section

variable {m : Machine} (hroom : m.hp < m.sp)

include hroom

theorem WritesNearTop.of_eq {m' : Machine} (h : m'.memory = m.memory) : WritesNearTop m m' := by
  rw [Int64.lt_iff_toInt_lt] at hroom
  refine ⟨by rw [h], m.sp.toInt, by omega, by omega, by omega, fun i _ => by rw [h]⟩

/-- The word that an instruction pushes in the end. -/
theorem writesNearTop_push {m₁ : Machine} {target : Word} (value : Word)
    (hmemory : m₁.memory = m.memory) (htarget : m₁.sp - 1 = target)
    (hlow : m.sp.toInt - 1 ≤ target.toInt) (hhigh : target.toInt ≤ m.sp.toInt + 1) :
    WritesNearTop m (leftBy (push value >>= fun _ => pure Signal.quiet) m₁) := by
  rw [Int64.lt_iff_toInt_lt] at hroom
  rcases push_cases value m₁ with ⟨i, hi, hpush⟩ | hpush
  · rw [htarget] at hi
    have haddress := Word.toInt_of_index? hi
    rw [leftBy_bind_ok hpush]
    refine ⟨?_, target.toInt, by omega, hlow, hhigh, fun j hj => ?_⟩
    · show (m₁.memory.setIfInBounds i value).size = _
      rw [Array.size_setIfInBounds, hmemory]
    · show (m₁.memory.setIfInBounds i value)[j]? = _
      rw [Array.getElem?_setIfInBounds_ne (by omega), hmemory]
  · rw [leftBy_bind_error hpush]
    exact .of_eq (Int64.lt_iff_toInt_lt.mpr hroom) hmemory

theorem writesNearTop_arith (op : Arith) (address : Word) :
    WritesNearTop m (leftBy (runPlain address (.arith op)) m) := by
  rcases pop_cases m with ⟨b, hb, hpop⟩ | ⟨-, hpop⟩
  · rcases pop_cases { m with sp := m.sp + 1 } with ⟨a, ha, hpop'⟩ | ⟨-, hpop'⟩
    · simp only [runPlain]
      rw [leftBy_bind_ok hpop, leftBy_bind_ok hpop']
      cases hvalue : op.apply? a b with
      | none => exact .of_eq hroom rfl
      | some w =>
        obtain ⟨i, hi, -⟩ := Option.bind_eq_some_iff.mp hb
        obtain ⟨j, hj, -⟩ := Option.bind_eq_some_iff.mp ha
        have hnext : (m.sp + 1).toInt = m.sp.toInt + 1 := Word.toInt_add_one_of_index? hi hj
        have hback : m.sp + 1 + 1 - 1 = m.sp + 1 := Int64.add_sub_cancel _ _
        refine writesNearTop_push hroom w ?_ hback ?_ ?_
        · rfl
        · omega
        · omega
    · simp only [runPlain]
      rw [leftBy_bind_ok hpop, leftBy_bind_error hpop']
      exact .of_eq hroom rfl
  · simp only [runPlain]
    rw [leftBy_bind_error hpop]
    exact .of_eq hroom rfl

theorem writesNearTop_load (address : Word) :
    WritesNearTop m (leftBy (runPlain address .load) m) := by
  simp only [runPlain]
  rcases pop_cases m with ⟨source, -, hpop⟩ | ⟨-, hpop⟩
  · rw [leftBy_bind_ok hpop]
    rcases read_cases source { m with sp := m.sp + 1 } with ⟨i, w, -, -, hread⟩ | hread
    · have hback : m.sp + 1 - 1 = m.sp := Int64.add_sub_cancel _ _
      rw [leftBy_bind_ok hread]
      refine writesNearTop_push hroom w ?_ hback ?_ ?_
      · rfl
      · omega
      · omega
    · rw [leftBy_bind_error hread]
      exact .of_eq hroom rfl
  · rw [leftBy_bind_error hpop]
    exact .of_eq hroom rfl

/-- A word pushed on the stack as it is before the instruction. -/
theorem writesNearTop_pushed {m₁ : Machine} (value : Word) (hmemory : m₁.memory = m.memory)
    (hsp : m₁.sp = m.sp) :
    WritesNearTop m (leftBy (push value >>= fun _ => pure Signal.quiet) m₁) := by
  have hbelow := Word.toInt_sub_one_of_lt hroom
  refine writesNearTop_push hroom value hmemory (by rw [hsp]) ?_ ?_
  · omega
  · omega

theorem writesNearTop_plain {op : PlainOp} (hop : op ≠ .store) (address : Word) :
    WritesNearTop m (leftBy (runPlain address op) m) := by
  cases op with
  | store => exact absurd rfl hop
  | arith op => exact writesNearTop_arith hroom op address
  | load => exact writesNearTop_load hroom address
  | pushReg r => exact writesNearTop_pushed hroom (m.register r) rfl rfl
  | pop => exact .of_eq hroom (keepsMemory_pop.bind (fun _ => .pure _) m)
  | call =>
    have hkeeps : KeepsMemory (runPlain address .call) :=
      keepsMemory_pop.bind fun _ => .bind (.update fun _ => rfl) fun _ => .pure _
    exact .of_eq hroom (hkeeps m)
  | popReg r =>
    have hset : ∀ w (m : Machine), (m.setRegister r w).memory = m.memory := by
      intro w m
      cases r <;> rfl
    exact .of_eq hroom (keepsMemory_pop.bind (fun w => .bind (.update (hset w))
      fun _ => .pure _) m)
  | setFrame => exact .of_eq hroom rfl
  | print =>
    refine .of_eq hroom (KeepsMemory.state.bind (fun m₁ => ?_) m)
    cases m₁.top? with
    | none => exact .pure _
    | some w => exact .pure _
  | halt => exact .of_eq hroom rfl

theorem writesNearTop_execute {o : Operation} (ho : o ≠ .plain .store) (code : Array Word)
    (address : Word) :
    WritesNearTop m (leftBy (execute code address o) m) := by
  cases o with
  | plain op => exact writesNearTop_plain hroom (fun h => ho (by rw [h])) address
  | jump test => exact .of_eq hroom (keepsMemory_runJump code test m)
  | push =>
    simp only [execute]
    rcases codeAt_cases code m.ip m with ⟨i, w, -, -, hcode⟩ | hcode
    · rw [leftBy_bind_ok (operand_of_ok hcode)]
      exact writesNearTop_pushed hroom w rfl rfl
    · rw [leftBy_bind_error (operand_of_error hcode)]
      exact .of_eq hroom rfl

theorem writesNearTop_step {code : Array Word} (hop : operation? code m.ip ≠ some (.plain .store)) :
    WritesNearTop m (leftBy (step code) m) := by
  cases ho : operation? code m.ip with
  | some o =>
    rw [ho] at hop
    have hmoved := writesNearTop_execute (m := { m with ip := m.ip + 1 }) hroom
      (fun h => hop (congrArg some h)) code m.ip
    have hleft : leftBy (step code) m =
        leftBy (execute code m.ip o) { m with ip := m.ip + 1 } := by
      rw [leftBy, step_of_operation? ho, leftBy]
    rw [hleft]
    exact ⟨hmoved.size, hmoved.word⟩
  | none =>
    obtain ⟨e, hstep, -⟩ := step_of_no_operation ho
    rw [leftBy_of_error hstep]
    exact .of_eq hroom rfl

end

/-- An instruction other than a store, taken up with the stack above the heap, changes at most
one word of the memory, whether it is carried out or fails. The word is next to the top of the
stack or is the top, and it is not in the heap. So the heap stays as it is. -/
theorem only_store_writes_heap (code : Array Word) (m : Machine) (hroom : ¬ m.sp ≤ m.hp)
    (hop : operation? code m.ip ≠ some (.plain .store)) :
    (leftBy (step code) m).memory.size = m.memory.size ∧
      (∃ address : Int, m.hp.toInt ≤ address ∧ m.sp.toInt - 1 ≤ address ∧
        address ≤ m.sp.toInt + 1 ∧
        ∀ i : Nat, (i : Int) ≠ address → (leftBy (step code) m).memory[i]? = m.memory[i]?) ∧
      ∀ i : Nat, (i : Int) < m.hp.toInt →
        (leftBy (step code) m).memory[i]? = m.memory[i]? := by
  obtain ⟨hsize, address, hheap, hlow, hhigh, hothers⟩ :=
    writesNearTop_step (Int64.not_le.mp hroom) hop
  refine ⟨hsize, ⟨address, hheap, hlow, hhigh, hothers⟩, fun i hi => ?_⟩
  exact hothers i (by omega)

/-- A machine with one word in its heap, and two on its stack. -/
def oneHeapWord : Machine :=
  { memory := #[1, 2, 0, 4], ip := 0, sp := 2, fp := 4, hp := 1, ra := 0, tm := 0 }

/-- A product takes the place of the word behind the top of the stack, and the heap stays as it
is. A store in the same place changes the heap. -/
theorem oneHeapWord_product :
    (leftBy (step #[4]) oneHeapWord).memory = #[1, 2, 0, 0] ∧
      (∀ i : Nat, (i : Int) < 1 →
        (leftBy (step #[4]) oneHeapWord).memory[i]? = oneHeapWord.memory[i]?) ∧
      (leftBy (step #[6]) oneHeapWord).memory = #[4, 2, 0, 4] := by
  have hroom : ¬ oneHeapWord.sp ≤ oneHeapWord.hp := by decide
  have hop : operation? #[4] oneHeapWord.ip ≠ some (.plain .store) := by decide
  obtain ⟨-, -, hheap⟩ := only_store_writes_heap #[4] oneHeapWord hroom hop
  exact ⟨by decide +kernel, hheap, by decide +kernel⟩

end Machine

end Classlet
