import Classlet.Proofs.CallStack

/-!
What the actions of the machine can do, on any machine and with any code. Reading, writing
and fetching either find their address or fail and leave the machine as it is. The others
are made of these, and fail where these do.
-/

namespace Classlet.Machine

theorem read_cases (address : Word) (m : Machine) :
    (∃ i w, Word.index? address = some i ∧ i < m.memory.size ∧ read address m = .ok w m) ∨
      read address m = .error (.addressOutOfRange address) m := by
  unfold read
  rw [get_bind]
  cases hword : m.word? address with
  | none => exact Or.inr rfl
  | some w =>
    obtain ⟨i, hi, hw⟩ := Option.bind_eq_some_iff.mp hword
    exact Or.inl ⟨i, w, hi, (Array.getElem?_eq_some_iff.mp hw).1, rfl⟩

theorem write_cases (address value : Word) (m : Machine) :
    (∃ i, Word.index? address = some i ∧ i < m.memory.size ∧
      write address value m = .ok () { m with memory := m.memory.setIfInBounds i value }) ∨
      write address value m = .error (.addressOutOfRange address) m := by
  unfold write
  rw [get_bind]
  cases hi : Word.index? address with
  | none => exact Or.inr rfl
  | some i =>
    by_cases hlt : i < m.memory.size
    · refine Or.inl ⟨i, rfl, hlt, ?_⟩
      simp only [hlt, if_true]
      rfl
    · refine Or.inr ?_
      simp only [hlt, if_false]
      rfl

theorem codeAt_cases (code : Array Word) (address : Word) (m : Machine) :
    (∃ i w, Word.index? address = some i ∧ code[i]? = some w ∧
      codeAt code address m = .ok w m) ∨
      codeAt code address m = .error (.addressOutOfRange address) m := by
  unfold codeAt
  cases hword : (Word.index? address).bind fun i => code[i]? with
  | none => exact Or.inr rfl
  | some w =>
    obtain ⟨i, hi, hw⟩ := Option.bind_eq_some_iff.mp hword
    exact Or.inl ⟨i, w, hi, hw, rfl⟩

theorem push_of_ok {value : Word} {m m' : Machine} (h : write (m.sp - 1) value m = .ok () m') :
    push value m = .ok () { m' with sp := m.sp - 1 } := by
  unfold push
  rw [get_bind, bind_ok h]
  rfl

theorem push_of_error {value : Word} {m m' : Machine} {e : Fault}
    (h : write (m.sp - 1) value m = .error e m') : push value m = .error e m' := by
  unfold push
  rw [get_bind, bind_error h]

theorem pop_of_ok {w : Word} {m m' : Machine} (h : read m.sp m = .ok w m') :
    pop m = .ok w { m' with sp := m'.sp + 1 } := by
  unfold pop
  rw [get_bind, bind_ok h]
  rfl

theorem pop_of_error {m m' : Machine} {e : Fault} (h : read m.sp m = .error e m') :
    pop m = .error e m' := by
  unfold pop
  rw [get_bind, bind_error h]

theorem operand_of_ok {code : Array Word} {w : Word} {m m' : Machine}
    (h : codeAt code m.ip m = .ok w m') : operand code m = .ok w { m' with ip := m'.ip + 1 } := by
  unfold operand
  rw [get_bind, bind_ok h]
  rfl

theorem operand_of_error {code : Array Word} {m m' : Machine} {e : Fault}
    (h : codeAt code m.ip m = .error e m') : operand code m = .error e m' := by
  unfold operand
  rw [get_bind, bind_error h]

theorem push_of_index? {value : Word} {m : Machine} {i : Nat}
    (hi : Word.index? (m.sp - 1) = some i) (hlt : i < m.memory.size) :
    push value m = .ok () { m with
      memory := m.memory.setIfInBounds i value, sp := m.sp - 1 } := by
  have hwrite : write (m.sp - 1) value m =
      .ok () { m with memory := m.memory.setIfInBounds i value } := by
    unfold write
    rw [get_bind, hi]
    simp only [hlt, if_true]
    rfl
  exact push_of_ok hwrite

/-- A push writes the word below the top of the stack, or leaves the machine as it is. -/
theorem push_cases (value : Word) (m : Machine) :
    (∃ i, Word.index? (m.sp - 1) = some i ∧ push value m = .ok () { m with
      memory := m.memory.setIfInBounds i value, sp := m.sp - 1 }) ∨
      push value m = .error (.addressOutOfRange (m.sp - 1)) m := by
  rcases write_cases (m.sp - 1) value m with ⟨i, hi, hlt, -⟩ | hwrite
  · exact Or.inl ⟨i, hi, push_of_index? hi hlt⟩
  · exact Or.inr (push_of_error hwrite)

theorem pop_of_top? {w : Word} {m : Machine} (h : m.top? = some w) :
    pop m = .ok w { m with sp := m.sp + 1 } :=
  pop_of_ok (read_of_word? h)

/-- A pop takes the top of the stack, or leaves the machine as it is if there is none. -/
theorem pop_cases (m : Machine) :
    (∃ w, m.top? = some w ∧ pop m = .ok w { m with sp := m.sp + 1 }) ∨
      m.top? = none ∧ pop m = .error (.addressOutOfRange m.sp) m := by
  cases hword : m.top? with
  | some w => exact Or.inl ⟨w, rfl, pop_of_top? hword⟩
  | none =>
    have hread : read m.sp m = .error (.addressOutOfRange m.sp) m := by
      unfold read
      rw [get_bind, show m.word? m.sp = none from hword]
      rfl
    exact Or.inr ⟨rfl, pop_of_error hread⟩

section

variable {code : Array Word} {m : Machine} {w : Word}

theorem operation?_of_word {address : Word} {i : Nat} (hi : Word.index? address = some i)
    (hw : code[i]? = some w) : operation? code address = Operation.ofWord? w := by
  rw [operation?, hi, Option.bind_some, hw, Option.bind_some]

theorem step_of_missing {e : Fault} (h : codeAt code m.ip m = .error e m) :
    step code m = .error e m := by
  unfold step
  rw [get_bind, bind_error h]

theorem step_of_invalid (h : codeAt code m.ip m = .ok w m)
    (ho : Operation.ofWord? w = none) : step code m = .error (.invalidOpcode w m.ip) m := by
  unfold step
  rw [get_bind, bind_ok h, ho]
  rfl

/-- Without an operation at the instruction pointer the machine stays as it is. -/
theorem step_of_no_operation (h : operation? code m.ip = none) :
    ∃ e, step code m = .error e m ∧
      (e = .addressOutOfRange m.ip ∨ ∃ w, e = .invalidOpcode w m.ip) := by
  rcases codeAt_cases code m.ip m with ⟨i, w, hi, hw, hcode⟩ | hcode
  · rw [operation?_of_word hi hw] at h
    exact ⟨_, step_of_invalid hcode h, Or.inr ⟨w, rfl⟩⟩
  · exact ⟨_, step_of_missing hcode, Or.inl rfl⟩

end

end Classlet.Machine
