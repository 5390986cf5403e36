import Classlet.Proofs.Actions
import Classlet.Proofs.Limits
import Mathlib.Logic.Relation

/-!
Arithmetic of the machine. An arithmetic instruction pops two words and pushes the word
that their sum, difference, product or quotient towards zero is reduced to. Only a division
may find no word to push. It does not if the divisor is zero, and neither if the least word is
divided by minus one, although the quotient could be reduced like any other number. No
other instruction fails as such a division does.
-/

namespace Classlet

namespace Arith

/-- The operation on integers. -/
def exact : Arith → Int → Int → Int
  | .add, a, b => a + b
  | .sub, a, b => a - b
  | .mul, a, b => a * b
  | .div, a, b => a.tdiv b

/-- The operation has no value: it is a division by zero, or one of the least word by minus
one. -/
def Lacks (op : Arith) (a b : Word) : Prop := op = .div ∧ (b = 0 ∨ a = Int64.minValue ∧ b = -1)

theorem apply?_eq_none {op : Arith} {a b : Word} : op.apply? a b = none ↔ op.Lacks a b := by
  cases op with
  | add | sub | mul => simp [Lacks, Arith.apply?]
  | div =>
    rw [Lacks, Arith.apply?, Word.quotient?]
    split <;> simp_all

/-- A value is the exact one, reduced to a word. -/
theorem eq_of_apply? {op : Arith} {a b w : Word} (h : op.apply? a b = some w) :
    w = Int64.ofInt (op.exact a.toInt b.toInt) := by
  cases op with
  | add =>
    rw [exact, Int64.ofInt_add, Int64.ofInt_toInt, Int64.ofInt_toInt]
    exact (Option.some.inj h).symm
  | sub =>
    rw [exact, Int64.ofInt_sub, Int64.ofInt_toInt, Int64.ofInt_toInt]
    exact (Option.some.inj h).symm
  | mul =>
    rw [exact, Int64.ofInt_mul, Int64.ofInt_toInt, Int64.ofInt_toInt]
    exact (Option.some.inj h).symm
  | div =>
    rw [exact, Int64.ofInt_tdiv (Int64.minValue_le_toInt a) (Int64.toInt_le a)
      (Int64.minValue_le_toInt b) (Int64.toInt_le b), Int64.ofInt_toInt, Int64.ofInt_toInt]
    have hquotient : Word.quotient? a b = some w := h
    unfold Word.quotient? at hquotient
    split at hquotient
    · cases hquotient
    · exact (Option.some.inj hquotient).symm

end Arith

namespace Machine

/-- The next instruction is the operation on two words, of which the second is on top of the
stack and the first behind it. -/
structure Combines (code : Array Word) (op : Arith) (a b : Word) (m : Machine) : Prop where
  operation : operation? code m.ip = some (.plain (.arith op))
  second : m.top? = some b
  first : m.word? (m.sp + 1) = some a

section

variable {code : Array Word} {m : Machine} {op : Arith} {a b : Word}

/-- The two pops of an arithmetic instruction. -/
theorem Combines.pops (h : m.Combines code op a b) :
    pop { m with ip := m.ip + 1 } = .ok b { m with ip := m.ip + 1, sp := m.sp + 1 } ∧
      pop { m with ip := m.ip + 1, sp := m.sp + 1 } =
        .ok a { m with ip := m.ip + 1, sp := m.sp + 1 + 1 } :=
  ⟨pop_of_top? h.second, pop_of_top? h.first⟩

theorem Combines.step_of_lacks (h : m.Combines code op a b) (hl : op.Lacks a b) :
    step code m = .error (.divisionByZero m.ip) { m with ip := m.ip + 1, sp := m.sp + 1 + 1 } := by
  obtain ⟨hb, ha⟩ := h.pops
  rw [step_of_operation? h.operation]
  simp only [execute, runPlain]
  rw [bind_ok hb, bind_ok ha, Arith.apply?_eq_none.mpr hl]
  rfl

/-- The value takes the place of the first word. -/
theorem Combines.step_of_value (h : m.Combines code op a b) {w : Word}
    (hw : op.apply? a b = some w) : ∃ m', step code m = .ok .quiet m' ∧ m'.ip = m.ip + 1 ∧
      m'.sp = m.sp + 1 ∧ m'.top? = some w := by
  obtain ⟨hb, ha⟩ := h.pops
  obtain ⟨i, hi, hfirst⟩ := Option.bind_eq_some_iff.mp h.first
  have hlt := (Array.getElem?_eq_some_iff.mp hfirst).1
  have hpush : push w { m with ip := m.ip + 1, sp := m.sp + 1 + 1 } = .ok () { m with
      memory := m.memory.setIfInBounds i w, ip := m.ip + 1, sp := m.sp + 1 } := by
    have hback : m.sp + 1 + 1 - 1 = m.sp + 1 := Int64.add_sub_cancel _ _
    have hpush := @push_of_index? w { m with ip := m.ip + 1, sp := m.sp + 1 + 1 } i
      (by rw [hback, hi]) hlt
    rwa [hback] at hpush
  refine ⟨{ m with memory := m.memory.setIfInBounds i w, ip := m.ip + 1, sp := m.sp + 1 }, ?_, rfl,
    rfl, ?_⟩
  · rw [step_of_operation? h.operation]
    simp only [execute, runPlain]
    rw [bind_ok hb, bind_ok ha, hw]
    simp only
    rw [bind_ok hpush]
    rfl
  · rw [top?, word?, hi, Option.bind_some]
    exact Array.getElem?_setIfInBounds_self_of_lt hlt

end

/-! Where an instruction may fail without a division. -/

/-- The action fails only where an address is out of range. -/
def BlamesAddress {α : Type} (x : Action α) : Prop :=
  ∀ m e m', x m = .error e m' → ∃ address, e = .addressOutOfRange address

namespace BlamesAddress

variable {α β : Type}

theorem pure (a : α) : BlamesAddress (Pure.pure a : Action α) := by
  intro m e m' h
  cases h

theorem state : BlamesAddress (get : Action Machine) := by
  intro m e m' h
  cases h

theorem update (f : Machine → Machine) : BlamesAddress (modify f : Action PUnit) := by
  intro m e m' h
  cases h

theorem bind {x : Action α} {f : α → Action β} (hx : BlamesAddress x)
    (hf : ∀ a, BlamesAddress (f a)) : BlamesAddress (x >>= f) := by
  intro m e m' h
  rcases hrun : x m with ⟨a, m₁⟩ | ⟨e₁, m₁⟩
  · rw [bind_ok hrun] at h
    exact hf a m₁ e m' h
  · rw [bind_error hrun] at h
    cases h
    exact hx m _ _ hrun

end BlamesAddress

theorem blamesAddress_read (address : Word) : BlamesAddress (read address) := by
  intro m e m' h
  rcases read_cases address m with ⟨i, w, -, -, hread⟩ | hread
  · cases hread.symm.trans h
  · cases hread.symm.trans h
    exact ⟨address, rfl⟩

theorem blamesAddress_write (address value : Word) : BlamesAddress (write address value) := by
  intro m e m' h
  rcases write_cases address value m with ⟨i, -, -, hwrite⟩ | hwrite
  · cases hwrite.symm.trans h
  · cases hwrite.symm.trans h
    exact ⟨address, rfl⟩

theorem blamesAddress_codeAt (code : Array Word) (address : Word) :
    BlamesAddress (codeAt code address) := by
  intro m e m' h
  rcases codeAt_cases code address m with ⟨i, w, -, -, hcode⟩ | hcode
  · cases hcode.symm.trans h
  · cases hcode.symm.trans h
    exact ⟨address, rfl⟩

theorem blamesAddress_push (value : Word) : BlamesAddress (push value) :=
  BlamesAddress.state.bind fun _ => (blamesAddress_write _ _).bind fun _ => .update _

theorem blamesAddress_pop : BlamesAddress pop :=
  BlamesAddress.state.bind fun _ => (blamesAddress_read _).bind fun _ =>
    .bind (.update _) fun _ => .pure _

theorem blamesAddress_operand (code : Array Word) : BlamesAddress (operand code) :=
  BlamesAddress.state.bind fun _ => (blamesAddress_codeAt _ _).bind fun _ =>
    .bind (.update _) fun _ => .pure _

theorem blamesAddress_runPlain (address : Word) {op : PlainOp} (h : op ≠ .arith .div) :
    BlamesAddress (runPlain address op) := by
  cases op with
  | pop => exact blamesAddress_pop.bind fun _ => .pure _
  | arith op =>
    refine blamesAddress_pop.bind fun b => blamesAddress_pop.bind fun a => ?_
    cases hw : op.apply? a b with
    | some w => exact (blamesAddress_push w).bind fun _ => .pure _
    | none =>
      obtain ⟨rfl, -⟩ := Arith.apply?_eq_none.mp hw
      exact absurd rfl h
  | store =>
    exact blamesAddress_pop.bind fun _ => blamesAddress_pop.bind fun _ =>
      (blamesAddress_write _ _).bind fun _ => .pure _
  | load =>
    exact blamesAddress_pop.bind fun _ => (blamesAddress_read _).bind fun _ =>
      (blamesAddress_push _).bind fun _ => .pure _
  | call => exact blamesAddress_pop.bind fun _ => .bind (.update _) fun _ => .pure _
  | pushReg r =>
    exact BlamesAddress.state.bind fun _ => (blamesAddress_push _).bind fun _ => .pure _
  | popReg r => exact blamesAddress_pop.bind fun _ => .bind (.update _) fun _ => .pure _
  | setFrame => exact .bind (.update _) fun _ => .pure _
  | print =>
    refine BlamesAddress.state.bind fun m => ?_
    cases m.top? with
    | some w => exact .pure _
    | none => exact .pure _
  | halt => exact BlamesAddress.state.bind fun _ => .pure _

theorem blamesAddress_jumpIf (P : Prop) [Decidable P] (target : Word) :
    BlamesAddress (do
      if P then jumpTo target
      return Signal.quiet) := by
  split
  · exact .bind (.update _) fun _ => .pure _
  · exact .pure _

theorem blamesAddress_runJump (code : Array Word) (test : JumpTest) :
    BlamesAddress (runJump code test) := by
  cases test with
  | always =>
    exact BlamesAddress.state.bind fun _ => (blamesAddress_codeAt _ _).bind fun _ =>
      .bind (.update _) fun _ => .pure _
  | equal =>
    exact (blamesAddress_operand code).bind fun _ => blamesAddress_pop.bind fun _ =>
      blamesAddress_pop.bind fun _ => blamesAddress_jumpIf _ _
  | lessEqual =>
    exact (blamesAddress_operand code).bind fun _ => blamesAddress_pop.bind fun _ =>
      blamesAddress_pop.bind fun _ => blamesAddress_jumpIf _ _

/-- A division that fails as one has found two words, but no quotient. -/
theorem divides_of_error {code : Array Word} {m m' : Machine} {address : Word}
    (hop : operation? code m.ip = some (.plain (.arith .div)))
    (h : execute code m.ip (.plain (.arith .div)) { m with ip := m.ip + 1 } =
      .error (.divisionByZero address) m') :
    address = m.ip ∧ ∃ a b, m.Combines code .div a b ∧ Arith.div.Lacks a b := by
  simp only [execute, runPlain] at h
  rcases pop_cases { m with ip := m.ip + 1 } with ⟨b, hb, hpop⟩ | ⟨-, hpop⟩
  · rw [bind_ok hpop] at h
    rcases pop_cases { m with ip := m.ip + 1, sp := m.sp + 1 } with ⟨a, ha, hpop'⟩ | ⟨-, hpop'⟩
    · rw [bind_ok hpop'] at h
      cases hw : Arith.div.apply? a b with
      | none =>
        rw [hw] at h
        cases h
        exact ⟨rfl, a, b, ⟨hop, hb, ha⟩, Arith.apply?_eq_none.mp hw⟩
      | some w =>
        rw [hw] at h
        have hpush : BlamesAddress (push w >>= fun _ => pure Signal.quiet) :=
          (blamesAddress_push w).bind fun _ => .pure _
        obtain ⟨_, heq⟩ := hpush _ _ _ h
        cases heq
    · rw [bind_error hpop'] at h
      cases h
  · rw [bind_error hpop] at h
    cases h

/-- Only a division whose quotient is missing fails as one. -/
theorem step_divisionByZero {code : Array Word} {m m' : Machine} {address : Word}
    (h : step code m = .error (.divisionByZero address) m') :
    address = m.ip ∧ ∃ a b, m.Combines code .div a b ∧ Arith.div.Lacks a b := by
  have hother : ∀ {x : Action Signal} {m₁ : Machine}, BlamesAddress x →
      x m₁ ≠ .error (.divisionByZero address) m' := by
    intro x m₁ hx hrun
    obtain ⟨_, heq⟩ := hx _ _ _ hrun
    cases heq
  cases hop : operation? code m.ip with
  | none =>
    obtain ⟨e, hstep, rfl | ⟨w, rfl⟩⟩ := step_of_no_operation hop <;>
    · rw [hstep] at h
      cases h
  | some o =>
    rw [step_of_operation? hop] at h
    cases o with
    | push =>
      have hpush : BlamesAddress (execute code m.ip .push) :=
        (blamesAddress_operand code).bind fun w => (blamesAddress_push w).bind fun _ => .pure _
      exact absurd h (hother hpush)
    | jump test => exact absurd h (hother (blamesAddress_runJump code test))
    | plain op =>
      by_cases hdiv : op = .arith .div
      · subst hdiv
        exact divides_of_error hop h
      · exact absurd h (hother (blamesAddress_runPlain m.ip hdiv))

open Progress

section

variable {code : Array Word} {limit : Option Nat}

/-- A run that fails with a fault of an instruction has come to that instruction. -/
theorem Progress.Ends.failed_at {p q : Progress} {fault : Fault}
    (h : Ends code limit p q (.failed fault)) (hsp : ∀ sp hp, fault ≠ .outOfMemory sp hp)
    (hlimit : ∀ n, fault ≠ .stepLimit n) : ∃ r m',
      Relation.ReflTransGen (Continues code limit) p r ∧ r.GoesOn limit ∧
        step code r.machine = .error fault m' := by
  generalize hending : Ending.failed fault = ending at h
  induction h with
  | exhausted _ =>
    cases hending
    exact absurd rfl (hsp _ _)
  | stopped _ _ _ =>
    cases hending
    exact absurd rfl (hlimit _)
  | halted _ _ => cases hending
  | failed on hstep =>
    cases hending
    exact ⟨_, _, .refl, on, hstep⟩
  | next hnext _ ih =>
    obtain ⟨r, m', hreach, on, hstep⟩ := ih hending
    exact ⟨r, m', .head hnext hreach, on, hstep⟩

theorem Progress.ends_of_reaches {p r q : Progress} {ending : Ending}
    (h : Relation.ReflTransGen (Continues code limit) p r) (hends : Ends code limit r q ending) :
    Ends code limit p q ending := by
  induction h using Relation.ReflTransGen.head_induction_on with
  | refl => exact hends
  | head hnext _ ih => exact .next hnext ih

end

/-- A run fails with a division by zero exactly if it comes to a division by zero or to a
division of the least word by minus one. Every other arithmetic instruction that finds two
words pushes the exact value, reduced to a word. -/
theorem division_fails_iff (code : Array Word) :
    (∀ limit m address, (∃ m', Runs code limit m m' (.error (.divisionByZero address))) ↔
      ∃ p a b, Relation.ReflTransGen (Continues code limit) { machine := m } p ∧
        p.GoesOn limit ∧ p.machine.ip = address ∧ p.machine.Combines code .div a b ∧
        (b = 0 ∨ a = Int64.minValue ∧ b = -1)) ∧
    ∀ m op a b, m.Combines code op a b →
      ¬ (op = .div ∧ (b = 0 ∨ a = Int64.minValue ∧ b = -1)) →
      ∃ m', step code m = .ok .quiet m' ∧ m'.ip = m.ip + 1 ∧ m'.sp = m.sp + 1 ∧
        m'.top? = some (Int64.ofInt (op.exact a.toInt b.toInt)) := by
  refine ⟨fun limit m address => ⟨?_, ?_⟩, fun m op a b h hhas => ?_⟩
  · rintro ⟨m', p, ending, hends, -, hreport⟩
    cases ending with
    | halted result => cases hreport
    | failed fault =>
      cases hreport
      obtain ⟨r, m₁, hreach, on, hstep⟩ := hends.failed_at
        (fun _ _ heq => by cases heq) fun _ heq => by cases heq
      obtain ⟨rfl, a, b, hdivides, -, hlacks⟩ := step_divisionByZero hstep
      exact ⟨r, a, b, hreach, on, rfl, hdivides, hlacks⟩
  · rintro ⟨p, a, b, hreach, on, rfl, hdivides, hlacks⟩
    exact ⟨_, _, _, ends_of_reaches hreach (.failed on (hdivides.step_of_lacks ⟨rfl, hlacks⟩)), rfl,
      rfl⟩
  · cases hw : op.apply? a b with
    | none => exact absurd (Arith.apply?_eq_none.mp hw) hhas
    | some w =>
      rw [← Arith.eq_of_apply? hw]
      exact h.step_of_value hw

/-- A machine that is about to divide, in a code of two pushes and a division. -/
def dividing (a b : Word) : Machine :=
  { memory := #[0, 0, b, a], ip := 4, sp := 2, fp := 4 }

def quotientCode (a b : Word) : Array Word := #[0, a, 0, b, 5, 22]

theorem combines_dividing (a b : Word) :
    (dividing a b).Combines (quotientCode a b) .div a b := ⟨rfl, rfl, rfl⟩

/-- A quotient is taken towards zero; and the run that divides by zero fails, which means that
it has come to such a division. -/
theorem quotientCode_divides :
    (dividing (-7) 2).Combines (quotientCode (-7) 2) .div (-7) 2 ∧
    (∃ m', step (quotientCode (-7) 2) (dividing (-7) 2) = .ok .quiet m' ∧ m'.top? = some (-3)) ∧
    run 3 (quotientCode 7 0) (fresh 4) =
      ({ dividing 7 0 with ip := 5, sp := 4 }, .error (.divisionByZero 4)) ∧
    ∃ p a b,
      Relation.ReflTransGen (Continues (quotientCode 7 0) (some 3)) { machine := fresh 4 } p ∧
      p.machine.ip = 4 ∧ p.machine.Combines (quotientCode 7 0) .div a b := by
  obtain ⟨-, hvalue⟩ := division_fails_iff (quotientCode (-7) 2)
  obtain ⟨hfails, -⟩ := division_fails_iff (quotientCode 7 0)
  obtain ⟨m', hstep, -, -, htop⟩ := hvalue _ _ _ _ (combines_dividing (-7) 2) (by decide)
  have hrun : run 3 (quotientCode 7 0) (fresh 4) =
      ({ dividing 7 0 with ip := 5, sp := 4 }, .error (.divisionByZero 4)) := rfl
  obtain ⟨p, a, b, hreach, -, hip, hdivides, -⟩ :=
    (hfails (some 3) (fresh 4) 4).mp ⟨_, runs_some_iff.mpr hrun⟩
  exact ⟨combines_dividing (-7) 2, ⟨m', hstep, htop⟩, hrun, p, a, b, hreach, hip, hdivides⟩

/-- Not only a division by zero fails as one. The least word divided by minus one has a
quotient, which would be reduced to the least word, but the division fails. -/
theorem leastQuotient_fails :
    Relation.ReflTransGen (Continues (quotientCode Int64.minValue (-1)) none) { machine := fresh 4 }
      ⟨dividing Int64.minValue (-1), #[], 2⟩ ∧
    (dividing Int64.minValue (-1)).Combines (quotientCode Int64.minValue (-1)) .div
      Int64.minValue (-1) ∧
    Int64.ofInt (Arith.div.exact Int64.minValue.toInt (-1 : Word).toInt) = Int64.minValue ∧
    (run defaultLimit (quotientCode Int64.minValue (-1)) (fresh 4)).2 =
      .error (.divisionByZero 4) := by
  have hroom : ¬ (4 : Word) ≤ 0 ∧ ¬ (3 : Word) ≤ 0 := by decide
  refine ⟨.head (b := ⟨{ memory := #[0, 0, 0, Int64.minValue], ip := 2, sp := 3, fp := 4 }, #[], 1⟩)
    ?_ (.single ?_), combines_dividing _ _, by decide, rfl⟩
  · exact .quiet ⟨hroom.1, by simp⟩ rfl
  · exact .quiet ⟨hroom.2, by simp⟩ rfl

end Machine

end Classlet
