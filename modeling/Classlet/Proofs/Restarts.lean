import Classlet.Proofs.ControlFlow
import Classlet.Proofs.MachineSafety

/-!
Where a run begins. No register is set at the beginning of a run, so a run begins at the
word that the instruction pointer was left at. Only on a fresh machine, or if earlier runs
happen to leave it at zero, is this the first word of the code. A run that halts leaves it
behind its last instruction and so never at zero.
-/

namespace Classlet.Machine

open Progress

/-- A run of any code goes as it does with the instruction pointer at the given address. -/
def BeginsAt (limit : Option Nat) (m : Machine) (address : Word) : Prop :=
  ∀ code m' report, Runs code limit m m' report ↔
    Runs code limit { m with ip := address } m' report

section

variable {limit : Option Nat} {m : Machine}

/-- The run of no code at all tells where it would have begun. -/
theorem runs_empty (on : GoesOn limit { machine := m }) :
    Runs #[] limit m m (.error (.addressOutOfRange m.ip)) := by
  have hmissing : codeAt #[] m.ip m = .error (.addressOutOfRange m.ip) m := by
    rcases codeAt_cases #[] m.ip m with ⟨i, w, -, hw, -⟩ | hword
    · simp at hw
    · exact hword
  exact ⟨⟨m, #[], 1⟩, _, .failed on (step_of_missing hmissing), rfl, rfl⟩

/-- A run that takes up an instruction begins at the instruction pointer and nowhere else. -/
theorem beginsAt_iff (on : GoesOn limit { machine := m }) {address : Word} :
    BeginsAt limit m address ↔ address = m.ip := by
  constructor
  · intro h
    have on' : GoesOn limit { machine := { m with ip := address } } := ⟨on.room, on.within⟩
    have hruns := (h #[] _ _).mp (runs_empty on)
    obtain ⟨-, hreport⟩ := (runs_empty on').unique hruns
    injection hreport with hfault
    injection hfault
  · rintro rfl
    exact fun code m' report => Iff.rfl

end

/-! Halting. -/

/-- The action does not halt. -/
def NeverHalts (x : Action Signal) : Prop := ∀ m result m', x m ≠ .ok (.halted result) m'

theorem NeverHalts.quiet : NeverHalts (pure .quiet) := by
  intro m result m' h
  cases h

theorem NeverHalts.bind {α : Type} (x : Action α) {f : α → Action Signal}
    (h : ∀ a, NeverHalts (f a)) : NeverHalts (x >>= f) := by
  intro m result m' hrun
  obtain ⟨a, m₁, -, hf⟩ := bind_eq_ok hrun
  exact h a m₁ result m' hf

theorem neverHalts_runPlain (address : Word) {op : PlainOp} (h : op ≠ .halt) :
    NeverHalts (runPlain address op) := by
  cases op with
  | pop => exact .bind _ fun _ => .quiet
  | arith op =>
    refine .bind _ fun b => .bind _ fun a => ?_
    cases op.apply? a b with
    | some w => exact .bind _ fun _ => .quiet
    | none =>
      intro m result m' hrun
      cases hrun
  | store => exact .bind _ fun _ => .bind _ fun _ => .bind _ fun _ => .quiet
  | load => exact .bind _ fun _ => .bind _ fun _ => .bind _ fun _ => .quiet
  | call => exact .bind _ fun _ => .bind _ fun _ => .quiet
  | pushReg r => exact .bind _ fun _ => .bind _ fun _ => .quiet
  | popReg r => exact .bind _ fun _ => .bind _ fun _ => .quiet
  | setFrame => exact .bind _ fun _ => .quiet
  | print =>
    refine .bind _ fun m => ?_
    cases m.top? with
    | some w =>
      intro m₁ result m' hrun
      cases hrun
    | none => exact .quiet
  | halt => exact absurd rfl h

theorem neverHalts_jumpIf (P : Prop) [Decidable P] (target : Word) :
    NeverHalts (do
      if P then jumpTo target
      return Signal.quiet) := by
  split
  · exact .bind _ fun _ => .quiet
  · exact .quiet

theorem neverHalts_runJump (code : Array Word) (test : JumpTest) :
    NeverHalts (runJump code test) := by
  cases test with
  | always => exact .bind _ fun _ => .bind _ fun _ => .bind _ fun _ => .quiet
  | equal => exact .bind _ fun _ => .bind _ fun _ => .bind _ fun _ => neverHalts_jumpIf _ _
  | lessEqual => exact .bind _ fun _ => .bind _ fun _ => .bind _ fun _ => neverHalts_jumpIf _ _

section

variable {code : Array Word} {limit : Option Nat}

/-- Only `halt` halts, and it leaves the machine as it is. -/
theorem execute_halted {address : Word} {o : Operation} {m m' : Machine} {result : Option Word}
    (h : execute code address o m = .ok (.halted result) m') : o = .plain .halt ∧ m' = m := by
  cases o with
  | push =>
    have hnever : NeverHalts (execute code address .push) :=
      .bind _ fun _ => .bind _ fun _ => .quiet
    exact absurd h (hnever m result m')
  | plain op =>
    by_cases hop : op = .halt
    · subst hop
      cases h
      exact ⟨rfl, rfl⟩
    · exact absurd h (neverHalts_runPlain address hop m result m')
  | jump test => exact absurd h (neverHalts_runJump code test m result m')

/-- An instruction that halts is a `halt`, and the instruction pointer is left behind it. -/
theorem step_halted {m m' : Machine} {result : Option Word}
    (h : step code m = .ok (.halted result) m') :
    operation? code m.ip = some (.plain .halt) ∧ m'.ip = m.ip + 1 := by
  cases hop : operation? code m.ip with
  | none =>
    obtain ⟨e, hstep, -⟩ := step_of_no_operation hop
    rw [hstep] at h
    cases h
  | some o =>
    rw [step_of_operation? hop] at h
    obtain ⟨rfl, rfl⟩ := execute_halted h
    exact ⟨rfl, rfl⟩

theorem ends_halted {p q : Progress} {result : Option Word}
    (h : Ends code limit p q (.halted result)) :
    ∃ address, operation? code address = some (.plain .halt) ∧ q.machine.ip = address + 1 := by
  generalize hending : Ending.halted result = ending at h
  induction h with
  | exhausted _ => cases hending
  | stopped _ _ _ => cases hending
  | halted _ hstep => exact ⟨_, step_halted hstep⟩
  | failed _ _ => cases hending
  | next _ _ ih => exact ih hending

/-- The address of an operation is not the word before zero. -/
theorem add_one_ne_zero_of_operation? {address : Word} {o : Operation}
    (h : operation? code address = some o) : address + 1 ≠ 0 := by
  intro hzero
  obtain ⟨w, hw, -⟩ := Option.bind_eq_some_iff.mp h
  obtain ⟨i, hi, -⟩ := Option.bind_eq_some_iff.mp hw
  have hnonneg := Word.toInt_of_index? hi
  have haddress : address = -1 := by
    rw [← Int64.add_sub_cancel address 1, hzero]
    rfl
  have hneg : (-1 : Word).toInt = -1 := by decide
  rw [haddress] at hnonneg
  omega

theorem Runs.halted_ip {m m' : Machine} {o : Outcome} (h : Runs code limit m m' (.ok o)) :
    m'.ip ≠ 0 ∧ operation? code (m'.ip - 1) = some (.plain .halt) := by
  obtain ⟨p, ending, hends, rfl, hreport⟩ := h
  cases ending with
  | failed fault => cases hreport
  | halted result =>
    obtain ⟨address, hop, hip⟩ := ends_halted hends
    rw [hip, Int64.add_sub_cancel]
    exact ⟨add_one_ne_zero_of_operation? hop, hop⟩

end

/-- A run that takes up an instruction begins where the instruction pointer is, and nowhere
else. This is the first word of the code on a fresh machine. After a run that halted it is
the word behind the `halt`, and so never the first word. -/
theorem runs_begin_where_left (limit : Option Nat) :
    (∀ size, (fresh size).ip = 0) ∧
    (∀ m, GoesOn limit { machine := m } → ∀ address, BeginsAt limit m address ↔ address = m.ip) ∧
    ∀ code m m' o, Runs code limit m m' (.ok o) →
      m'.ip ≠ 0 ∧ operation? code (m'.ip - 1) = some (.plain .halt) :=
  ⟨fun _ => rfl, fun _ on _ => beginsAt_iff on, fun _ _ _ _ h => h.halted_ip⟩

/-- A machine that has halted at the first word of its code. -/
def haltedOnce : Machine := { fresh 10 with ip := 1 }

theorem runs_haltedOnce : Runs #[22] (some defaultLimit) (fresh 10) haltedOnce
    (.ok { output := [], result := none, steps := 1 }) :=
  runs_some_iff.mpr rfl

theorem left_haltedOnce : Left { memorySize := 10 } haltedOnce := by
  obtain ⟨p, ending, hends, hmachine, -⟩ := runs_haltedOnce
  rw [hmachine]
  exact .ran .made hends

theorem goesOn_haltedOnce : GoesOn (some defaultLimit) { machine := haltedOnce } :=
  ⟨by decide, fun n hn => by cases hn; decide⟩

/-- The first run begins at the first word, and the next one at the second. -/
theorem haltedOnce_begins :
    BeginsAt (some defaultLimit) (fresh 10) 0 ∧ haltedOnce.ip ≠ 0 ∧
      BeginsAt (some defaultLimit) haltedOnce 1 := by
  obtain ⟨hfresh, hbegins, hhalted⟩ := runs_begin_where_left (some defaultLimit)
  have on : GoesOn (some defaultLimit) { machine := fresh 10 } :=
    ⟨by decide, fun n hn => by cases hn; decide⟩
  refine ⟨(hbegins _ on 0).mpr (hfresh 10).symm, ?_, ?_⟩
  · exact (hhalted _ _ _ _ runs_haltedOnce).1
  · exact (hbegins _ goesOn_haltedOnce 1).mpr rfl

/-- Not every run begins at the first word. Code that prints a word and halts on a fresh
machine fails on one that has halted before. -/
theorem haltedOnce_not_from_first :
    Left { memorySize := 10 } haltedOnce ∧
      GoesOn (some defaultLimit) { machine := haltedOnce } ∧
      ¬ BeginsAt (some defaultLimit) haltedOnce 0 ∧
      (run defaultLimit printCode (fresh 10)).2 =
        .ok { output := [7], result := some 7, steps := 3 } ∧
      (run defaultLimit printCode haltedOnce).2 = .error (.addressOutOfRange 10) := by
  refine ⟨left_haltedOnce, goesOn_haltedOnce, ?_, rfl, rfl⟩
  rw [beginsAt_iff goesOn_haltedOnce]
  decide

end Classlet.Machine
