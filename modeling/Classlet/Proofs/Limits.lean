import Classlet.Proofs.Run

/-!
Runs with a limit and without one. A run is a loop: before each instruction the stack must
be above the heap, and then the limit, if there is one, must allow the instruction. Without
a limit the loop may go on for ever, so it is a relation between where it begins and how it
ends. Every run with a limit ends, in one way. If it is not the limit that ends it, it ends
so with every higher limit and without one; and a run that halts is stopped by exactly
those limits that are lower than its number of instructions.
-/

namespace Classlet.Machine

namespace Progress

/-- The run takes up another instruction. -/
structure GoesOn (limit : Option Nat) (p : Progress) : Prop where
  room : ¬ p.machine.sp ≤ p.machine.hp
  within : ∀ n ∈ limit, p.steps < n

/-- An instruction that does not end the run. -/
inductive Continues (code : Array Word) (limit : Option Nat) : Progress → Progress → Prop
  | quiet {p : Progress} {m : Machine} (on : p.GoesOn limit)
    (hstep : step code p.machine = .ok .quiet m) :
    Continues code limit p ⟨m, p.output, p.steps + 1⟩
  | printed {p : Progress} {m : Machine} {w : Word} (on : p.GoesOn limit)
    (hstep : step code p.machine = .ok (.printed w) m) :
    Continues code limit p ⟨m, p.output.push w, p.steps + 1⟩

/-- How the run from a point on ends, and where. -/
inductive Ends (code : Array Word) (limit : Option Nat) : Progress → Progress → Ending → Prop
  | exhausted {p : Progress} (h : p.machine.sp ≤ p.machine.hp) :
    Ends code limit p p (.failed (.outOfMemory p.machine.sp p.machine.hp))
  | stopped {p : Progress} {n : Nat} (room : ¬ p.machine.sp ≤ p.machine.hp) (hn : limit = some n)
    (h : n ≤ p.steps) : Ends code limit p p (.failed (.stepLimit n))
  | halted {p : Progress} {m : Machine} {result : Option Word} (on : p.GoesOn limit)
    (hstep : step code p.machine = .ok (.halted result) m) :
    Ends code limit p ⟨m, p.output, p.steps + 1⟩ (.halted result)
  | failed {p : Progress} {m : Machine} {fault : Fault} (on : p.GoesOn limit)
    (hstep : step code p.machine = .error fault m) :
    Ends code limit p ⟨m, p.output, p.steps + 1⟩ (.failed fault)
  | next {p q r : Progress} {ending : Ending} (h : Continues code limit p q)
    (rest : Ends code limit q r ending) : Ends code limit p r ending

section

variable {code : Array Word} {limit : Option Nat} {p q : Progress} {ending : Ending}

theorem Continues.goesOn (h : Continues code limit p q) : p.GoesOn limit := by
  cases h with
  | quiet on _ => exact on
  | printed on _ => exact on

theorem Continues.steps_eq (h : Continues code limit p q) : q.steps = p.steps + 1 := by
  cases h <;> rfl

/-! The loop, one instruction at a time. -/

theorem advance_of_exhausted (h : p.machine.sp ≤ p.machine.hp) (k : Nat) :
    p.advance code k = (p, some (.failed (.outOfMemory p.machine.sp p.machine.hp))) := by
  obtain ⟨m, output, steps⟩ := p
  cases k <;> exact if_pos h

theorem advance_zero_of_room (h : ¬ p.machine.sp ≤ p.machine.hp) :
    p.advance code 0 = (p, none) := by
  obtain ⟨m, output, steps⟩ := p
  exact if_neg h

theorem advance_of_continues (h : Continues code limit p q) (k : Nat) :
    p.advance code (k + 1) = q.advance code k := by
  cases h with
  | quiet on hstep =>
    obtain ⟨m, output, steps⟩ := p
    rw [advance, if_neg on.room]
    simp only [hstep]
  | printed on hstep =>
    obtain ⟨m, output, steps⟩ := p
    rw [advance, if_neg on.room]
    simp only [hstep]

theorem advance_of_halted {m : Machine} {result : Option Word} (on : p.GoesOn limit)
    (hstep : step code p.machine = .ok (.halted result) m) (k : Nat) :
    p.advance code (k + 1) = (⟨m, p.output, p.steps + 1⟩, some (.halted result)) := by
  obtain ⟨m, output, steps⟩ := p
  rw [advance, if_neg on.room]
  simp only [hstep]

theorem advance_of_failed {m : Machine} {fault : Fault} (on : p.GoesOn limit)
    (hstep : step code p.machine = .error fault m) (k : Nat) :
    p.advance code (k + 1) = (⟨m, p.output, p.steps + 1⟩, some (.failed fault)) := by
  obtain ⟨m, output, steps⟩ := p
  rw [advance, if_neg on.room]
  simp only [hstep]

/-- What may be next in a run: it ends, or it continues. -/
theorem GoesOn.cases (code : Array Word) (on : p.GoesOn limit) :
    (∃ q ending, Ends code limit p q ending ∧
      ∀ k, p.advance code (k + 1) = (q, some ending)) ∨ ∃ q, Continues code limit p q := by
  rcases hstep : step code p.machine with ⟨signal, m⟩ | ⟨fault, m⟩
  · cases signal with
    | quiet => exact Or.inr ⟨_, .quiet on hstep⟩
    | printed w => exact Or.inr ⟨_, .printed on hstep⟩
    | halted result =>
      exact Or.inl ⟨_, _, .halted on hstep, advance_of_halted on hstep⟩
  · exact Or.inl ⟨_, _, .failed on hstep, advance_of_failed on hstep⟩

theorem Ends.steps_le (h : Ends code limit p q ending) : p.steps ≤ q.steps := by
  induction h with
  | exhausted _ => exact Nat.le_refl _
  | stopped _ _ _ => exact Nat.le_refl _
  | halted _ _ => exact Nat.le_succ _
  | failed _ _ => exact Nat.le_succ _
  | next hnext _ ih =>
    rw [hnext.steps_eq] at ih
    omega

/-- A run takes no more instructions than its limit allows. -/
theorem Ends.steps_le_limit (h : Ends code limit p q ending) {n : Nat} (hn : limit = some n)
    (hp : p.steps ≤ n) : q.steps ≤ n := by
  induction h with
  | exhausted _ => exact hp
  | stopped _ _ _ => exact hp
  | halted on _ => exact on.within n hn
  | failed on _ => exact on.within n hn
  | next hnext _ ih =>
    apply ih
    rw [hnext.steps_eq]
    exact hnext.goesOn.within n hn

/-- A run without a limit takes as many instructions as it counts. -/
theorem Ends.advance (h : Ends code none p q ending) (k : Nat) :
    p.advance code k = (q, some ending) ∧ q.steps ≤ p.steps + k ∨
      (p.advance code k).2 = none ∧ p.steps + k < q.steps := by
  induction h generalizing k with
  | exhausted hsp => exact Or.inl ⟨advance_of_exhausted hsp k, Nat.le_add_right _ _⟩
  | stopped _ hn _ => cases hn
  | halted on hstep =>
    cases k with
    | zero => exact Or.inr ⟨by rw [advance_zero_of_room on.room], Nat.lt_succ_self _⟩
    | succ k => exact Or.inl ⟨advance_of_halted on hstep k, by simp only; omega⟩
  | failed on hstep =>
    cases k with
    | zero => exact Or.inr ⟨by rw [advance_zero_of_room on.room], Nat.lt_succ_self _⟩
    | succ k => exact Or.inl ⟨advance_of_failed on hstep k, by simp only; omega⟩
  | next hnext rest ih =>
    have hsteps := hnext.steps_eq
    have hle := rest.steps_le
    cases k with
    -- The run goes on, so at least one more instruction is counted.
    | zero => exact Or.inr ⟨by rw [advance_zero_of_room hnext.goesOn.room], by omega⟩
    | succ k =>
      rw [advance_of_continues hnext]
      rcases ih k with ⟨heq, hle⟩ | ⟨heq, hlt⟩
      · exact Or.inl ⟨heq, by omega⟩
      · exact Or.inr ⟨heq, by omega⟩

/-- A run with a limit ends as carrying out that many instructions does. -/
theorem Ends.advance_limit {n : Nat} (h : Ends code (some n) p q ending) (hp : p.steps ≤ n) :
    p.advance code (n - p.steps) = (q, some ending) ∨
      p.advance code (n - p.steps) = (q, none) ∧ ending = .failed (.stepLimit n) := by
  induction h with
  | exhausted hsp => exact Or.inl (advance_of_exhausted hsp _)
  | stopped room hn hle =>
    cases hn
    rw [Nat.sub_eq_zero_of_le hle]
    exact Or.inr ⟨advance_zero_of_room room, rfl⟩
  | @halted p m result on hstep =>
    have hlt := on.within n rfl
    obtain ⟨k, hk⟩ : ∃ k, n - p.steps = k + 1 := ⟨n - p.steps - 1, by omega⟩
    rw [hk]
    exact Or.inl (advance_of_halted on hstep k)
  | @failed p m fault on hstep =>
    have hlt := on.within n rfl
    obtain ⟨k, hk⟩ : ∃ k, n - p.steps = k + 1 := ⟨n - p.steps - 1, by omega⟩
    rw [hk]
    exact Or.inl (advance_of_failed on hstep k)
  | @next p q r ending hnext rest ih =>
    have hlt := hnext.goesOn.within n rfl
    have hsteps := hnext.steps_eq
    have hk : n - p.steps = n - q.steps + 1 := by omega
    rw [hk, advance_of_continues hnext]
    exact ih (by omega)

/-- Within the limit, a run ends as carrying out instructions does. -/
theorem ends_of_advance {k : Nat} (h : p.advance code k = (q, some ending))
    (hk : ∀ n ∈ limit, p.steps + k ≤ n) : Ends code limit p q ending := by
  induction k generalizing p with
  | zero =>
    by_cases hsp : p.machine.sp ≤ p.machine.hp
    · rw [advance_of_exhausted hsp] at h
      cases h
      exact .exhausted hsp
    · rw [advance_zero_of_room hsp] at h
      cases h
  | succ k ih =>
    by_cases hsp : p.machine.sp ≤ p.machine.hp
    · rw [advance_of_exhausted hsp] at h
      cases h
      exact .exhausted hsp
    · have on : p.GoesOn limit := ⟨hsp, fun n hn => by have hle := hk n hn; omega⟩
      rcases on.cases code with ⟨q', ending', hends, hlast⟩ | ⟨q', hnext⟩
      · rw [hlast] at h
        cases h
        exact hends
      · rw [advance_of_continues hnext] at h
        refine .next hnext (ih h fun n hn => ?_)
        have hle := hk n hn
        rw [hnext.steps_eq]
        omega

/-- A run that has used up its limit is stopped. -/
theorem stopped_of_advance {k n : Nat} (h : p.advance code k = (q, none)) (hk : p.steps + k = n) :
    Ends code (some n) p q (.failed (.stepLimit n)) := by
  induction k generalizing p with
  | zero =>
    by_cases hsp : p.machine.sp ≤ p.machine.hp
    · rw [advance_of_exhausted hsp] at h
      cases h
    · rw [advance_zero_of_room hsp] at h
      cases h
      exact .stopped hsp rfl (by omega)
  | succ k ih =>
    by_cases hsp : p.machine.sp ≤ p.machine.hp
    · rw [advance_of_exhausted hsp] at h
      cases h
    · have on : p.GoesOn (some n) := ⟨hsp, fun n' hn' => by cases hn'; omega⟩
      rcases on.cases code with ⟨q', ending', -, hlast⟩ | ⟨q', hnext⟩
      · rw [hlast] at h
        cases h
      · rw [advance_of_continues hnext] at h
        refine .next hnext (ih h ?_)
        rw [hnext.steps_eq]
        omega

end

end Progress

open Progress

/-- The run of code on a machine, with a limit or without one, leaves the machine so and
reports this. -/
def Runs (code : Array Word) (limit : Option Nat) (m m' : Machine)
    (report : Except Fault Outcome) : Prop :=
  ∃ p ending, Ends code limit { machine := m } p ending ∧ m' = p.machine ∧
    report = p.close ending

section

variable {code : Array Word} {limit : Option Nat} {m m' m'' : Machine} {n : Nat}
  {report report' : Except Fault Outcome}

theorem runs_some_iff : Runs code (some n) m m' report ↔ run n code m = (m', report) := by
  constructor
  · rintro ⟨p, ending, hends, rfl, rfl⟩
    have hadvance := hends.advance_limit (Nat.zero_le n)
    rw [Nat.sub_zero] at hadvance
    rcases hadvance with heq | ⟨heq, rfl⟩
    · rw [run, heq]
    · rw [run, heq]
      rfl
  · intro h
    rcases hadvance : advance code n { machine := m } with ⟨p, _ | ending⟩
    · rw [run, hadvance] at h
      cases h
      exact ⟨p, _, stopped_of_advance hadvance (Nat.zero_add n), rfl, rfl⟩
    · rw [run, hadvance] at h
      cases h
      refine ⟨p, ending, ends_of_advance hadvance ?_, rfl, rfl⟩
      rintro _ ⟨⟩
      exact Nat.le_of_eq (Nat.zero_add n)

/-- A run that its limit does not end is one without a limit. -/
theorem runs_none_of_run (h : run n code m = (m', report))
    (hr : ∀ k, report ≠ .error (.stepLimit k)) : Runs code none m m' report := by
  rcases hadvance : advance code n { machine := m } with ⟨p, _ | ending⟩
  · rw [run, hadvance] at h
    cases h
    exact absurd rfl (hr n)
  · rw [run, hadvance] at h
    cases h
    exact ⟨p, ending, ends_of_advance hadvance (by simp), rfl, rfl⟩

/-- The limits that are high enough for a run, and those that are not. -/
theorem Runs.limit_cases (h : Runs code none m m' report) : ∃ steps,
    (∀ o, report = .ok o → o.steps = steps) ∧
    ∀ n, run n code m = (m', report) ∧ steps ≤ n ∨
      (run n code m).2 = .error (.stepLimit n) ∧ n < steps := by
  obtain ⟨p, ending, hends, rfl, rfl⟩ := h
  refine ⟨p.steps, ?_, fun n => ?_⟩
  · intro o ho
    cases ending with
    | halted result =>
      cases ho
      rfl
    | failed fault => cases ho
  · have hcases := hends.advance n
    rw [Nat.zero_add] at hcases
    rcases hcases with ⟨heq, hle⟩ | ⟨hnone, hlt⟩
    · refine Or.inl ⟨?_, hle⟩
      rw [run, heq]
    · refine Or.inr ⟨?_, hlt⟩
      rcases hadvance : advance code n { machine := m } with ⟨q, ending?⟩
      rw [hadvance] at hnone
      cases hnone
      rw [run, hadvance]

/-- A run ends in one way. -/
theorem Runs.unique (h : Runs code limit m m' report) (h' : Runs code limit m m'' report') :
    m' = m'' ∧ report = report' := by
  suffices hpair : (m', report) = (m'', report') from Prod.mk.inj hpair
  cases limit with
  | some n => rw [← runs_some_iff.mp h, runs_some_iff.mp h']
  | none =>
    obtain ⟨steps, -, hlimit⟩ := h.limit_cases
    obtain ⟨steps', -, hlimit'⟩ := h'.limit_cases
    -- One limit is high enough for both.
    rcases hlimit (max steps steps') with ⟨heq, -⟩ | ⟨-, hlt⟩
    · rcases hlimit' (max steps steps') with ⟨heq', -⟩ | ⟨-, hlt⟩
      · rw [← heq, heq']
      · omega
    · omega

end

/-- A limit only cuts runs short. A run that its limit does not end goes the same way with
every higher limit and without one. A run that halts without a limit halts in the same way
with those limits that are not below its number of instructions, and the others stop it. -/
theorem limit_cuts_short (code : Array Word) (m : Machine) :
    (∀ n m' report, run n code m = (m', report) → (∀ k, report ≠ .error (.stepLimit k)) →
      (∀ k, n ≤ k → run k code m = (m', report)) ∧
      ∀ m'' report', Runs code none m m'' report' ↔ m'' = m' ∧ report' = report) ∧
    ∀ m' o, Runs code none m m' (.ok o) → ∀ n,
      ((run n code m).2 = .ok o ↔ o.steps ≤ n) ∧
      (n < o.steps → (run n code m).2 = .error (.stepLimit n)) := by
  constructor
  · intro n m' report h hr
    have hruns := runs_none_of_run h hr
    constructor
    · intro k hk
      obtain ⟨steps, -, hlimit⟩ := hruns.limit_cases
      rcases hlimit n with ⟨-, hle⟩ | ⟨hstop, -⟩
      · rcases hlimit k with ⟨heq, -⟩ | ⟨-, hlt⟩
        · exact heq
        · omega
      · rw [h] at hstop
        exact absurd hstop (hr n)
    · intro m'' report'
      constructor
      · exact fun h' => h'.unique hruns
      · rintro ⟨rfl, rfl⟩
        exact hruns
  · intro m' o hruns n
    obtain ⟨steps, hsteps, hlimit⟩ := hruns.limit_cases
    obtain rfl := hsteps o rfl
    rcases hlimit n with ⟨heq, hle⟩ | ⟨hstop, hlt⟩
    · refine ⟨iff_of_true (by rw [heq]) hle, fun hlt => ?_⟩
      omega
    · refine ⟨iff_of_false ?_ (by omega), fun _ => hstop⟩
      rw [hstop]
      exact fun h => by cases h

/-- Pushes a word, prints it and halts. -/
def printCode : Array Word := #[0, 7, 21, 22]

/-- Three instructions are enough to print and halt, and with fewer the run is stopped. The
instruction that fails is one that the limit must allow. -/
theorem printCode_limits :
    run 3 printCode (fresh 4) =
      ({ memory := #[0, 0, 0, 7], ip := 4, sp := 3, fp := 4 },
        .ok { output := [7], result := some 7, steps := 3 }) ∧
    (∀ k, 3 ≤ k → run k printCode (fresh 4) = run 3 printCode (fresh 4)) ∧
    (∀ k, k < 3 → (run k printCode (fresh 4)).2 = .error (.stepLimit k)) ∧
    (∀ k, 1 ≤ k → (run k #[1] (fresh 4)).2 = .error (.addressOutOfRange 4)) := by
  obtain ⟨hsame, hhalts⟩ := limit_cuts_short printCode (fresh 4)
  obtain ⟨hpop, -⟩ := limit_cuts_short #[1] (fresh 4)
  have hrun : run 3 printCode (fresh 4) =
      ({ memory := #[0, 0, 0, 7], ip := 4, sp := 3, fp := 4 },
        .ok { output := [7], result := some 7, steps := 3 }) := by
    rfl
  have hfail : run 1 #[1] (fresh 4) =
      ({ memory := #[0, 0, 0, 0], ip := 1, sp := 4, fp := 4 },
        .error (.addressOutOfRange 4)) := by
    rfl
  obtain ⟨hmore, hfree⟩ := hsame 3 _ _ hrun (fun k hk => by cases hk)
  obtain ⟨hlater, -⟩ := hpop 1 _ _ hfail (fun k hk => by cases hk)
  refine ⟨hrun, fun k hk => (hmore k hk).trans hrun.symm, fun k hk => ?_, fun k hk => ?_⟩
  · exact (hhalts _ _ ((hfree _ _).mpr ⟨rfl, rfl⟩) k).2 hk
  · rw [hlater k hk]

end Classlet.Machine
