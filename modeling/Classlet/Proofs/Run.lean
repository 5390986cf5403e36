import Classlet.Proofs.Refinement

/-!
Runs of the machine and runs of snapshots. The machine runs a listing as snapshots
say, unless the stack meets the heap on the way, and it ends as they say: it halts
with the topmost word, or it fails on a division or on null. A run that has ended
stays as it is with more instructions allowed.
-/

namespace Classlet

namespace Machine.Progress

variable {code : Array Word}

/-- A run that has not ended goes on from where it is. -/
theorem advance_add {n : Nat} {p p' : Progress} (h : p.advance code n = (p', none)) (k : Nat) :
    p.advance code (n + k) = p'.advance code k := by
  induction n generalizing p with
  | zero =>
    obtain ⟨m, output, steps⟩ := p
    by_cases hsp : m.sp ≤ m.hp
    · simp [advance, hsp] at h
    · simp only [advance, hsp, if_false, Prod.mk.injEq, and_true] at h
      rw [Nat.zero_add, h]
  | succ n ih =>
    obtain ⟨m, output, steps⟩ := p
    rw [Nat.add_right_comm]
    by_cases hsp : m.sp ≤ m.hp
    · simp [advance, hsp] at h
    · simp only [advance, hsp, if_false] at h ⊢
      cases hstep : step code m with
      | error fault m' => simp [hstep] at h
      | ok signal m' =>
        cases signal with
        | quiet =>
          simp only [hstep] at h
          exact ih h
        | printed w =>
          simp only [hstep] at h
          exact ih h
        | halted result => simp [hstep] at h

/-- A run that has ended stays as it is. -/
theorem advance_ended {n : Nat} {p p' : Progress} {ending : Ending}
    (h : p.advance code n = (p', some ending)) (k : Nat) :
    p.advance code (n + k) = (p', some ending) := by
  induction n generalizing p with
  | zero =>
    obtain ⟨m, output, steps⟩ := p
    by_cases hsp : m.sp ≤ m.hp
    · cases k <;> simpa [advance, hsp] using h
    · simp [advance, hsp] at h
  | succ n ih =>
    obtain ⟨m, output, steps⟩ := p
    rw [Nat.add_right_comm]
    by_cases hsp : m.sp ≤ m.hp
    · simpa [advance, hsp] using h
    · simp only [advance, hsp, if_false] at h ⊢
      cases hstep : step code m with
      | error fault m' => simpa [hstep] using h
      | ok signal m' =>
        cases signal with
        | quiet =>
          simp only [hstep] at h
          exact ih h
        | printed w =>
          simp only [hstep] at h
          exact ih h
        | halted result => simpa [hstep] using h

/-- A run ends in one way. -/
theorem advance_unique {n k : Nat} {p q q' : Progress} {ending ending' : Ending}
    (h : p.advance code n = (q, some ending)) (h' : p.advance code k = (q', some ending')) :
    q = q' ∧ ending = ending' := by
  have hboth := advance_ended h k
  rw [Nat.add_comm, advance_ended h' n] at hboth
  cases hboth
  exact ⟨rfl, rfl⟩

end Machine.Progress

open Machine (Progress)

namespace Machine

variable {code : Array Word} {start : Machine} {n : Nat} {p : Progress}

/-- A run that has not ended is left as its next instruction leaves it, with one more
instruction allowed. -/
theorem run_succ (h : Progress.advance code n { machine := start } = (p, none))
    (hsp : ¬ p.machine.sp ≤ p.machine.hp) :
    (run (n + 1) code start).1 =
      match step code p.machine with
      | .ok _ m | .error _ m => m := by
  obtain ⟨m, output, steps⟩ := p
  rw [run, Progress.advance_add h 1]
  simp only [Progress.advance, hsp, if_false]
  cases step code m with
  | error fault m' => rfl
  | ok signal m' =>
    cases signal with
    | halted result => rfl
    | quiet => by_cases hout : m'.sp ≤ m'.hp <;> simp [hout]
    | printed w => by_cases hout : m'.sp ≤ m'.hp <;> simp [hout]

/-- A run that has ended is left as it is, with more instructions allowed. -/
theorem run_of_ended {ending : Ending}
    (h : Progress.advance code n { machine := start } = (p, some ending)) (k : Nat) :
    (run (n + k) code start).1 = p.machine := by
  rw [run, Progress.advance_ended h k]

end Machine

/-- The run of a listing from a machine on has ended after `n` instructions. -/
def EndsWith (L : Listing) (start : Machine) (n : Nat) (output : List Word)
    (ending : Machine.Ending) : Prop :=
  ∃ p : Progress, Progress.advance L.code.toArray n { machine := start } = (p, some ending) ∧
    p.output.toList = output

/-- The memory is exhausted within `n` instructions. -/
def RunsOut (L : Listing) (start : Machine) (n : Nat) : Prop :=
  ∃ output sp hp, EndsWith L start n output (.failed (.outOfMemory sp hp))

/-- The run has not ended after `n` instructions, and the machine is then at the
given place of the code with the given end of the heap. -/
def Passes (L : Listing) (start : Machine) (n place heapEnd : Nat) : Prop :=
  ∃ p : Progress, Progress.advance L.code.toArray n { machine := start } = (p, none) ∧
    p.machine.ip = Int64.ofNat place ∧ p.machine.hp = Int64.ofNat heapEnd

/-- The run of a listing is at a snapshot after `n` instructions. -/
structure RunsTo (L : Listing) (M : Nat) (start : Machine) (n : Nat) (s : Snapshot) : Prop where
  state : ∃ p : Progress, Progress.advance L.code.toArray n { machine := start } = (p, none) ∧
    p.output.toList = s.output ∧ p.steps = n ∧ Mirrors M s p.machine
  room : s.Room M
  stored : ∀ place address, (place, address) ∈ s.stores →
    ∃ k ≤ n, Passes L start k place address

theorem EndsWith.mono {L : Listing} {start : Machine} {n k : Nat} {output : List Word}
    {ending : Machine.Ending} (h : EndsWith L start n output ending) (hk : n ≤ k) :
    EndsWith L start k output ending := by
  obtain ⟨p, hp, hout⟩ := h
  obtain ⟨j, rfl⟩ := Nat.exists_eq_add_of_le hk
  exact ⟨p, Progress.advance_ended hp j, hout⟩

section

variable {L : Listing} {M : Nat} {K : Route} {start : Machine} (hM : M < Word.limit)
  (hL : L.code.length < Word.limit)

include hM in
/-- A machine that mirrors a snapshot either has room or has run out of it. -/
theorem runsTo_or_runsOut {n : Nat} {s : Snapshot} {p : Progress}
    (h : ∀ k, Progress.advance L.code.toArray (n + k) { machine := start } =
      p.advance L.code.toArray k)
    (hout : p.output.toList = s.output) (hsteps : p.steps = n) (hm : Mirrors M s p.machine)
    (hstored : ∀ place address, (place, address) ∈ s.stores →
      ∃ k ≤ n, Passes L start k place address) :
    RunsTo L M start n s ∨ ¬ s.Room M ∧ RunsOut L start n := by
  have h0 := h 0
  obtain ⟨m, output, steps⟩ := p
  by_cases hroom : s.Room M
  · have hsp : ¬ m.sp ≤ m.hp := fun hle => (hm.exhausted_iff hM).mp hle hroom
    refine Or.inl ⟨⟨⟨m, output, steps⟩, ?_, hout, hsteps, hm⟩, hroom, hstored⟩
    rw [Nat.add_zero] at h0
    rw [h0]
    simp [Progress.advance, hsp]
  · have hsp : m.sp ≤ m.hp := (hm.exhausted_iff hM).mpr hroom
    refine Or.inr ⟨hroom, s.output, m.sp, m.hp, ⟨m, output, steps⟩, ?_, hout⟩
    rw [Nat.add_zero] at h0
    rw [h0]
    simp [Progress.advance, hsp]

include hM hL in
theorem RunsTo.step {n : Nat} {s s' : Snapshot} {i : Instr} (h : RunsTo L M start n s)
    (hi : L.Has s.ip [.instr i]) (hd : Does L M K i s s') :
    RunsTo L M start (n + 1) s' ∨ ¬ s'.Room M ∧ RunsOut L start (n + 1) := by
  obtain ⟨⟨⟨m, output, steps⟩, hp, hout, rfl, hm⟩, hroom, hstored⟩ := h
  obtain ⟨signal, m', hstep, hm', hadds⟩ := Does.step hM hL hm hroom hi hd
  have hsp : ¬ m.sp ≤ m.hp := fun hle => (hm.exhausted_iff hM).mp hle hroom
  have hstored' : ∀ place address, (place, address) ∈ s'.stores →
      ∃ k ≤ steps + 1, Passes L start k place address := by
    intro place address hmem
    rcases Does.mem_stores hd hmem with hmem | ⟨rfl, rfl⟩
    · obtain ⟨k, hk, hpass⟩ := hstored place address hmem
      exact ⟨k, Nat.le_succ_of_le hk, hpass⟩
    · exact ⟨steps, Nat.le_succ _, _, hp, hm.ip, hm.hp⟩
  cases signal with
  | halted result => exact hadds.elim
  | quiet =>
    apply runsTo_or_runsOut hM (p := ⟨m', output, steps + 1⟩) ?_ (hout.trans hadds.symm) rfl hm'
      hstored'
    intro k
    rw [Nat.add_assoc, Progress.advance_add hp, Nat.add_comm 1 k]
    simp [Progress.advance, hsp, hstep]
  | printed w =>
    apply runsTo_or_runsOut hM (p := ⟨m', output.push w, steps + 1⟩) ?_ ?_ rfl hm' hstored'
    · intro k
      rw [Nat.add_assoc, Progress.advance_add hp, Nat.add_comm 1 k]
      simp [Progress.advance, hsp, hstep]
    · have hnew : s'.output = s.output ++ [w] := hadds
      simpa [hnew] using hout

/-- A mark changes nothing for the machine. -/
theorem RunsTo.marked {n : Nat} {s : Snapshot} (h : RunsTo L M start n s) {marks : List Mark} :
    RunsTo L M start n { s with marks } := by
  obtain ⟨⟨p, hp, hout, hsteps, hm⟩, hroom, hstored⟩ := h
  exact ⟨⟨p, hp, hout, hsteps, { hm with }⟩, hroom, hstored⟩

include hM hL in
/-- A run of snapshots is a run of the machine, unless the memory is exhausted
on the way. -/
theorem RunsTo.steps {n k : Nat} {s s' : Snapshot} (h : RunsTo L M start n s)
    (hs : Steps L M K k s s') :
    RunsTo L M start (n + k) s' ∨ RunsOut L start (n + k) := by
  induction hs generalizing n with
  | refl s => exact Or.inl h
  | @cons k i s s₁ s' hi hd _ ih =>
    rcases h.step hM hL hi hd with h₁ | ⟨-, output, sp, hp, hends⟩
    · rw [Nat.add_comm k 1, ← Nat.add_assoc]
      exact ih h₁
    · exact Or.inr ⟨output, sp, hp, hends.mono (by omega)⟩
  | mark _ ih => exact ih h.marked

include hM hL in
/-- The machine that halts, which is the one of the snapshot past the last
instruction. -/
theorem RunsTo.halted {n : Nat} {s : Snapshot} (h : RunsTo L M start n s)
    (hi : L.Has s.ip [.instr (.plain .halt)]) {c : Cell} {rest : List Cell}
    (hs : s.stack = c :: rest) :
    ∃ p : Progress, Progress.advance L.code.toArray (n + 1) { machine := start } =
        (p, some (.halted (some (c.toWord M)))) ∧ p.output.toList = s.output ∧
      p.steps = n + 1 ∧ Mirrors M { s with ip := s.ip + 1 } p.machine := by
  obtain ⟨⟨⟨m, output, steps⟩, hp, hout, rfl, hm⟩, hroom, -⟩ := h
  have hsp : ¬ m.sp ≤ m.hp := fun hle => (hm.exhausted_iff hM).mp hle hroom
  obtain ⟨m₁, hstep, h₁⟩ := hm.fetch hL hi
  have hhalt : Machine.step L.code.toArray m = .ok (.halted (some (c.toWord M))) m₁ := by
    rw [hstep]
    simp only [Instr.operation, Machine.execute, Machine.runPlain]
    rw [Machine.get_bind, h₁.top? hM hs]
    rfl
  refine ⟨⟨m₁, output, steps + 1⟩, ?_, hout, rfl, h₁⟩
  rw [Progress.advance_add hp 1]
  simp [Progress.advance, hsp, hhalt]

include hM hL in
theorem RunsTo.halts {n : Nat} {s : Snapshot} (h : RunsTo L M start n s)
    (hi : L.Has s.ip [.instr (.plain .halt)]) {c : Cell} {rest : List Cell}
    (hs : s.stack = c :: rest) :
    EndsWith L start (n + 1) s.output (.halted (some (c.toWord M))) := by
  obtain ⟨p, hp, hout, -⟩ := h.halted hM hL hi hs
  exact ⟨p, hp, hout⟩

include hM hL in
theorem RunsTo.fails {n : Nat} {s : Snapshot} (h : RunsTo L M start n s) {i : Instr}
    (hi : L.Has s.ip [.instr i]) {fault : Fault} (hf : Faults L i s fault) :
    EndsWith L start (n + 1) s.output (.failed fault) := by
  obtain ⟨⟨⟨m, output, steps⟩, hp, hout, rfl, hm⟩, hroom, -⟩ := h
  have hsp : ¬ m.sp ≤ m.hp := fun hle => (hm.exhausted_iff hM).mp hle hroom
  obtain ⟨m', -, hstep, -⟩ := hf.step hM hL hm hroom hi
  refine ⟨⟨m', output, steps + 1⟩, ?_, hout⟩
  rw [Progress.advance_add hp 1]
  simp [Progress.advance, hsp, hstep]

end

/-- What comes next in a run: an instruction that it goes on with, the one that halts it,
or one that fails. -/
inductive Snapshot.Next (L : Listing) (M : Nat) (K : Route) (s : Snapshot) : Prop
  | does {i : Instr} {s' : Snapshot} (hi : L.Has s.ip [.instr i]) (hd : Does L M K i s s')
  | halts {c : Cell} {rest : List Cell} (hi : L.Has s.ip [.instr (.plain .halt)])
    (hs : s.stack = c :: rest)
  | fails {i : Instr} {fault : Fault} (hi : L.Has s.ip [.instr i]) (hf : Faults L i s fault)

/-! Runs from a fresh machine. -/

/-- The snapshot that a run begins with. -/
def Snapshot.initial : Snapshot where
  ip := 0
  stack := []
  heap := []
  fp := .place (.stack 0)
  ra := 0
  tm := .word 0
  output := []
  stores := []
  calls := []
  made := 0
  marks := []

theorem mirrors_fresh {size : Word} (h : 0 ≤ size) :
    Mirrors size.toNatClampNeg .initial (Machine.fresh size) := by
  have hneg : ¬ size < 0 := Int64.not_lt.mpr h
  refine { size := ?_, fits := by simp [Snapshot.initial], ip := rfl, sp := ?_, hp := rfl, fp := ?_,
           ra := rfl, tm := rfl, stack := ?_, heap := ?_, pending := ?_ }
  · simp [Machine.fresh, hneg]
  · simp [Machine.fresh, hneg, Snapshot.initial, Word.ofNat_toNatClampNeg h]
  · have hend : Snapshot.initial.fp.toWord size.toNatClampNeg = size := by
      rw [Snapshot.initial, Cell.toWord, Place.address, Int.add_zero, Int64.ofInt_eq_ofNat,
        Word.ofNat_toNatClampNeg h]
    simp [Machine.fresh, hneg, hend]
  · intro i w hi
    simp [Snapshot.initial] at hi
  · intro i w hi
    simp [Snapshot.initial] at hi
  · intro _ w hw
    cases hw

theorem runsTo_fresh (L : Listing) {size : Word} (h : 0 ≤ size) :
    RunsTo L size.toNatClampNeg (Machine.fresh size) 0 .initial ∨
      ¬ Snapshot.initial.Room size.toNatClampNeg ∧ RunsOut L (Machine.fresh size) 0 := by
  refine runsTo_or_runsOut (Word.toNatClampNeg_lt size)
    (p := { machine := Machine.fresh size }) ?_ rfl rfl (mirrors_fresh h) ?_
  · intro k
    rw [Nat.zero_add]
  · intro place address hmem
    cases hmem

theorem runsTo_initial (L : Listing) (size : Word) :
    RunsTo L size.toNatClampNeg (Machine.fresh size) 0 .initial ∨
      RunsOut L (Machine.fresh size) 0 := by
  by_cases hneg : size < 0
  · refine Or.inr ⟨[], 0, 0, { machine := Machine.fresh size }, ?_, rfl⟩
    simp [Progress.advance, Machine.fresh, hneg]
  · exact (runsTo_fresh L (Int64.not_lt.mp hneg)).imp id And.right

/-- A machine that has room has a size that is not negative. -/
theorem RunsTo.size_nonneg {L : Listing} {size : Word} {start : Machine} {n : Nat} {s : Snapshot}
    (h : RunsTo L size.toNatClampNeg start n s) : 0 ≤ size := by
  have hroom : s.heap.length + s.stack.length < size.toNatClampNeg := h.room
  rw [Int64.toNatClampNeg] at hroom
  rw [Int64.le_iff_toInt_le, Int64.toInt_zero]
  omega

/-- What is reported of a run that ended. -/
def Machine.Ending.report (output : List Word) (steps : Nat) :
    Ending → Except RunError Machine.Outcome
  | .halted result => .ok { output, result, steps }
  | .failed fault => .error (.machine fault)

section

variable {L : Listing} {size : Word} (hc : L.Closed) {n : Nat}

include hc

/-- The text of a closed listing runs as its code. -/
theorem Listing.Closed.runAssembly_eq (limit : Nat) : runAssembly size limit L.text =
    (Machine.run limit L.code.toArray (Machine.fresh size)).2.mapError RunError.machine := by
  simp only [runAssembly, L.assemble_text hc]
  cases (Machine.run limit L.code.toArray (Machine.fresh size)).2 <;> rfl

/-- A run that has ended is reported as it ended. -/
theorem Listing.Closed.runAssembly_of_ended {limit : Nat} {p : Progress} {ending : Machine.Ending}
    (h : Progress.advance L.code.toArray limit { machine := Machine.fresh size } =
      (p, some ending)) :
    runAssembly size limit L.text = ending.report p.output.toList p.steps := by
  rw [hc.runAssembly_eq, Machine.run, h]
  cases ending <;> rfl

/-- A run that has not ended is stopped. -/
theorem Listing.Closed.runAssembly_of_running {limit : Nat} {p : Progress}
    (h : Progress.advance L.code.toArray limit { machine := Machine.fresh size } = (p, none)) :
    runAssembly size limit L.text = .error (.machine (.stepLimit limit)) := by
  rw [hc.runAssembly_eq, Machine.run, h]
  rfl

/-- A run that ends is reported with enough instructions allowed, and with fewer it
may only be stopped. -/
theorem Listing.Closed.runAssembly_ends {output : List Word} {ending : Machine.Ending}
    (h : EndsWith L (Machine.fresh size) n output ending) : ∃ steps,
    (∀ limit, n ≤ limit → runAssembly size limit L.text = ending.report output steps) ∧
    ∀ limit, runAssembly size limit L.text = ending.report output steps ∨
      runAssembly size limit L.text = .error (.machine (.stepLimit limit)) := by
  obtain ⟨p, hp, rfl⟩ := h
  have hlater : ∀ limit, n ≤ limit →
      runAssembly size limit L.text = ending.report p.output.toList p.steps := by
    intro limit hle
    obtain ⟨k, rfl⟩ := Nat.exists_eq_add_of_le hle
    exact hc.runAssembly_of_ended (Progress.advance_ended hp k)
  refine ⟨p.steps, hlater, fun limit => ?_⟩
  rcases Nat.le_total n limit with hle | hle
  · exact Or.inl (hlater limit hle)
  · obtain ⟨k, rfl⟩ := Nat.exists_eq_add_of_le hle
    rcases hq : Progress.advance L.code.toArray limit { machine := Machine.fresh size } with
      ⟨q, ending?⟩
    cases ending? with
    | none => exact Or.inr (hc.runAssembly_of_running hq)
    | some early =>
      -- The run has ended already, and in the same way.
      rw [Progress.advance_ended hq] at hp
      cases hp
      exact Or.inl (hc.runAssembly_of_ended hq)

/-- A run that exhausts the memory within the limit. -/
theorem Listing.Closed.runAssembly_of_runsOut {limit : Nat}
    (h : RunsOut L (Machine.fresh size) n) (hle : n ≤ limit) :
    ∃ sp hp, runAssembly size limit L.text = .error (.machine (.outOfMemory sp hp)) := by
  obtain ⟨output, sp, hp, hends⟩ := h
  obtain ⟨steps, hlater, -⟩ := hc.runAssembly_ends hends
  exact ⟨sp, hp, hlater limit hle⟩

theorem Listing.Closed.runAssembly_of_runsTo {M limit : Nat} {s : Snapshot}
    (h : RunsTo L M (Machine.fresh size) n s) (hle : limit ≤ n) :
    runAssembly size limit L.text = .error (.machine (.stepLimit limit)) := by
  obtain ⟨⟨p, hp, -⟩, -⟩ := h
  rcases hq : Progress.advance L.code.toArray limit { machine := Machine.fresh size } with
    ⟨q, ending?⟩
  cases ending? with
  | none => exact hc.runAssembly_of_running hq
  | some ending =>
    obtain ⟨k, rfl⟩ := Nat.exists_eq_add_of_le hle
    rw [Progress.advance_ended hq] at hp
    cases hp

theorem Listing.Closed.runAssembly_stepLimit {M limit : Nat} {s : Snapshot}
    (h : RunsTo L M (Machine.fresh size) n s) (hlt : limit < n) :
    runAssembly size limit L.text = .error (.machine (.stepLimit limit)) :=
  hc.runAssembly_of_runsTo h (Nat.le_of_lt hlt)

/-- A run is reported as it ends after the next instruction, or it is stopped. -/
theorem Listing.Closed.runAssembly_of_last {M : Nat} {s : Snapshot}
    (h : RunsTo L M (Machine.fresh size) n s) {p : Progress} {ending : Machine.Ending}
    (hp : Progress.advance L.code.toArray (n + 1) { machine := Machine.fresh size } =
      (p, some ending)) (limit : Nat) :
    runAssembly size limit L.text =
      if limit ≤ n then .error (.machine (.stepLimit limit))
      else ending.report p.output.toList p.steps := by
  split
  case isTrue hle => exact hc.runAssembly_of_runsTo h hle
  case isFalse hgt =>
    obtain ⟨k, rfl⟩ := Nat.exists_eq_add_of_le (Nat.lt_of_not_le hgt)
    exact hc.runAssembly_of_ended (Progress.advance_ended hp k)

end

end Classlet
