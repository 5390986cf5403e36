import Classlet.Proofs.Run
import Mathlib.Data.List.Forall2

/-!
The calls in a run of the machine. There is one instruction, `js`, for calls and for
returns; before a return the return address is pushed. So the code tells which calls
have not returned at each moment of a run.

A run of snapshots remembers its calls and some of its moments. What it remembers is
true of the run of the machine: the calls it remembers are those that have not
returned, and the machine has been at each moment that was marked.
-/

namespace Classlet

namespace Machine

/-- What a `js` is for. -/
inductive Transfer where
  | call
  | leave
deriving DecidableEq

/-- The operation whose code word is at an address. -/
def operation? (code : Array Word) (address : Word) : Option Operation :=
  ((Word.index? address).bind fun i => code[i]?).bind Operation.ofWord?

/-- What the next instruction is for, if it is a `js`. -/
def transfer? (code : Array Word) (m : Machine) : Option Transfer :=
  if operation? code m.ip = some (.plain .call) then
    if operation? code (m.ip - 1) = some (.plain (.pushReg .ra)) then some .leave else some .call
  else none

/-- The word that is the given number of words above the top of the stack. -/
def stackWord? (m : Machine) (i : Nat) : Option Word := m.word? (m.sp + Int64.ofNat i)

/-- The word at one address is another address, and so on, the given number of times. -/
def climb? (m : Machine) : Nat → Word → Option Word
  | 0, a => some a
  | n + 1, a => (m.word? a).bind (m.climb? n)

/-- The access link of a call that is made in the frame of the machine. -/
def link? (m : Machine) (source : LinkSource) : Option Word := do
  let outer ← m.climb? source.distance m.fp
  match source.offset? with
  | none => some outer
  | some offset => m.word? (outer + Int64.ofInt offset)

section

variable (code : Array Word) (start : Machine)

/-- The machine after `n` instructions, if the run has not ended by then. -/
def after? (n : Nat) : Option Machine :=
  match Progress.advance code n { machine := start } with
  | (p, none) => some p.machine
  | (_, some _) => none

/-- What the instruction after the first `n` is for, if it is a `js`. -/
def transferAt? (n : Nat) : Option Transfer := (after? code start n).bind (transfer? code)

/-- The calls that have not returned after `n` instructions, the last one first. A call
is told by the number of instructions before it. -/
def openCalls : Nat → List Nat
  | 0 => []
  | n + 1 =>
    match transferAt? code start n with
    | some .call => n :: openCalls n
    | some .leave => (openCalls n).tail
    | none => openCalls n

/-- How many of the first `n` instructions are calls. -/
def callCount : Nat → Nat
  | 0 => 0
  | n + 1 => if transferAt? code start n = some .call then callCount n + 1 else callCount n

end

section

variable {code : Array Word} {start : Machine} {m n k : Nat}

/-- The next instruction carries out the operation at the instruction pointer. -/
theorem step_of_operation? {o : Operation} {x : Machine} (h : operation? code x.ip = some o) :
    step code x = execute code x.ip o { x with ip := x.ip + 1 } := by
  obtain ⟨w, hw, ho⟩ := Option.bind_eq_some_iff.mp h
  have hfetch : codeAt code x.ip x = .ok w x := by
    rw [codeAt, hw]
    rfl
  unfold step
  rw [get_bind, bind_ok hfetch]
  simp only [ho]
  rfl

theorem after?_of_succ (h : after? code start (n + 1) ≠ none) : after? code start n ≠ none := by
  intro hnone
  apply h
  unfold after? at hnone ⊢
  rcases hp : Progress.advance code n { machine := start } with ⟨p, _ | ending⟩
  · rw [hp] at hnone
    cases hnone
  · rw [Progress.advance_ended hp 1]

theorem after?_ne_none {x : Transfer} (h : transferAt? code start n = some x) :
    after? code start n ≠ none := by
  intro hnone
  rw [transferAt?, hnone] at h
  cases h

theorem callCount_succ_of_call (h : transferAt? code start n = some .call) :
    callCount code start (n + 1) = callCount code start n + 1 := if_pos h

theorem callCount_mono (h : m ≤ n) : callCount code start m ≤ callCount code start n := by
  induction h with
  | refl => exact Nat.le_refl _
  | step _ ih =>
    rw [Nat.succ_eq_add_one, callCount]
    split <;> omega

/-- Calls are numbered in the order in which they are made. -/
theorem callCount_lt (h : transferAt? code start m = some .call) (hlt : m < n) :
    callCount code start m < callCount code start n := by
  have hnext := callCount_succ_of_call h
  have hle : callCount code start (m + 1) ≤ callCount code start n := callCount_mono hlt
  omega

theorem callCount_inj (hm : transferAt? code start m = some .call)
    (hn : transferAt? code start n = some .call)
    (h : callCount code start m = callCount code start n) : m = n := by
  rcases Nat.lt_trichotomy m n with hlt | heq | hgt
  · have := callCount_lt hm hlt
    omega
  · exact heq
  · have := callCount_lt hn hgt
    omega

theorem mem_openCalls (h : k ∈ openCalls code start n) :
    k < n ∧ transferAt? code start k = some .call := by
  induction n with
  | zero => cases h
  | succ n ih =>
    have hold : k ∈ openCalls code start n → k < n + 1 ∧ transferAt? code start k = some .call :=
      fun hk => ⟨Nat.lt_succ_of_lt (ih hk).1, (ih hk).2⟩
    unfold openCalls at h
    split at h
    · rename_i hcall
      rcases List.mem_cons.mp h with heq | hk
      · rw [heq]
        exact ⟨Nat.lt_succ_self n, hcall⟩
      · exact hold hk
    · exact hold (List.mem_of_mem_tail h)
    · exact hold h

/-- Below a call that has not returned are those that had not returned when it was
made. -/
theorem openCalls_below {above below : List Nat}
    (h : openCalls code start n = above ++ k :: below) : below = openCalls code start k := by
  induction n generalizing above with
  | zero => simp [openCalls] at h
  | succ n ih =>
    unfold openCalls at h
    split at h
    · cases above with
      | nil =>
        rw [List.nil_append, List.cons.injEq] at h
        rw [← h.1, h.2]
      | cons a above =>
        rw [List.cons_append, List.cons.injEq] at h
        exact ih h.2
    · cases hopen : openCalls code start n with
      | nil => simp [hopen] at h
      | cons last rest =>
        rw [hopen, List.tail_cons] at h
        exact @ih (last :: above) (by rw [hopen, h, List.cons_append])
    · exact ih h

/-- The numbers of some calls tell the calls. -/
theorem eq_of_map_callCount {xs ys : List Nat}
    (hx : ∀ k ∈ xs, transferAt? code start k = some .call)
    (hy : ∀ k ∈ ys, transferAt? code start k = some .call)
    (h : xs.map (callCount code start) = ys.map (callCount code start)) : xs = ys := by
  induction xs generalizing ys with
  | nil =>
    cases ys with
    | nil => rfl
    | cons y ys => cases h
  | cons x xs ih =>
    cases ys with
    | nil => cases h
    | cons y ys =>
      rw [List.map_cons, List.map_cons, List.cons.injEq] at h
      have hhead := callCount_inj (hx x List.mem_cons_self) (hy y List.mem_cons_self) h.1
      have htail := ih (fun k hk => hx k (List.mem_cons_of_mem _ hk))
        (fun k hk => hy k (List.mem_cons_of_mem _ hk)) h.2
      rw [hhead, htail]

theorem openCalls_eq (h : (openCalls code start m).map (callCount code start) =
    (openCalls code start n).map (callCount code start)) :
    openCalls code start m = openCalls code start n :=
  eq_of_map_callCount (fun _ hk => (mem_openCalls hk).2) (fun _ hk => (mem_openCalls hk).2) h

end

end Machine

open Machine (Progress openCalls callCount transferAt?)

/-! What the machine has of a snapshot. -/

section

variable {M : Nat} {s s' : Snapshot} {m m' : Machine} (hM : M < Word.limit)

include hM in
theorem Mirrors.stackWord? (h : Mirrors M s m) {i : Nat} {c : Cell}
    (hi : s.stack[i]? = some c) : m.stackWord? i = some (c.toWord M) := by
  have hfits := h.fits
  have hlt := (List.getElem?_eq_some_iff.mp hi).1
  rw [Machine.stackWord?, h.sp, ← Int64.ofNat_add]
  exact Machine.word?_ofNat (by omega) (h.stack i c hi)

include hM in
theorem Mirrors.climb? (h : Mirrors M s m) {n : Nat} {p q : Place} (hc : s.Climbs n p q) :
    m.climb? n (Int64.ofInt (p.address M)) = some (Int64.ofInt (q.address M)) := by
  induction n generalizing p with
  | zero =>
    have heq : p = q := hc
    rw [heq]
    rfl
  | succ n ih =>
    obtain ⟨r, hword, hrest⟩ := hc
    rw [Machine.climb?, h.word? hM hword, Option.bind_some]
    exact ih hrest

include hM in
/-- The machine has the access link of a call where the call finds it. -/
theorem Mirrors.link? (h : Mirrors M s m) {source : LinkSource} {c : Cell}
    (hc : s.FindsLink source c) : m.link? source = some (c.toWord M) := by
  obtain ⟨distance, offset?⟩ := source
  obtain ⟨frame, outer, hframe, hclimbs, hc⟩ := hc
  have houter : m.climb? distance m.fp = some (Int64.ofInt (outer.address M)) := by
    rw [h.fp, hframe]
    exact h.climb? hM hclimbs
  simp only [Machine.link?, houter, Option.bind_eq_bind, Option.bind_some]
  cases offset? with
  | none => exact congrArg (fun c => some (Cell.toWord M c)) hc.symm
  | some offset =>
    show m.word? (Int64.ofInt (outer.address M) + Int64.ofInt offset) = some (c.toWord M)
    rw [← Int64.ofInt_add, ← Place.address_shift]
    exact h.word? hM hc

/-- The bottom of the stack is at the end of the memory. -/
theorem Mirrors.memory_of_suffix (h : Mirrors M s m) {rest : List Cell} (hs : rest <:+ s.stack)
    {j : Nat} {c : Cell} (hj : rest[j]? = some c) :
    m.memory[M - rest.length + j]? = some (c.toWord M) := by
  obtain ⟨above, habove⟩ := hs
  have hfits := h.fits
  have hlen : s.stack.length = above.length + rest.length := by
    rw [← habove, List.length_append]
  have hword := h.stack (above.length + j) c (by
    rw [← habove, List.getElem?_append_right (Nat.le_add_right _ _), Nat.add_sub_cancel_left, hj])
  have hplace : M - s.stack.length + (above.length + j) = M - rest.length + j := by omega
  rw [← hplace]
  exact hword

/-- Where two snapshots have the same at the bottom of the stack, the machines do. -/
theorem Mirrors.word?_congr (h : Mirrors M s m) (h' : Mirrors M s' m') {rest : List Cell}
    (hs : rest <:+ s.stack) (hs' : rest <:+ s'.stack) {a : Word}
    (ha : (M : Int) - rest.length ≤ a.toInt) : m'.word? a = m.word? a := by
  have hlen : rest.length ≤ M := by
    have hfits := h.fits
    have hle := hs.length_le
    omega
  have hindex : Word.index? a = some a.toNatClampNeg := by
    have hnonneg : (0 : Word) ≤ a := by
      rw [Int64.le_iff_toInt_le, Int64.toInt_zero]
      omega
    rw [Word.index?, if_pos hnonneg]
  have hplace : M - rest.length ≤ a.toNatClampNeg := by
    rw [Int64.toNatClampNeg]
    omega
  rw [Machine.word?, Machine.word?, hindex, Option.bind_some, Option.bind_some]
  -- Within the memory the address is that of a word in the common part.
  by_cases hlt : a.toNatClampNeg < M
  · have hj : rest[a.toNatClampNeg - (M - rest.length)]? =
        some (rest[a.toNatClampNeg - (M - rest.length)]) := List.getElem?_eq_getElem (by omega)
    have hback : M - rest.length + (a.toNatClampNeg - (M - rest.length)) = a.toNatClampNeg := by
      omega
    have hword := h.memory_of_suffix hs hj
    have hword' := h'.memory_of_suffix hs' hj
    rw [hback] at hword hword'
    rw [hword, hword']
  · rw [Array.getElem?_eq_none (by rw [h'.size]; omega),
      Array.getElem?_eq_none (by rw [h.size]; omega)]

end

/-! Runs of snapshots and the calls in them. -/

section

variable {L : Listing} {M : Nat} {K : Route} {start : Machine} {n : Nat} {s s' : Snapshot}

theorem RunsTo.after? (h : RunsTo L M start n s) :
    ∃ m, Machine.after? L.code.toArray start n = some m ∧ Mirrors M s m := by
  obtain ⟨p, hp, -, -, hm⟩ := h.state
  refine ⟨p.machine, ?_, hm⟩
  rw [Machine.after?, hp]

theorem EndsWith.after? {output : List Word} {ending : Machine.Ending} {k : Nat}
    (h : EndsWith L start n output ending) (hk : n ≤ k) :
    Machine.after? L.code.toArray start k = none := by
  obtain ⟨p, hp, -⟩ := h.mono hk
  rw [Machine.after?, hp]

variable (hL : L.code.length < Word.limit)

include hL

theorem Listing.Has.operation? {pos : Nat} {i : Instr} (h : L.Has pos [.instr i]) :
    Machine.operation? L.code.toArray (Int64.ofNat pos) = some i.operation := by
  have hword : (i.words L.address)[0]? = some i.operation.toWord := by cases i <;> rfl
  have hcode := h.code_getElem? hword
  rw [Nat.add_zero] at hcode
  have hlt := (List.getElem?_eq_some_iff.mp hcode).1
  rw [Machine.operation?, Word.index?_ofNat (by omega), Option.bind_some, List.getElem?_toArray,
    hcode, Option.bind_some, Operation.ofWord?_toWord]

theorem RunsTo.transferAt?_of_ne (h : RunsTo L M start n s) {i : Instr}
    (hi : L.Has s.ip [.instr i]) (hne : i ≠ .plain .call) :
    transferAt? L.code.toArray start n = none := by
  obtain ⟨m, hm, hmirrors⟩ := h.after?
  have hop : i.operation ≠ .plain .call := by
    intro heq
    cases i with
    | plain op =>
      cases heq
      exact hne rfl
    | push w => cases heq
    | pushLabel l => cases heq
    | jump test l => cases heq
  rw [transferAt?, hm, Option.bind_some, Machine.transfer?, hmirrors.ip, hi.operation? hL, if_neg]
  intro heq
  exact hop (Option.some.inj heq)

/-- The instruction before a `js` tells what it is for. -/
theorem RunsTo.transferAt?_of_call (h : RunsTo L M start n s) {op : PlainOp}
    (hcode : ∃ before, s.ip = before + 1 ∧ L.Has before (Code.instrs [.plain op, .plain .call])) :
    transferAt? L.code.toArray start n =
      if op = .pushReg .ra then some .leave else some .call := by
  obtain ⟨m, hm, hmirrors⟩ := h.after?
  obtain ⟨before, hip, hhas⟩ := hcode
  have hfirst : L.Has before [.instr (.plain op)] :=
    Listing.Has.left (b := [.instr (.plain .call)]) hhas
  have hsecond : L.Has (before + 1) [.instr (.plain .call)] :=
    Listing.Has.right (a := [.instr (.plain op)]) hhas
  have hback : m.ip - 1 = Int64.ofNat before := by
    rw [hmirrors.ip, hip, Word.ofNat_sub_one (Nat.zero_lt_succ before)]
    rfl
  rw [transferAt?, hm, Option.bind_some, Machine.transfer?, hback, hmirrors.ip, hip,
    hsecond.operation? hL, hfirst.operation? hL]
  simp [Instr.operation]

end

/-- The run of the machine has been at the moment that was marked. -/
def Mark.Passed (L : Listing) (M : Nat) (start : Machine) (n : Nat) (mark : Mark) : Prop :=
  ∃ k ≤ n, ∃ s, RunsTo L M start k s ∧ s.ip = mark.ip ∧ s.stack = mark.stack ∧
    (openCalls L.code.toArray start k).map (callCount L.code.toArray start) = mark.within

/-- The run is at a snapshot after `n` instructions, and has been at the moments that
were marked. -/
structure Recalls (L : Listing) (M : Nat) (start : Machine) (n : Nat) (s : Snapshot) : Prop where
  runs : RunsTo L M start n s
  within : s.within = (openCalls L.code.toArray start n).map (callCount L.code.toArray start)
  marks : ∀ mark ∈ s.marks, mark.Passed L M start n

/-- A call that a snapshot remembers was made after `k` instructions. -/
def Activation.MadeAt (L : Listing) (M : Nat) (K : Route) (start : Machine) (a : Activation)
    (k : Nat) : Prop :=
  a.serial = callCount L.code.toArray start k ∧ ∃ s target link args, Recalls L M start k s ∧
    CallsAt L K s target a.stop link args a.rest ∧ a.fp = s.fp ∧ a.back = s.ip + 1

/-- What the snapshot remembers is true of the run. -/
structure Tracks (L : Listing) (M : Nat) (K : Route) (start : Machine) (n : Nat)
    (s : Snapshot) : Prop where
  runs : RunsTo L M start n s
  made : s.made = callCount L.code.toArray start n
  calls : List.Forall₂ (Activation.MadeAt L M K start) s.calls (openCalls L.code.toArray start n)
  marks : ∀ mark ∈ s.marks, mark.Passed L M start n

section

variable {L : Listing} {M : Nat} {K : Route} {start : Machine} {n : Nat} {s s' : Snapshot}

theorem Mark.Passed.mono {mark : Mark} {k : Nat} (h : mark.Passed L M start n) (hle : n ≤ k) :
    mark.Passed L M start k := by
  obtain ⟨j, hj, h⟩ := h
  exact ⟨j, Nat.le_trans hj hle, h⟩

theorem Tracks.initial (h : RunsTo L M start 0 .initial) :
    Tracks L M K start 0 .initial where
  runs := h
  made := rfl
  calls := .nil
  marks := by simp [Snapshot.initial]

theorem map_serial_of_madeAt {activations : List Activation} {ks : List Nat}
    (h : List.Forall₂ (Activation.MadeAt L M K start) activations ks) :
    activations.map Activation.serial = ks.map (callCount L.code.toArray start) := by
  induction h with
  | nil => rfl
  | cons ha _ ih => rw [List.map_cons, List.map_cons, ha.1, ih]

/-- The calls that a snapshot remembers are those of the run that have not returned. -/
theorem Tracks.recalls (h : Tracks L M K start n s) : Recalls L M start n s :=
  ⟨h.runs, map_serial_of_madeAt h.calls, h.marks⟩

/-- A moment may be marked at any time. -/
theorem Tracks.mark (h : Tracks L M K start n s) :
    Tracks L M K start n { s with marks := s.marks ++ [s.mark] } := by
  refine ⟨h.runs.marked, h.made, h.calls, fun mark hmark => ?_⟩
  rcases List.mem_append.mp hmark with hold | hnew
  · exact h.marks mark hold
  · rw [List.mem_singleton.mp hnew]
    exact ⟨n, Nat.le_refl n, s, h.runs, rfl, rfl, h.recalls.within.symm⟩

variable (hL : L.code.length < Word.limit)

include hL

/-- One more instruction, of which the snapshot remembers what the machine does. -/
theorem Tracks.step {i : Instr} (h : Tracks L M K start n s) (hi : L.Has s.ip [.instr i])
    (hd : Does L M K i s s') (hruns : RunsTo L M start (n + 1) s') :
    Tracks L M K start (n + 1) s' := by
  have hmarks : s'.marks = s.marks := by cases hd <;> rfl
  have hpassed : ∀ mark ∈ s'.marks, mark.Passed L M start (n + 1) := by
    intro mark hmark
    rw [hmarks] at hmark
    exact (h.marks mark hmark).mono (Nat.le_succ n)
  have hother : i ≠ .plain .call → s'.calls = s.calls → s'.made = s.made →
      Tracks L M K start (n + 1) s' := by
    intro hne hcalls hmade
    have hnone := h.runs.transferAt?_of_ne hL hi hne
    refine ⟨hruns, ?_, ?_, hpassed⟩
    · rw [hmade, h.made, callCount, if_neg (by rw [hnone]; exact nofun)]
    · rw [hcalls, openCalls, hnone]
      exact h.calls
  cases hd with
  | @call _ target stop link args rest hcall =>
    have hcode : transferAt? L.code.toArray start n = some .call := by
      rw [h.runs.transferAt?_of_call hL hcall.code, if_neg nofun]
    refine ⟨hruns, ?_, ?_, hpassed⟩
    · rw [Machine.callCount_succ_of_call hcode, ← h.made]
    · rw [openCalls, hcode]
      exact .cons ⟨h.made, s, target, link, args, h.recalls, hcall, rfl, rfl⟩ h.calls
  | @leave _ a calls v hleave =>
    have hcode : transferAt? L.code.toArray start n = some .leave := by
      rw [h.runs.transferAt?_of_call hL hleave.code, if_pos rfl]
    have hcalls := h.calls
    rw [hleave.calls] at hcalls
    refine ⟨hruns, ?_, ?_, hpassed⟩
    · rw [callCount, if_neg (by rw [hcode]; exact nofun)]
      exact h.made
    · rw [openCalls, hcode]
      cases hopen : openCalls L.code.toArray start n with
      | nil => simp [hopen] at hcalls
      | cons k below =>
        rw [hopen] at hcalls
        exact (List.forall₂_cons.mp hcalls).2
  | _ => exact hother nofun rfl rfl

/-- A run of snapshots is tracked to its end, unless the memory is exhausted on the way. -/
theorem Tracks.steps (hM : M < Word.limit) {k : Nat} (h : Tracks L M K start n s)
    (hs : Steps L M K k s s') : Tracks L M K start (n + k) s' ∨ RunsOut L start (n + k) := by
  induction hs generalizing n with
  | refl s => exact Or.inl h
  | @cons k i s s₁ s' hi hd _ ih =>
    rcases h.runs.step hM hL hi hd with hruns | ⟨-, output, sp, hp, hends⟩
    · rw [Nat.add_comm k 1, ← Nat.add_assoc]
      exact ih (h.step hL hi hd hruns)
    · exact Or.inr ⟨output, sp, hp, hends.mono (by omega)⟩
  | mark _ ih => exact ih h.mark

/-- A run of snapshots is tracked at every moment before its end, as long as the run of
the machine goes on. -/
theorem Tracks.along (hM : M < Word.limit) {k j : Nat} (h : Tracks L M K start n s)
    (hs : Steps L M K k s s') (hle : n ≤ j) (hlt : j < n + k)
    (hgoes : Machine.after? L.code.toArray start j ≠ none) :
    ∃ s₀ s₁ i, Tracks L M K start j s₀ ∧ L.Has s₀.ip [.instr i] ∧ Does L M K i s₀ s₁ := by
  induction hs generalizing n with
  | refl s => omega
  | @cons k i s s₁ s' hi hd hs ih =>
    by_cases hj : j = n
    · rw [hj]
      exact ⟨s, s₁, i, h, hi, hd⟩
    · rcases h.runs.step hM hL hi hd with hruns | ⟨-, output, sp, hp, hends⟩
      · exact ih (h.step hL hi hd hruns) (by omega) (by omega)
      · exact absurd (hends.after? (by omega)) hgoes
  | mark _ ih => exact ih h.mark hle hlt

end

end Classlet
