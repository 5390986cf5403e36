import Classlet.Proofs.Activations

/-!
The heap is written once. Whatever an instruction of generated code does, the words
below the end of the heap stay as they are and the end does not move back: words are
stored only at the end, which moves past them afterwards, and the stack ends above it.
So what is laid out in the heap, dispatch tables and objects alike, is there for the
rest of the run.

A run is told by the machine that it leaves when a number of instructions is allowed,
whether it is over by then or not.
-/

namespace Classlet

namespace Machine

/-- The second machine has the heap of the first one, and maybe more. -/
structure KeepsHeap (m m' : Machine) : Prop where
  hp : m.hp ≤ m'.hp
  words : ∀ a : Word, a < m.hp → m'.word? a = m.word? a

namespace KeepsHeap

variable {m m' m'' : Machine}

theorem refl (m : Machine) : m.KeepsHeap m := ⟨Int64.le_refl m.hp, fun _ _ => rfl⟩

theorem trans (h : m.KeepsHeap m') (h' : m'.KeepsHeap m'') : m.KeepsHeap m'' := by
  refine ⟨Int64.le_trans h.hp h'.hp, fun a ha => ?_⟩
  have hbelow : a < m'.hp := Int64.lt_of_lt_of_le ha h.hp
  rw [h'.words a hbelow, h.words a ha]

end KeepsHeap

/-! What one instruction does to a machine. -/

variable {code : Array Word} {m : Machine}

theorem pop_of_word? {w : Word} (h : m.word? m.sp = some w) :
    pop m = .ok w { m with sp := m.sp + 1 } := by
  unfold pop
  rw [get_bind, bind_ok (read_of_word? h)]
  rfl

/-- A store writes the word below the top of the stack where the top says. -/
theorem step_store {n : Nat} {w : Word} (h : operation? code m.ip = some (.plain .store))
    (htop : m.top? = some (Int64.ofNat n)) (hw : m.stackWord? 1 = some w)
    (hn : n < Word.limit) (hsize : n < m.memory.size) :
    step code m = .ok .quiet { m with
      ip := m.ip + 1, sp := m.sp + 1 + 1, memory := m.memory.setIfInBounds n w } := by
  rw [step_of_operation? h]
  simp only [execute, runPlain]
  rw [bind_ok (pop_of_word? (m := { m with ip := m.ip + 1 }) htop),
    bind_ok (pop_of_word? (m := { m with ip := m.ip + 1, sp := m.sp + 1 }) hw)]
  exact bind_ok (write_ofNat (m := { m with ip := m.ip + 1, sp := m.sp + 1 + 1 }) w hn hsize)

end Machine

open Machine (after? operation?)

/-! Heaps of snapshots. -/

theorem Does.heap_prefix {L : Listing} {M : Nat} {K : Route} {i : Instr} {s s' : Snapshot}
    (h : Does L M K i s s') : s.heap <+: s'.heap := by
  cases h with
  | popHp _ _ => exact List.prefix_append _ _
  | _ => exact List.prefix_refl _

section

variable {M : Nat} {s s' : Snapshot} {m m' : Machine} (hM : M < Word.limit)

include hM

/-- Machines have the heaps of the snapshots that they mirror. -/
theorem Mirrors.keepsHeap (h : Mirrors M s m) (h' : Mirrors M s' m')
    (hs : s.heap <+: s'.heap) : m.KeepsHeap m' := by
  have hfits := h.fits
  have hfits' := h'.fits
  have hle := hs.length_le
  refine ⟨?_, fun a ha => ?_⟩
  · rw [h.hp, h'.hp, Word.ofNat_le_ofNat (by omega) (by omega)]
    exact hle
  · by_cases hneg : a < 0
    · have hindex : Word.index? a = none := by
        rw [Word.index?, if_neg (Int64.not_le.mpr hneg)]
      rw [Machine.word?, Machine.word?, hindex]
      rfl
    · -- An address that is not negative is that of a word of both heaps.
      have hback := Word.ofNat_toNatClampNeg (Int64.not_lt.mp hneg)
      have hlimit := Word.toNatClampNeg_lt a
      have hlt : a.toNatClampNeg < s.heap.length := by
        rw [← hback, h.hp, ← Int64.not_le, Word.ofNat_le_ofNat (by omega) hlimit] at ha
        omega
      have hword := h.heap _ _ (List.getElem?_eq_getElem hlt)
      have hword' := h'.heap a.toNatClampNeg (s.heap[a.toNatClampNeg]) (by
        rw [← List.getElem?_eq_getElem hlt]
        exact (List.prefix_iff_getElem?.mp hs _ hlt).trans (List.getElem?_eq_getElem hlt).symm)
      rw [← hback, Machine.word?_ofNat hlimit hword, Machine.word?_ofNat hlimit hword']

end

section

variable {L : Listing} {M : Nat} {K : Route} {start : Machine} {n : Nat} {s : Snapshot}

/-- Whatever comes next, the heap is kept. -/
theorem RunsTo.keepsHeap_succ (h : RunsTo L M start n s) (hnext : s.Next L M K)
    (hM : M < Word.limit) (hL : L.code.length < Word.limit) :
    (Machine.run n L.code.toArray start).1.KeepsHeap
      (Machine.run (n + 1) L.code.toArray start).1 := by
  obtain ⟨⟨p, hp, -, -, hm⟩, hroom, -⟩ := h
  have hsp : ¬ p.machine.sp ≤ p.machine.hp := fun hle => (hm.exhausted_iff hM).mp hle hroom
  have hnow : (Machine.run n L.code.toArray start).1 = p.machine := by rw [Machine.run, hp]
  rw [hnow, Machine.run_succ hp hsp]
  cases hnext with
  | does hi hd =>
    obtain ⟨signal, m', hstep, hm', -⟩ := Does.step hM hL hm hroom hi hd
    rw [hstep]
    exact hm.keepsHeap hM hm' hd.heap_prefix
  | halts hi _ =>
    obtain ⟨m₁, hstep, hm₁⟩ := hm.fetch hL hi
    have hhalt : Machine.step L.code.toArray p.machine = .ok (.halted m₁.top?) m₁ := hstep
    rw [hhalt]
    exact hm.keepsHeap hM hm₁ (List.prefix_refl _)
  | fails hi hf =>
    obtain ⟨m', rest, hstep, hm'⟩ := hf.step hM hL hm hroom hi
    rw [hstep]
    exact hm.keepsHeap hM hm' (List.prefix_refl _)

end

section

variable {S : Setting} {start : Machine} {t : Ty} (hS : S.Valid t)
  (hL : S.listing.code.length < Word.limit) (hs : RunsTo S.listing S.size start 0 .initial)

include hS hL hs

/-- The heap is kept along a run. -/
theorem Setting.Valid.keepsHeap {j k : Nat} (hle : j ≤ k) :
    (Machine.run j S.listing.code.toArray start).1.KeepsHeap
      (Machine.run k S.listing.code.toArray start).1 := by
  induction hle with
  | refl => exact .refl _
  | @step k _ ih =>
    refine ih.trans ?_
    rcases hp : Machine.Progress.advance S.listing.code.toArray k { machine := start } with
      ⟨p, _ | ending⟩
    · have hgoes : after? S.listing.code.toArray start k ≠ none := by
        rw [after?, hp]
        exact Option.some_ne_none _
      obtain ⟨s, htracks, hnext⟩ := hS.next hL hs hgoes
      exact htracks.runs.keepsHeap_succ hnext hS.size hL
    · have hnow := Machine.run_of_ended hp 0
      have hlater := Machine.run_of_ended hp 1
      rw [Nat.add_zero] at hnow
      rw [hnow, hlater]
      exact .refl _

/-- A store of a run is at the end of the heap. -/
theorem Setting.Valid.stores_at_end {j : Nat} {m : Machine}
    (hm : after? S.listing.code.toArray start j = some m)
    (hstore : operation? S.listing.code.toArray m.ip = some (.plain .store)) :
    m.top? = some m.hp ∧ ∃ w, m.stackWord? 1 = some w ∧
      (Machine.run (j + 1) S.listing.code.toArray start).1.memory =
        m.memory.setIfInBounds m.hp.toNatClampNeg w := by
  have hM := hS.size
  obtain ⟨s, htracks, hnext⟩ := hS.next hL hs (by rw [hm]; exact nofun)
  obtain ⟨⟨p, hp, -, -, hmirrors⟩, hroom, -⟩ := htracks.runs
  obtain rfl : p.machine = m := by
    rw [after?, hp] at hm
    exact Option.some.inj hm
  have hsp : ¬ p.machine.sp ≤ p.machine.hp := fun hle => (hmirrors.exhausted_iff hM).mp hle hroom
  have hop : ∀ i, S.listing.Has s.ip [.instr i] → i.operation = .plain .store := by
    intro i hi
    rw [hmirrors.ip, hi.operation? hL] at hstore
    exact Option.some.inj hstore
  -- No other instruction is a store, and it has the end of the heap on top of the stack.
  have hstack : ∃ c rest, s.stack = .place (.heap s.heap.length) :: c :: rest := by
    cases hnext with
    | halts hi _ => cases hop _ hi
    | fails hi hf => cases hf <;> cases hop _ hi
    | does hi hd =>
      cases hd with
      | store h => exact ⟨_, _, h⟩
      | _ => cases hop _ hi
  obtain ⟨c, rest, hstack⟩ := hstack
  have hlen : s.heap.length + s.stack.length < S.size := hroom
  have hend : p.machine.hp.toNatClampNeg = s.heap.length := by
    rw [hmirrors.hp, Int64.toNatClampNeg, Int64.toInt_ofNat_of_lt (show _ < Word.limit by omega),
      Int.toNat_natCast]
  have htop : p.machine.top? = some (Int64.ofNat s.heap.length) := by
    rw [hmirrors.top? hM hstack, Cell.toWord, Place.address, Int64.ofInt_eq_ofNat]
  have hword : p.machine.stackWord? 1 = some (c.toWord S.size) :=
    hmirrors.stackWord? hM (by rw [hstack]; rfl)
  refine ⟨by rw [htop, hmirrors.hp], _, hword, ?_⟩
  have hsize : s.heap.length < p.machine.memory.size := by
    rw [hmirrors.size]
    omega
  rw [Machine.run_succ hp hsp, Machine.step_store hstore htop hword (by omega) hsize, hend]

end

/-- In every run of a program that compiles without an error, the end of the heap never
moves back, every store is at the end of the heap, and the words below the end of the heap
keep their values for the rest of the run. -/
theorem Program.heap_written_once (p : Program) (o : Options) (hn : p.ids.Nodup)
    (he : (p.compile o).errors = []) {listing : Listing}
    (hl : (p.compile o).listing? = some listing) (hlen : listing.code.length < Word.limit) :
    let machine n := (Machine.run n listing.code.toArray (Machine.fresh o.memorySize)).1
    (∀ j k, j ≤ k → (machine j).KeepsHeap (machine k)) ∧
    ∀ j m, after? listing.code.toArray (Machine.fresh o.memorySize) j = some m →
      operation? listing.code.toArray m.ip = some (.plain .store) →
      m.top? = some m.hp ∧ ∃ w, m.stackWord? 1 = some w ∧
        (machine (j + 1)).memory = m.memory.setIfInBounds m.hp.toNatClampNeg w := by
  intro machine
  obtain ⟨listing', t, hp, ht, hl', -, hlisting⟩ := p.clean o hn he
  obtain rfl : listing = listing' := Option.some.inj (hl.symm.trans hl')
  rcases runsTo_initial listing o.memorySize with hstart | ⟨output, sp, hp, hends⟩
  · have hS := Program.setting_valid hn hp ht hlisting hstart.size_nonneg
    exact ⟨fun j k hle => hS.keepsHeap hlen hstart hle,
      fun j m hm hstore => hS.stores_at_end hlen hstart hm hstore⟩
  · -- Without memory the run ends before its first instruction.
    refine ⟨fun j k hle => ?_, fun j m hm _ => ?_⟩
    · obtain ⟨q, hq, -⟩ := hends
      have hj := Machine.run_of_ended hq j
      have hk := Machine.run_of_ended hq k
      rw [Nat.zero_add] at hj hk
      show Machine.KeepsHeap (Machine.run j _ _).1 (Machine.run k _ _).1
      rw [hj, hk]
      exact .refl _
    · exact absurd (hm.symm.trans (hends.after? (Nat.zero_le j))) nofun

/-- Moments of a run in a small memory: the last word of an object is stored, and later
there are four words in the heap. -/
theorem overrideProgram_stores : (overrideProgram.compile { memorySize := 60 }).errors = [] ∧
    (overrideProgram.compile { memorySize := 60 }).listing?.all fun l =>
      l.code.length < Word.limit ∧
      ((after? l.code.toArray (Machine.fresh 60) 28).bind fun m =>
        operation? l.code.toArray m.ip) = some (.plain .store) ∧
      (Machine.run 34 l.code.toArray (Machine.fresh 60)).1.hp = 4 := by
  constructor <;> decide +kernel

/-- The last word of the object is stored at the end of the heap, and the tables and the
object are still there when the run has halted. -/
theorem overrideProgram_heap : ∃ listing,
    (overrideProgram.compile { memorySize := 60 }).listing? = some listing ∧
    (∃ m, after? listing.code.toArray (Machine.fresh 60) 28 = some m ∧ m.top? = some m.hp ∧
      ∃ w, m.stackWord? 1 = some w ∧
        (Machine.run 29 listing.code.toArray (Machine.fresh 60)).1.memory =
          m.memory.setIfInBounds m.hp.toNatClampNeg w) ∧
    ∀ a : Word, a < 4 → (Machine.run 93 listing.code.toArray (Machine.fresh 60)).1.word? a =
      (Machine.run 34 listing.code.toArray (Machine.fresh 60)).1.word? a := by
  obtain ⟨he, hall⟩ := overrideProgram_stores
  obtain ⟨listing, t, hl, -⟩ := overrideProgram.compiled { memorySize := 60 } overrideProgram_ids he
  rw [hl, Option.all_some, decide_eq_true_iff] at hall
  obtain ⟨hlen, hstore, hhp⟩ := hall
  obtain ⟨m, hm, hop⟩ := Option.bind_eq_some_iff.mp hstore
  obtain ⟨hkeeps, hstores⟩ :=
    overrideProgram.heap_written_once { memorySize := 60 } overrideProgram_ids he hl hlen
  refine ⟨listing, hl, ⟨m, hm, hstores 28 m hm hop⟩, fun a ha => ?_⟩
  exact (hkeeps 34 93 (by decide)).words a (by rwa [hhp])

end Classlet
