import Classlet.Proofs.Snapshot
import Classlet.Proofs.Words

/-!
One instruction of the machine does what the rules for snapshots say. A machine
mirrors a snapshot if its memory has the stack at its upper end and the heap at its
lower end; every instruction keeps this as long as there is room between the two
before it.
-/

namespace Classlet

/-! The code words of an instruction. -/

theorem Listing.Has.code_getElem? {L : Listing} {pos : Nat} {i : Instr}
    (h : L.Has pos [.instr i]) {k : Nat} {w : Word} (hk : (i.words L.address)[k]? = some w) :
    L.code[pos + k]? = some w := by
  obtain ⟨before, after, hL, rfl⟩ := h
  have hlt := (List.getElem?_eq_some_iff.mp hk).1
  rw [@Listing.code_split L before after (.instr i) hL, List.append_assoc,
    ← Line.length_flatMap_words L.address before, List.getElem?_append_right (by omega),
    Nat.add_sub_cancel_left]
  exact (List.getElem?_append_left hlt).trans hk

/-! Machines and snapshots. -/

/-- The machine has the registers of the snapshot, and its stack and heap in
memory. A pending word is only safe as long as there is room. -/
structure Mirrors (M : Nat) (s : Snapshot) (m : Machine) : Prop where
  size : m.memory.size = M
  fits : s.heap.length + s.stack.length ≤ M
  ip : m.ip = Int64.ofNat s.ip
  sp : m.sp = Int64.ofNat (M - s.stack.length)
  hp : m.hp = Int64.ofNat s.heap.length
  fp : m.fp = s.fp.toWord M
  ra : m.ra = s.ra
  tm : m.tm = s.tm.toWord M
  stack : ∀ (i : Nat) c, s.stack[i]? = some c →
    m.memory[M - s.stack.length + i]? = some (c.toWord M)
  heap : ∀ (i : Nat) c, s.heap[i]? = some c → m.memory[i]? = some (c.toWord M)
  pending : s.Room M → ∀ c, s.pending = some c → m.memory[s.heap.length]? = some (c.toWord M)

namespace Machine

theorem bind_ok {α β : Type} {x : Action α} {f : α → Action β} {m m' : Machine} {a : α}
    (h : x m = .ok a m') : (x >>= f) m = f a m' := by
  simp [bind, EStateM.bind, h]

theorem get_bind {β : Type} {f : Machine → Action β} {m : Machine} :
    ((get : Action Machine) >>= f) m = f m m := rfl

theorem bind_error {α β : Type} {x : Action α} {f : α → Action β} {m m' : Machine} {e : Fault}
    (h : x m = .error e m') : (x >>= f) m = .error e m' := by
  simp [bind, EStateM.bind, h]

theorem codeAt_ofNat {code : Array Word} {n : Nat} {w : Word} (hn : n < Word.limit)
    (h : code[n]? = some w) (m : Machine) : codeAt code (Int64.ofNat n) m = .ok w m := by
  simp only [codeAt, Word.index?_ofNat hn, Option.bind_some, h]
  rfl

theorem word?_ofNat {m : Machine} {n : Nat} {w : Word} (hn : n < Word.limit)
    (h : m.memory[n]? = some w) : m.word? (Int64.ofNat n) = some w := by
  simp [word?, Word.index?_ofNat hn, h]

theorem read_of_word? {m : Machine} {a w : Word} (h : m.word? a = some w) :
    read a m = .ok w m := by
  change EStateM.run (read a) m = _
  simp only [read, EStateM.run_bind, EStateM.run_get, h, EStateM.run_pure]

theorem write_ofNat {m : Machine} {n : Nat} (w : Word) (hn : n < Word.limit)
    (h : n < m.memory.size) :
    write (Int64.ofNat n) w m =
      .ok () { m with memory := m.memory.setIfInBounds n w } := by
  change EStateM.run (write (Int64.ofNat n) w) m = _
  simp only [write, EStateM.run_bind, EStateM.run_get, Word.index?_ofNat hn, h, if_true,
    EStateM.run_set]

end Machine

section

variable {M : Nat} {s : Snapshot} {m : Machine} (hM : M < Word.limit)

include hM in
/-- The stack has met the heap just if there is no room. -/
theorem Mirrors.exhausted_iff (h : Mirrors M s m) : m.sp ≤ m.hp ↔ ¬ s.Room M := by
  have hfits := h.fits
  rw [h.sp, h.hp, Word.ofNat_le_ofNat (by omega) (by omega), Snapshot.Room]
  omega

theorem Mirrors.moveIp (h : Mirrors M s m) (n : Nat) :
    Mirrors M { s with ip := n } { m with ip := Int64.ofNat n } :=
  { h with ip := rfl }

include hM in
theorem Mirrors.pop (h : Mirrors M s m) (hroom : s.Room M) {c : Cell} {rest : List Cell}
    (hs : s.stack = c :: rest) :
    ∃ m', Machine.pop m = .ok (c.toWord M) m' ∧ Mirrors M { s with stack := rest } m' := by
  have hfits := h.fits
  have hlen : s.stack.length = rest.length + 1 := by rw [hs]; rfl
  have htop : m.memory[M - s.stack.length]? = some (c.toWord M) := by
    have h0 := h.stack 0 c (by rw [hs]; rfl)
    simpa using h0
  have hread : Machine.read m.sp m = .ok (c.toWord M) m := by
    rw [h.sp]
    exact Machine.read_of_word? (Machine.word?_ofNat (by omega) htop)
  refine ⟨{ m with sp := m.sp + 1 }, ?_,
    { h with fits := ?_, sp := ?_, stack := ?_, pending := ?_ }⟩
  · unfold Machine.pop
    rw [Machine.get_bind, Machine.bind_ok hread]
    rfl
  · simp only
    omega
  · simp only
    rw [h.sp, Word.ofNat_add_one]
    congr 1
    omega
  · intro i v hi
    have hi' := h.stack (i + 1) v (by rw [hs]; exact hi)
    rw [← hi']
    congr 1
    simp only
    omega
  · intro _
    exact h.pending hroom

include hM in
theorem Mirrors.top? (h : Mirrors M s m) {c : Cell} {rest : List Cell} (hs : s.stack = c :: rest) :
    m.top? = some (c.toWord M) := by
  have hfits := h.fits
  have htop := h.stack 0 c (by rw [hs]; rfl)
  simp only [Machine.top?, Machine.word?, h.sp]
  rw [Word.index?_ofNat (by omega)]
  simpa using htop

theorem Snapshot.Room.tail (hroom : s.Room M) {c : Cell} {rest : List Cell}
    (hs : s.stack = c :: rest) : Snapshot.Room M { s with stack := rest } := by
  simp only [Snapshot.Room, hs, List.length_cons] at hroom ⊢
  omega

include hM in
theorem Mirrors.pop_two (h : Mirrors M s m) (hroom : s.Room M) {a b : Cell} {rest : List Cell}
    (hs : s.stack = b :: a :: rest) :
    ∃ m₁ m₂, Machine.pop m = .ok (b.toWord M) m₁ ∧ Machine.pop m₁ = .ok (a.toWord M) m₂ ∧
      Mirrors M { s with stack := rest } m₂ ∧ Snapshot.Room M { s with stack := rest } := by
  obtain ⟨m₁, hpop, h₁⟩ := h.pop hM hroom hs
  obtain ⟨m₂, hpop', h₂⟩ := h₁.pop hM (hroom.tail hs) rfl
  exact ⟨m₁, m₂, hpop, hpop', h₂, (hroom.tail hs).tail rfl⟩

include hM in
theorem Mirrors.push (h : Mirrors M s m) (hroom : s.Room M) (c : Cell) :
    ∃ m', Machine.push (c.toWord M) m = .ok () m' ∧
      Mirrors M { s with stack := c :: s.stack } m' := by
  have hlt : s.heap.length + s.stack.length < M := hroom
  have hsp : m.sp - 1 = Int64.ofNat (M - s.stack.length - 1) := by
    rw [h.sp, Word.ofNat_sub_one (by omega)]
  have hsize := h.size
  have hwrite := Machine.write_ofNat (m := m) (c.toWord M) (n := M - s.stack.length - 1) (by omega)
    (by omega)
  refine ⟨{ m with memory := m.memory.setIfInBounds (M - s.stack.length - 1) (c.toWord M)
                   sp := Int64.ofNat (M - s.stack.length - 1) }, ?_,
    { h with size := ?_, fits := ?_, sp := ?_, stack := ?_, heap := ?_, pending := ?_ }⟩
  · unfold Machine.push
    rw [Machine.get_bind, hsp, Machine.bind_ok hwrite]
    rfl
  · simpa using hsize
  · simp only [List.length_cons]
    omega
  · simp only [List.length_cons]
    congr 1
  · intro i v hi
    simp only [List.length_cons]
    cases i with
    | zero =>
      obtain rfl : c = v := by simpa using hi
      have hin : M - s.stack.length - 1 < m.memory.size := by omega
      rw [Nat.add_zero, Nat.sub_add_eq, Array.getElem?_setIfInBounds_self_of_lt hin]
    | succ i =>
      have hold := h.stack i v (by simpa using hi)
      rw [Array.getElem?_setIfInBounds_ne (by omega), ← hold]
      congr 1
      omega
  · intro i v hi
    have hilt : i < s.heap.length := (List.getElem?_eq_some_iff.mp hi).1
    simp only
    rw [Array.getElem?_setIfInBounds_ne (by omega)]
    exact h.heap i v hi
  · intro hroom' v hv
    have hlt' : s.heap.length + (s.stack.length + 1) < M := hroom'
    simp only
    rw [Array.getElem?_setIfInBounds_ne (by omega)]
    exact h.pending hroom v hv

include hM in
/-- A word of the snapshot is in the memory. -/
theorem Mirrors.word? (h : Mirrors M s m) {p : Place} {c : Cell} (hc : s.Holds p c) :
    m.word? (Int64.ofInt (p.address M)) = some (c.toWord M) := by
  have hfits := h.fits
  rcases hc with ⟨above, below, hstack, rfl⟩ | ⟨i, rfl, hi⟩
  · have hlen : s.stack.length = above.length + below.length + 1 := by
      simp [hstack]
      omega
    have hcast : (M : Int) + (-1 - below.length) = (M - 1 - below.length : Nat) := by omega
    have hword := h.stack above.length c (by rw [hstack]; simp)
    rw [Place.address, hcast, Int64.ofInt_eq_ofNat]
    apply Machine.word?_ofNat (by omega)
    rw [← hword]
    congr 1
    omega
  · have hilt : i < s.heap.length := (List.getElem?_eq_some_iff.mp hi).1
    rw [Place.address, Int64.ofInt_eq_ofNat]
    exact Machine.word?_ofNat (by omega) (h.heap i c hi)

include hM in
/-- A word is stored at the end of the heap. -/
theorem Mirrors.store (h : Mirrors M s m) (hroom : s.Room M) (c : Cell)
    (stores : List (Nat × Nat)) :
    ∃ m', Machine.write (Int64.ofNat s.heap.length) (c.toWord M) m = .ok () m' ∧
      Mirrors M { s with pending := some c, stores } m' := by
  have hlt : s.heap.length + s.stack.length < M := hroom
  have hsize := h.size
  refine ⟨_, Machine.write_ofNat (c.toWord M) (by omega) (by omega),
    { h with size := ?_, stack := ?_, heap := ?_, pending := ?_ }⟩
  · simpa using hsize
  · intro i v hi
    simp only at hi ⊢
    rw [Array.getElem?_setIfInBounds_ne (by omega)]
    exact h.stack i v hi
  · intro i v hi
    have hilt : i < s.heap.length := (List.getElem?_eq_some_iff.mp hi).1
    simp only
    rw [Array.getElem?_setIfInBounds_ne (by omega)]
    exact h.heap i v hi
  · intro _ v hv
    obtain rfl : c = v := by simpa using hv
    have hin : s.heap.length < m.memory.size := by omega
    exact Array.getElem?_setIfInBounds_self_of_lt hin

/-- The end of the heap is moved past a pending word. -/
theorem Mirrors.growHeap (h : Mirrors M s m) (hroom : s.Room M) {c : Cell}
    (hc : s.pending = some c) :
    Mirrors M { s with heap := s.heap ++ [c], pending := none }
      { m with hp := Int64.ofNat (s.heap.length + 1) } := by
  have hlt : s.heap.length + s.stack.length < M := hroom
  refine { h with fits := ?_, hp := ?_, heap := ?_, pending := ?_ }
  · simp only [List.length_append, List.length_singleton]
    omega
  · simp
  · intro i v hi
    rcases Nat.lt_or_ge i s.heap.length with hlt | hge
    · exact h.heap i v (by rwa [List.getElem?_append_left hlt] at hi)
    · rw [List.getElem?_append_right hge] at hi
      obtain ⟨hi0, rfl⟩ : i - s.heap.length = 0 ∧ c = v := by
        have hpos := (List.getElem?_eq_some_iff.mp hi).1
        have hzero : i - s.heap.length = 0 := by simpa using hpos
        rw [hzero] at hi
        exact ⟨hzero, by simpa using hi⟩
      obtain rfl : i = s.heap.length := by omega
      exact h.pending hroom c hc
  · intro _ v hv
    cases hv

/-! One instruction. -/

/-- What an instruction says is added to the output. -/
def Machine.Signal.Adds (before after : List Word) : Machine.Signal → Prop
  | .quiet => after = before
  | .printed w => after = before ++ [w]
  | .halted _ => False

variable {L : Listing} (hL : L.code.length < Word.limit)

include hL in
/-- The code word at a place of an instruction. -/
theorem Listing.Has.codeAt {pos : Nat} {i : Instr} (hi : L.Has pos [.instr i]) {k : Nat}
    {w : Word} (hk : (i.words L.address)[k]? = some w) (m : Machine) :
    Machine.codeAt L.code.toArray (Int64.ofNat (pos + k)) m = .ok w m := by
  have hword := hi.code_getElem? hk
  have hlt := (List.getElem?_eq_some_iff.mp hword).1
  exact Machine.codeAt_ofNat (by omega) (by simpa using hword) m

include hL in
theorem Mirrors.fetch (h : Mirrors M s m) {i : Instr} (hi : L.Has s.ip [.instr i]) :
    ∃ m₁, Machine.step L.code.toArray m =
        Machine.execute L.code.toArray (Int64.ofNat s.ip) i.operation m₁ ∧
      Mirrors M { s with ip := s.ip + 1 } m₁ := by
  have hword : (i.words L.address)[0]? = some i.operation.toWord := by cases i <;> rfl
  have hfetch := hi.codeAt hL hword m
  rw [Nat.add_zero] at hfetch
  refine ⟨{ m with ip := Int64.ofNat (s.ip + 1) }, ?_, h.moveIp (s.ip + 1)⟩
  unfold Machine.step
  rw [Machine.get_bind, h.ip, Machine.bind_ok hfetch]
  simp only [Operation.ofWord?_toWord]
  rw [← Word.ofNat_add_one, ← h.ip]
  rfl

include hL in
/-- The operand of an instruction is fetched after its operation. -/
theorem Listing.Has.operand {place : Nat} {i : Instr} (hi : L.Has place [.instr i]) {w : Word}
    (hw : (i.words L.address)[1]? = some w) (hip : m.ip = Int64.ofNat (place + 1)) :
    Machine.operand L.code.toArray m = .ok w { m with ip := Int64.ofNat (place + 2) } := by
  have hnext : m.ip + 1 = Int64.ofNat (place + 2) := by rw [hip, Word.ofNat_add_one]
  unfold Machine.operand
  rw [Machine.get_bind, hip, Machine.bind_ok (hi.codeAt hL hw m), ← hnext]
  rfl

include hL in
theorem Mirrors.operand {ip : Nat} (h : Mirrors M { s with ip := ip + 1 } m) {i : Instr}
    (hi : L.Has ip [.instr i]) {w : Word} (hw : (i.words L.address)[1]? = some w) :
    ∃ m₁, Machine.operand L.code.toArray m = .ok w m₁ ∧ Mirrors M { s with ip := ip + 2 } m₁ :=
  ⟨_, hi.operand hL hw h.ip, h.moveIp (ip + 2)⟩

include hM hL in
/-- A push of the operand, which is the word of the cell. -/
theorem Mirrors.pushOperand {ip : Nat} (h : Mirrors M { s with ip := ip + 1 } m)
    (hroom : s.Room M) {i : Instr} (hi : L.Has ip [.instr i]) {c : Cell}
    (hc : (i.words L.address)[1]? = some (c.toWord M)) (start : Word) :
    ∃ m', Machine.execute L.code.toArray start .push m = .ok .quiet m' ∧
      Mirrors M { s with ip := ip + 2, stack := c :: s.stack } m' := by
  obtain ⟨m₁, hop, h₁⟩ := h.operand hL hi hc
  obtain ⟨m₂, hpush, h₂⟩ := h₁.push hM hroom c
  refine ⟨m₂, ?_, h₂⟩
  simp only [Machine.execute]
  rw [Machine.bind_ok hop]
  exact Machine.bind_ok hpush

include hM in
/-- A pop into a register. But for the register, the machine is as after any pop. -/
theorem Mirrors.popReg (h : Mirrors M s m) (hroom : s.Room M) {c : Cell} {rest : List Cell}
    (hs : s.stack = c :: rest) (r : Register) (start : Word) :
    ∃ m', Machine.runPlain start (.popReg r) m = .ok .quiet (m'.setRegister r (c.toWord M)) ∧
      Mirrors M { s with stack := rest } m' := by
  obtain ⟨m₁, hpop, h₁⟩ := h.pop hM hroom hs
  refine ⟨m₁, ?_, h₁⟩
  simp only [Machine.runPlain]
  rw [Machine.bind_ok hpop]
  rfl

/-- A jump that is taken or not. -/
theorem Mirrors.branch (h : Mirrors M s m) (l : Label) (P : Prop) [Decidable P] :
    ∃ m', (do if P then Machine.jumpTo (L.address l)
              return Machine.Signal.quiet : Action Machine.Signal) m = .ok .quiet m' ∧
      Mirrors M { s with ip := if P then L.position l else s.ip } m' := by
  by_cases hP : P
  · refine ⟨{ m with ip := L.address l }, ?_, ?_⟩
    · rw [if_pos hP]
      rfl
    · rw [if_pos hP]
      exact h.moveIp _
  · refine ⟨m, ?_, ?_⟩
    · rw [if_neg hP]
      rfl
    · rw [if_neg hP]
      exact h

include hM in
/-- A call or a return, with the place to go to on top of the stack. -/
theorem Mirrors.goTo (h : Mirrors M s m) (hroom : s.Room M) {target : Nat} {rest : List Cell}
    (hs : s.stack = .word (Int64.ofNat target) :: rest) (start : Word) :
    ∃ m', Machine.runPlain start .call m = .ok .quiet m' ∧
      Mirrors M { s with ip := target, stack := rest, ra := Int64.ofNat s.ip } m' := by
  obtain ⟨m₁, hpop, h₁⟩ := h.pop hM hroom hs
  refine ⟨{ m₁ with ra := m₁.ip, ip := Int64.ofNat target }, ?_,
    { h₁ with ip := rfl, ra := h₁.ip }⟩
  simp only [Machine.runPlain]
  rw [Machine.bind_ok hpop]
  rfl

include hM hL in
/-- One instruction does to the machine what it does to the snapshot. -/
theorem Does.step {K : Route} (h : Mirrors M s m) (hroom : s.Room M) {i : Instr}
    {s' : Snapshot} (hi : L.Has s.ip [.instr i]) (hd : Does L M K i s s') :
    ∃ signal m', Machine.step L.code.toArray m = .ok signal m' ∧ Mirrors M s' m' ∧
      signal.Adds s.output s'.output := by
  obtain ⟨m₁, hstep, h₁⟩ := h.fetch hL hi
  rw [hstep]
  cases hd with
  | push w =>
    obtain ⟨m₂, hpush, h₂⟩ := h₁.pushOperand hM hL hroom hi (c := .word w) rfl (Int64.ofNat s.ip)
    exact ⟨.quiet, m₂, hpush, h₂, rfl⟩
  | pushSlot a _ =>
    obtain ⟨m₂, hpush, h₂⟩ :=
      h₁.pushOperand hM hL hroom hi (c := .place (.stack a)) rfl (Int64.ofNat s.ip)
    exact ⟨.quiet, m₂, hpush, h₂, rfl⟩
  | pushLabel l =>
    obtain ⟨m₂, hpush, h₂⟩ :=
      h₁.pushOperand hM hL hroom hi (c := .word (L.address l)) rfl (Int64.ofNat s.ip)
    exact ⟨.quiet, m₂, hpush, h₂, rfl⟩
  | pop hs =>
    obtain ⟨m₂, hpop, h₂⟩ := h₁.pop hM hroom hs
    refine ⟨.quiet, m₂, ?_, h₂, rfl⟩
    simp only [Instr.operation, Machine.execute, Machine.runPlain]
    rw [Machine.bind_ok hpop]
    rfl
  | @arith _ op a b w rest hs hw =>
    obtain ⟨m₂, m₃, hpop, hpop', h₃, hroom₃⟩ := h₁.pop_two hM hroom hs
    obtain ⟨m₄, hpush, h₄⟩ := h₃.push hM hroom₃ (.word w)
    refine ⟨.quiet, m₄, ?_, h₄, rfl⟩
    simp only [Instr.operation, Machine.execute, Machine.runPlain]
    rw [Machine.bind_ok hpop, Machine.bind_ok hpop']
    simp only [Cell.toWord, hw]
    exact Machine.bind_ok hpush
  | @shift _ d p rest hs =>
    obtain ⟨m₂, m₃, hpop, hpop', h₃, hroom₃⟩ := h₁.pop_two hM hroom hs
    obtain ⟨m₄, hpush, h₄⟩ := h₃.push hM hroom₃ (.place (p.shift d))
    have hsum : Int64.ofInt ((p.shift d).address M) =
        Int64.ofInt (p.address M) + Int64.ofInt d := by
      rw [Place.address_shift, Int64.ofInt_add]
    rw [Cell.toWord, hsum] at hpush
    refine ⟨.quiet, m₄, ?_, h₄, rfl⟩
    simp only [Instr.operation, Machine.execute, Machine.runPlain]
    rw [Machine.bind_ok hpop, Machine.bind_ok hpop']
    exact Machine.bind_ok hpush
  | @store _ c rest hs =>
    obtain ⟨m₂, m₃, hpop, hpop', h₃, hroom₃⟩ := h₁.pop_two hM hroom hs
    obtain ⟨m₄, hwrite, h₄⟩ := h₃.store hM hroom₃ c (s.stores ++ [(s.ip, s.heap.length)])
    refine ⟨.quiet, m₄, ?_, h₄, rfl⟩
    simp only [Instr.operation, Machine.execute, Machine.runPlain]
    rw [Machine.bind_ok hpop, Machine.bind_ok hpop', Cell.toWord, Place.address,
      Int64.ofInt_eq_ofNat, Machine.bind_ok hwrite]
    rfl
  | @load _ p c rest hs hc =>
    obtain ⟨m₂, hpop, h₂⟩ := h₁.pop hM hroom hs
    have hread := Machine.read_of_word? (h₂.word? hM hc)
    obtain ⟨m₃, hpush, h₃⟩ := h₂.push hM (hroom.tail hs) c
    refine ⟨.quiet, m₃, ?_, h₃, rfl⟩
    simp only [Instr.operation, Machine.execute, Machine.runPlain]
    rw [Machine.bind_ok hpop, Cell.toWord, Machine.bind_ok hread, Machine.bind_ok hpush]
    rfl
  | call hcall =>
    obtain ⟨m₂, hgo, h₂⟩ := h₁.goTo hM hroom hcall.stack (Int64.ofNat s.ip)
    exact ⟨.quiet, m₂, hgo, { h₂ with }, rfl⟩
  | leave hleave =>
    obtain ⟨m₂, hgo, h₂⟩ := h₁.goTo hM hroom hleave.stack (Int64.ofNat s.ip)
    exact ⟨.quiet, m₂, hgo, { h₂ with }, rfl⟩
  | pushReg r =>
    obtain ⟨m₂, hpush, h₂⟩ := h₁.push hM hroom (s.register r)
    have hreg : m₁.register r = (s.register r).toWord M := by
      cases r with
      | ra => exact h₁.ra
      | tm => exact h₁.tm
      | fp => exact h₁.fp
      | hp => exact h₁.hp.trans Int64.ofInt_eq_ofNat.symm
    refine ⟨.quiet, m₂, ?_, h₂, rfl⟩
    simp only [Instr.operation, Machine.execute, Machine.runPlain]
    rw [Machine.get_bind, hreg, Machine.bind_ok hpush]
    rfl
  | popRa hs =>
    obtain ⟨m₂, hpop, h₂⟩ := h₁.popReg hM hroom hs .ra (Int64.ofNat s.ip)
    exact ⟨.quiet, _, hpop, { h₂ with ra := rfl }, rfl⟩
  | popTm hs =>
    obtain ⟨m₂, hpop, h₂⟩ := h₁.popReg hM hroom hs .tm (Int64.ofNat s.ip)
    exact ⟨.quiet, _, hpop, { h₂ with tm := rfl }, rfl⟩
  | popFp hs =>
    obtain ⟨m₂, hpop, h₂⟩ := h₁.popReg hM hroom hs .fp (Int64.ofNat s.ip)
    exact ⟨.quiet, _, hpop, { h₂ with fp := rfl }, rfl⟩
  | popHp hs hc =>
    obtain ⟨m₂, hpop, h₂⟩ := h₁.popReg hM hroom hs .hp (Int64.ofNat s.ip)
    have hend : Int64.ofInt ((s.heap.length : Int) + 1) = Int64.ofNat (s.heap.length + 1) :=
      Int64.ofInt_eq_ofNat
    rw [Cell.toWord, Place.address, hend] at hpop
    exact ⟨.quiet, _, hpop, h₂.growHeap (hroom.tail hs) hc, rfl⟩
  | setFrame =>
    have hsp : m₁.sp = Int64.ofInt ((M : Int) + -s.stack.length) := by
      have hfits := h.fits
      have hcast : (M : Int) + -s.stack.length = (M - s.stack.length : Nat) := by omega
      rw [hcast, Int64.ofInt_eq_ofNat]
      exact h₁.sp
    exact ⟨.quiet, { m₁ with fp := m₁.sp }, rfl, { h₁ with fp := hsp }, rfl⟩
  | @print _ c w rest hs hw =>
    refine ⟨.printed w, m₁, ?_, { h₁ with }, rfl⟩
    simp only [Instr.operation, Machine.execute, Machine.runPlain]
    rw [Machine.get_bind, h₁.top? hM hs, Cell.toWord_of_fixed? hw]
    rfl
  | jump l =>
    have hcode := hi.codeAt hL (k := 1) rfl m₁
    refine ⟨.quiet, { m₁ with ip := L.address l }, ?_, h₁.moveIp _, rfl⟩
    simp only [Instr.operation, Machine.execute, Machine.runJump]
    rw [Machine.get_bind, h₁.ip, Machine.bind_ok hcode]
    rfl
  | @jumpEqual _ x y a b rest l hs ha hb =>
    obtain ⟨m₂, hop, h₂⟩ := h₁.operand hL hi rfl
    obtain ⟨m₃, m₄, hpop, hpop', h₄, -⟩ := h₂.pop_two hM hroom hs
    obtain ⟨m₅, hjump, h₅⟩ := h₄.branch (L := L) l (a = b)
    rw [Cell.toWord_of_fixed? hb] at hpop
    rw [Cell.toWord_of_fixed? ha] at hpop'
    refine ⟨.quiet, m₅, ?_, h₅, rfl⟩
    simp only [Instr.operation, Machine.execute, Machine.runJump]
    rw [Machine.bind_ok hop, Machine.bind_ok hpop, Machine.bind_ok hpop']
    exact hjump
  | @jumpLessEqual _ a b rest l hs =>
    obtain ⟨m₂, hop, h₂⟩ := h₁.operand hL hi rfl
    obtain ⟨m₃, m₄, hpop, hpop', h₄, -⟩ := h₂.pop_two hM hroom hs
    obtain ⟨m₅, hjump, h₅⟩ := h₄.branch (L := L) l (a ≤ b)
    refine ⟨.quiet, m₅, ?_, h₅, rfl⟩
    simp only [Instr.operation, Machine.execute, Machine.runJump]
    rw [Machine.bind_ok hop, Machine.bind_ok hpop, Machine.bind_ok hpop']
    exact hjump

include hM hL in
/-- An instruction that fails on the snapshot fails on the machine, which has then taken
words from the stack and done no more. -/
theorem Faults.step (h : Mirrors M s m) (hroom : s.Room M) {i : Instr} {fault : Fault}
    (hi : L.Has s.ip [.instr i]) (hf : Faults L i s fault) :
    ∃ m' rest, Machine.step L.code.toArray m = .error fault m' ∧
      Mirrors M { s with ip := s.ip + 1, stack := rest } m' := by
  obtain ⟨m₁, hstep, h₁⟩ := h.fetch hL hi
  rw [hstep]
  cases hf with
  | @division _ a b rest hs hq =>
    obtain ⟨m₂, m₃, hpop, hpop', h₃, -⟩ := h₁.pop_two hM hroom hs
    refine ⟨m₃, rest, ?_, h₃⟩
    simp only [Instr.operation, Machine.execute, Machine.runPlain]
    rw [Machine.bind_ok hpop, Machine.bind_ok hpop']
    simp only [Cell.toWord, Arith.apply?, hq]
    rfl
  | @null _ _ rest hs =>
    obtain ⟨m₂, hpop, h₂⟩ := h₁.pop hM hroom hs
    have hread : Machine.read (-1) m₂ = .error (.addressOutOfRange (-1)) m₂ := rfl
    refine ⟨m₂, rest, ?_, h₂⟩
    simp only [Instr.operation, Machine.execute, Machine.runPlain]
    rw [Machine.bind_ok hpop]
    exact Machine.bind_error hread

end

end Classlet
