import Classlet.Code.Expression
import Classlet.Proofs.Assembly

/-!
Runs of a listing, told without the memory array. A snapshot has the stack and the
heap as two lists and the place in the listing as a number of code words; what an
instruction does to it is a rule or two for each instruction. The rules are those that
generated code lives by: it stores one word at a time, at the end of the heap, and
moves the end of the heap past it afterwards, and it goes to code by address only to
call it or to return from a call. There is no limit to the stack and the heap here; a
snapshot that would not fit into the memory is called exhausted.

Nor does a snapshot know the size of the memory. An address in it is a place, which is
told from the beginning or from the end of the memory, and the rules see to it that
code does no more with an address in the stack than to find words by it. The size comes
in with one instruction only, the one that pushes the slot of a class.

A snapshot also remembers how the run got there: the stores, the calls that have not
returned, and some moments of the run that were marked. The machine knows nothing of
this.
-/

namespace Classlet

theorem Instr.size_pos (i : Instr) : 0 < i.size := by
  cases i <;> simp [Instr.size]

namespace Listing

variable {L : Listing} {pos : Nat}

/-- The lines stand in the listing, `pos` code words after its beginning. -/
def Has (L : Listing) (pos : Nat) (lines : List Line) : Prop :=
  ∃ before after, L.lines = before ++ (lines ++ after) ∧ Line.sizes before = pos

theorem Has.left {a b : List Line} (h : L.Has pos (a ++ b)) : L.Has pos a := by
  obtain ⟨before, after, hL, hpos⟩ := h
  exact ⟨before, b ++ after, by rw [hL, List.append_assoc], hpos⟩

theorem Has.right {a b : List Line} (h : L.Has pos (a ++ b)) : L.Has (pos + Line.sizes a) b := by
  obtain ⟨before, after, hL, hpos⟩ := h
  refine ⟨before ++ a, after, ?_, ?_⟩
  · simp only [hL, List.append_assoc]
  · rw [Line.sizes_append, hpos]

/-- A label takes no room. -/
theorem Has.skip_label {l : Label} {rest : List Line} (h : L.Has pos (.label l :: rest)) :
    L.Has pos rest := by
  have hright := Has.right (a := [.label l]) h
  simpa [Line.size] using hright

theorem Has.position {l : Label} {rest : List Line} (hn : L.labels.Nodup)
    (h : L.Has pos (.label l :: rest)) : L.position l = pos := by
  obtain ⟨before, after, hL, hpos⟩ := h
  rw [Listing.position_eq hn hL, hpos]

/-- Two instructions of a listing are apart, or they are the same. -/
theorem Has.apart {p q : Nat} {i j : Instr} (h : L.Has p [.instr i]) (h' : L.Has q [.instr j]) :
    p + i.size ≤ q ∨ q + j.size ≤ p ∨ p = q ∧ i = j := by
  obtain ⟨before, after, hL, rfl⟩ := h
  obtain ⟨before', after', hL', rfl⟩ := h'
  rw [hL] at hL'
  rcases List.append_eq_append_iff.mp hL' with ⟨mid, rfl, hmid⟩ | ⟨mid, rfl, hmid⟩
  · cases mid with
    | nil =>
      obtain ⟨hij, -⟩ := List.cons.inj hmid
      exact Or.inr (Or.inr ⟨by simp, Line.instr.inj hij⟩)
    | cons line mid =>
      obtain ⟨rfl, -⟩ := List.cons.inj hmid
      left
      rw [Line.sizes_append, Line.sizes_cons, Line.size]
      omega
  · cases mid with
    | nil =>
      obtain ⟨hij, -⟩ := List.cons.inj hmid
      exact Or.inr (Or.inr ⟨by simp, (Line.instr.inj hij).symm⟩)
    | cons line mid =>
      obtain ⟨rfl, -⟩ := List.cons.inj hmid
      right
      left
      rw [Line.sizes_append, Line.sizes_cons, Line.size]
      omega

/-- At most one instruction ends at a place. -/
theorem Has.eq_of_end {p q : Nat} {i j : Instr} (h : L.Has p [.instr i]) (h' : L.Has q [.instr j])
    (hend : p + i.size = q + j.size) : p = q ∧ i = j := by
  have hi := i.size_pos
  have hj := j.size_pos
  rcases h.apart h' with hlt | hlt | heq
  · omega
  · omega
  · exact heq

/-- At most one instruction begins at a place. -/
theorem Has.eq_of_start {p : Nat} {i j : Instr} (h : L.Has p [.instr i])
    (h' : L.Has p [.instr j]) : i = j := by
  have hi := i.size_pos
  have hj := j.size_pos
  rcases h.apart h' with hlt | hlt | heq
  · omega
  · omega
  · exact heq.2

theorem Has.end_le {pos : Nat} {lines : List Line} (h : L.Has pos lines) :
    pos + Line.sizes lines ≤ L.code.length := by
  obtain ⟨before, after, hL, rfl⟩ := h
  rw [Listing.code, Line.length_flatMap_words, hL, Line.sizes_append, Line.sizes_append]
  omega

theorem position_le (L : Listing) (l : Label) : L.position l ≤ L.code.length := by
  have hle := congrArg Line.sizes
    (List.takeWhile_append_dropWhile (p := fun line => line != .label l) (l := L.lines))
  rw [Line.sizes_append] at hle
  rw [Listing.code, Line.length_flatMap_words, position]
  omega

end Listing

/-- A place in memory, told by its distance from the beginning of the memory, where the
heap is, or from its end, where the stack is. -/
inductive Place where
  | heap (offset : Int)
  | stack (offset : Int)

namespace Place

def shift : Place → Int → Place
  | .heap a, d => .heap (a + d)
  | .stack a, d => .stack (a + d)

/-- The address of a place in a memory of a size. -/
def address (M : Nat) : Place → Int
  | .heap a => a
  | .stack a => M + a

theorem address_shift (M : Nat) (p : Place) (d : Int) :
    (p.shift d).address M = p.address M + d := by
  cases p with
  | heap a => rfl
  | stack a => exact (Int.add_assoc _ _ _).symm

end Place

/-- A word in a run: an address in memory or another word. -/
inductive Cell where
  | word (w : Word)
  | place (p : Place)

namespace Cell

/-- The word itself, in a memory of a size. -/
def toWord (M : Nat) : Cell → Word
  | .word w => w
  | .place p => Int64.ofInt (p.address M)

/-- The word itself, if it is the same whatever the size of the memory. -/
def fixed? : Cell → Option Word
  | .word w => some w
  | .place (.heap a) => some (Int64.ofInt a)
  | .place (.stack _) => none

theorem toWord_of_fixed? {c : Cell} {w : Word} (h : c.fixed? = some w) (M : Nat) :
    c.toWord M = w := by
  obtain w' | ⟨a | a⟩ := c
  · exact Option.some.inj h
  · exact Option.some.inj h
  · cases h

end Cell

/-- Where a call finds its access link: some access links away from the frame of the
caller is a frame, and the link is its address or the word at an offset from it. -/
structure LinkSource where
  distance : Nat
  offset? : Option Int

/-- The places of a listing that are of interest in its runs. -/
structure Landmarks where
  /-- A `js` that makes a call, with the places where its arguments have been computed
  and the source of its access link. -/
  call : Nat → List Nat → LinkSource → Prop
  /-- The beginning of the code of a function or method, with the number of its
  parameters and the place where its result has been computed. -/
  block : Nat → Nat → Nat → Prop

/-- Landmarks, and where calls lead. -/
structure Route extends Landmarks where
  /-- The place after a `js` that makes a call, with the beginning of the code that it
  calls and the place where the result of that has been computed. -/
  leads : Nat → Nat → Nat → Prop

/-- A call that has not returned. -/
structure Activation where
  /-- The number of calls before it. -/
  serial : Nat
  /-- Where its result will have been computed. -/
  stop : Nat
  /-- Where it will return to. -/
  back : Nat
  /-- The frame pointer of the caller. -/
  fp : Cell
  /-- The stack below that frame pointer. -/
  rest : List Cell

/-- A moment of a run: the place, the stack and the numbers of the calls that have not
returned. -/
structure Mark where
  ip : Nat
  stack : List Cell
  within : List Nat

/-- A machine in the middle of a run of a listing. -/
structure Snapshot where
  /-- The number of code words before the next instruction. -/
  ip : Nat
  /-- The words on the stack, the topmost first. -/
  stack : List Cell
  /-- The words of the heap, the first one first. -/
  heap : List Cell
  /-- A word that was stored behind the end of the heap. -/
  pending : Option Cell := none
  fp : Cell
  ra : Word
  tm : Cell
  output : List Word
  /-- Where words were stored so far: the place of the instruction that did it and
  the address. -/
  stores : List (Nat × Nat)
  /-- The calls that have not returned, the last one first. -/
  calls : List Activation
  /-- How many calls have been made. -/
  made : Nat
  marks : List Mark

namespace Snapshot

/-- The numbers of the calls that have not returned. -/
def within (s : Snapshot) : List Nat := s.calls.map Activation.serial

/-- The moment of the snapshot. -/
def mark (s : Snapshot) : Mark := ⟨s.ip, s.stack, s.within⟩

/-- Each of the first words of a stack has been on top of the words below it at a place,
in the activation of the snapshot. -/
def ComputedAt (s : Snapshot) (stack : List Cell) (ends : List Nat) : Prop :=
  ∀ i place : Nat, ends[i]? = some place → ⟨place, stack.drop i, s.within⟩ ∈ s.marks

theorem ComputedAt.mono {s s' : Snapshot} {stack : List Cell} {ends : List Nat}
    (h : s.ComputedAt stack ends) (hcalls : s'.calls = s.calls) (hmarks : s.marks <+: s'.marks) :
    s'.ComputedAt stack ends := by
  intro i place hi
  rw [within, hcalls]
  exact hmarks.subset (h i place hi)

def register (s : Snapshot) : Register → Cell
  | .ra => .word s.ra
  | .tm => s.tm
  | .fp => s.fp
  | .hp => .place (.heap s.heap.length)

/-- There is room between the heap and the stack. -/
def Room (M : Nat) (s : Snapshot) : Prop := s.heap.length + s.stack.length < M

theorem Room.mono {M M' : Nat} {s : Snapshot} (h : s.Room M) (hle : M ≤ M') : s.Room M' :=
  Nat.lt_of_lt_of_le h hle

/-- The memory has the word at the place. The stack begins at the upper end of
the memory, the heap at zero. -/
def Holds (s : Snapshot) (p : Place) (c : Cell) : Prop :=
  (∃ above below, s.stack = above ++ c :: below ∧ p = .stack (-1 - below.length)) ∨
    ∃ i : Nat, p = .heap i ∧ s.heap[i]? = some c

/-- Where a word of the stack is in memory. -/
theorem holds_of_stack {s : Snapshot} {i : Nat} {c : Cell} (h : s.stack[i]? = some c) :
    s.Holds (.stack (i - s.stack.length)) c := by
  obtain ⟨hi, rfl⟩ := List.getElem?_eq_some_iff.mp h
  refine Or.inl ⟨s.stack.take i, s.stack.drop (i + 1), ?_, ?_⟩
  · rw [List.getElem_cons_drop, List.take_append_drop]
  · rw [List.length_drop]
    congr 1
    omega

/-- The snapshot with more on the stack and in the heap. -/
structure Extends (s s' : Snapshot) : Prop where
  stack : s.stack <:+ s'.stack
  heap : s.heap <+: s'.heap

theorem Holds.mono {s s' : Snapshot} {p : Place} {c : Cell} (h : s.Holds p c)
    (hs : s.Extends s') : s'.Holds p c := by
  rcases h with ⟨above, below, hstack, hp⟩ | ⟨i, hp, hi⟩
  · obtain ⟨more, hmore⟩ := hs.stack
    exact Or.inl ⟨more ++ above, below, by rw [← hmore, hstack, List.append_assoc], hp⟩
  · obtain ⟨more, hmore⟩ := hs.heap
    refine Or.inr ⟨i, hp, ?_⟩
    rw [← hmore, List.getElem?_append_left (List.getElem?_eq_some_iff.mp hi).1, hi]

/-- The word at one place is another place, and so on, the given number of times. -/
def Climbs (s : Snapshot) : Nat → Place → Place → Prop
  | 0, p, q => p = q
  | n + 1, p, q => ∃ r, s.Holds p (.place r) ∧ s.Climbs n r q

theorem Climbs.mono {s s' : Snapshot} {n : Nat} {p q : Place} (h : s.Climbs n p q)
    (hs : s.Extends s') : s'.Climbs n p q := by
  induction n generalizing p with
  | zero => exact h
  | succ n ih =>
    obtain ⟨r, hr, h⟩ := h
    exact ⟨r, hr.mono hs, ih h⟩

/-- The word is the access link of a call made in the frame of the snapshot. -/
def FindsLink (s : Snapshot) (source : LinkSource) (c : Cell) : Prop :=
  ∃ frame outer, s.fp = .place frame ∧ s.Climbs source.distance frame outer ∧
    match source.offset? with
    | none => c = .place outer
    | some offset => s.Holds (outer.shift offset) c

theorem FindsLink.mono {s s' : Snapshot} {source : LinkSource} {c : Cell}
    (h : s.FindsLink source c) (hs : s.Extends s') (hfp : s'.fp = s.fp) :
    s'.FindsLink source c := by
  obtain ⟨frame, outer, hframe, hclimbs, hc⟩ := h
  refine ⟨frame, outer, hfp.trans hframe, hclimbs.mono hs, ?_⟩
  obtain ⟨distance, _ | offset⟩ := source
  · exact hc
  · exact Holds.mono hc hs

end Snapshot

/-- The next instruction calls the code at `target`, with an access link, the arguments
as they were computed, and the frame pointer on the stack. -/
structure CallsAt (L : Listing) (K : Route) (s : Snapshot) (target stop : Nat)
    (link : Cell) (args rest : List Cell) : Prop where
  code : ∃ before, s.ip = before + 1 ∧ L.Has before (Code.instrs [.plain .load, .plain .call])
  stack : s.stack = .word (Int64.ofNat target) :: link :: (args ++ s.fp :: rest)
  block : K.block target args.length stop
  leads : K.leads (s.ip + 1) target stop
  site : ∃ ends source, K.call s.ip ends source ∧ ends.length = args.length ∧
    s.FindsLink source link ∧ s.ComputedAt (args ++ s.fp :: rest) ends

/-- The next instruction returns from an activation, with the result as it was
computed. -/
structure LeavesAt (L : Listing) (s : Snapshot) (a : Activation) (calls : List Activation)
    (v : Cell) : Prop where
  code : ∃ before, s.ip = before + 1 ∧
    L.Has before (Code.instrs [.plain (.pushReg .ra), .plain .call])
  calls : s.calls = a :: calls
  stack : s.stack = .word (Int64.ofNat a.back) :: v :: a.rest
  fp : s.fp = a.fp
  result : ∃ below, ⟨a.stop, v :: below, s.within⟩ ∈ s.marks

/-- What an instruction does, in a memory of size `M`. -/
inductive Does (L : Listing) (M : Nat) (K : Route) : Instr → Snapshot → Snapshot → Prop
  | push {s : Snapshot} (w : Word) :
    Does L M K (.push w) s { s with ip := s.ip + 2, stack := .word w :: s.stack }
  | pushSlot {s : Snapshot} (a : Int)
    (h : L.Has s.ip (Code.instrs [.push (Int64.ofInt (M + a)), .plain .load])) :
    Does L M K (.push (Int64.ofInt (M + a))) s { s with
      ip := s.ip + 2, stack := .place (.stack a) :: s.stack }
  | pushLabel {s : Snapshot} (l : Label) :
    Does L M K (.pushLabel l) s { s with
      ip := s.ip + 2, stack := .word (L.address l) :: s.stack }
  | pop {s : Snapshot} {c : Cell} {rest : List Cell} (h : s.stack = c :: rest) :
    Does L M K (.plain .pop) s { s with ip := s.ip + 1, stack := rest }
  | arith {s : Snapshot} {op : Arith} {a b w : Word} {rest : List Cell}
    (h : s.stack = .word b :: .word a :: rest) (hw : op.apply? a b = some w) :
    Does L M K (.plain (.arith op)) s { s with ip := s.ip + 1, stack := .word w :: rest }
  | shift {s : Snapshot} {d : Int} {p : Place} {rest : List Cell}
    (h : s.stack = .word (Int64.ofInt d) :: .place p :: rest) :
    Does L M K (.plain (.arith .add)) s { s with
      ip := s.ip + 1, stack := .place (p.shift d) :: rest }
  | store {s : Snapshot} {c : Cell} {rest : List Cell}
    (h : s.stack = .place (.heap s.heap.length) :: c :: rest) :
    Does L M K (.plain .store) s { s with
      ip := s.ip + 1, stack := rest, pending := some c,
      stores := s.stores ++ [(s.ip, s.heap.length)] }
  | load {s : Snapshot} {p : Place} {c : Cell} {rest : List Cell}
    (h : s.stack = .place p :: rest) (hc : { s with stack := rest }.Holds p c) :
    Does L M K (.plain .load) s { s with ip := s.ip + 1, stack := c :: rest }
  | call {s : Snapshot} {target stop : Nat} {link : Cell} {args rest : List Cell}
    (h : CallsAt L K s target stop link args rest) :
    Does L M K (.plain .call) s { s with
      ip := target, stack := link :: (args ++ s.fp :: rest), ra := Int64.ofNat (s.ip + 1)
      calls := ⟨s.made, stop, s.ip + 1, s.fp, rest⟩ :: s.calls, made := s.made + 1 }
  | leave {s : Snapshot} {a : Activation} {calls : List Activation} {v : Cell}
    (h : LeavesAt L s a calls v) :
    Does L M K (.plain .call) s { s with
      ip := a.back, stack := v :: a.rest, ra := Int64.ofNat (s.ip + 1), calls }
  | pushReg {s : Snapshot} (r : Register) :
    Does L M K (.plain (.pushReg r)) s { s with ip := s.ip + 1, stack := s.register r :: s.stack }
  | popRa {s : Snapshot} {w : Word} {rest : List Cell} (h : s.stack = .word w :: rest) :
    Does L M K (.plain (.popReg .ra)) s { s with ip := s.ip + 1, stack := rest, ra := w }
  | popTm {s : Snapshot} {c : Cell} {rest : List Cell} (h : s.stack = c :: rest) :
    Does L M K (.plain (.popReg .tm)) s { s with ip := s.ip + 1, stack := rest, tm := c }
  | popFp {s : Snapshot} {c : Cell} {rest : List Cell} (h : s.stack = c :: rest) :
    Does L M K (.plain (.popReg .fp)) s { s with ip := s.ip + 1, stack := rest, fp := c }
  | popHp {s : Snapshot} {c : Cell} {rest : List Cell}
    (h : s.stack = .place (.heap (s.heap.length + 1)) :: rest) (hc : s.pending = some c) :
    Does L M K (.plain (.popReg .hp)) s { s with
      ip := s.ip + 1, stack := rest, heap := s.heap ++ [c], pending := none }
  | setFrame {s : Snapshot} :
    Does L M K (.plain .setFrame) s { s with
      ip := s.ip + 1, fp := .place (.stack (-s.stack.length)) }
  | print {s : Snapshot} {c : Cell} {w : Word} {rest : List Cell} (h : s.stack = c :: rest)
    (hw : c.fixed? = some w) :
    Does L M K (.plain .print) s { s with ip := s.ip + 1, output := s.output ++ [w] }
  | jump {s : Snapshot} (l : Label) :
    Does L M K (.jump .always l) s { s with ip := L.position l }
  | jumpEqual {s : Snapshot} {x y : Cell} {a b : Word} {rest : List Cell} (l : Label)
    (h : s.stack = y :: x :: rest) (ha : x.fixed? = some a) (hb : y.fixed? = some b) :
    Does L M K (.jump .equal l) s { s with
      ip := if a = b then L.position l else s.ip + 2, stack := rest }
  | jumpLessEqual {s : Snapshot} {a b : Word} {rest : List Cell} (l : Label)
    (h : s.stack = .word b :: .word a :: rest) :
    Does L M K (.jump .lessEqual l) s { s with
      ip := if a ≤ b then L.position l else s.ip + 2, stack := rest }

/-- How an instruction fails: by a division without a quotient, or by reading the
address of null, which has just been duplicated for a method call. -/
inductive Faults (L : Listing) : Instr → Snapshot → Fault → Prop
  | division {s : Snapshot} {a b : Word} {rest : List Cell}
    (h : s.stack = .word b :: .word a :: rest) (hq : Word.quotient? a b = none) :
    Faults L (.plain (.arith .div)) s (.divisionByZero (Int64.ofNat s.ip))
  | null {s : Snapshot} {before : Nat} {rest : List Cell} (h : s.stack = .word (-1) :: rest)
    (hip : s.ip = before + 1)
    (hc : L.Has before (Code.instrs [.plain (.pushReg .tm), .plain .load])) :
    Faults L (.plain .load) s (.addressOutOfRange (-1))

/-- A run of the given number of instructions. Moments may be marked on the way. -/
inductive Steps (L : Listing) (M : Nat) (K : Route) : Nat → Snapshot → Snapshot → Prop
  | refl (s : Snapshot) : Steps L M K 0 s s
  | cons {n : Nat} {i : Instr} {s s₁ s' : Snapshot} (hi : L.Has s.ip [.instr i])
    (hd : Does L M K i s s₁) (hs : Steps L M K n s₁ s') : Steps L M K (n + 1) s s'
  | mark {n : Nat} {s s' : Snapshot}
    (hs : Steps L M K n { s with marks := s.marks ++ [s.mark] } s') : Steps L M K n s s'

theorem Code.instrs_append (a b : List Instr) :
    Code.instrs (a ++ b) = Code.instrs a ++ Code.instrs b := List.map_append

/-- A run without jumps, given by its instructions. -/
def Straight (L : Listing) (M : Nat) (K : Route) : List Instr → Snapshot → Snapshot → Prop
  | [], s, s' => s' = s
  | i :: is, s, s' => ∃ s₁, Does L M K i s s₁ ∧ s₁.ip = s.ip + i.size ∧ Straight L M K is s₁ s'

section

variable {L : Listing} {M : Nat} {K : Route}

theorem Steps.trans {n k : Nat} {s s₁ s' : Snapshot} (h : Steps L M K n s s₁)
    (h' : Steps L M K k s₁ s') : Steps L M K (n + k) s s' := by
  induction h with
  | refl s => simpa using h'
  | cons hi hd _ ih =>
    rw [Nat.add_right_comm]
    exact .cons hi hd (ih h')
  | mark _ ih => exact .mark (ih h')

/-- A run of snapshots can be stopped on the way. -/
theorem Steps.split {j k : Nat} {s s' : Snapshot} (h : Steps L M K (j + k) s s') :
    ∃ t, Steps L M K j s t ∧ Steps L M K k t s' := by
  generalize hn : j + k = n at h
  induction h generalizing j with
  | refl s =>
    obtain ⟨rfl, rfl⟩ : j = 0 ∧ k = 0 := by omega
    exact ⟨s, .refl s, .refl s⟩
  | mark _ ih =>
    obtain ⟨t, hfirst, hsecond⟩ := ih hn
    exact ⟨t, .mark hfirst, hsecond⟩
  | @cons n i s s₁ s' hi hd hs ih =>
    cases j with
    | zero =>
      obtain rfl : k = n + 1 := by omega
      exact ⟨s, .refl s, .cons hi hd hs⟩
    | succ j =>
      obtain ⟨t, hfirst, hsecond⟩ := ih (j := j) (by omega)
      exact ⟨t, .cons hi hd hfirst, hsecond⟩

theorem Steps.single {i : Instr} {s s' : Snapshot} (hi : L.Has s.ip [.instr i])
    (hd : Does L M K i s s') : Steps L M K 1 s s' := .cons hi hd (.refl s')

/-- A run of one instruction after another, as their lines stand in the listing. -/
theorem Straight.steps {is : List Instr} {s s' : Snapshot} (h : Straight L M K is s s')
    (hc : L.Has s.ip (Code.instrs is)) : Steps L M K is.length s s' := by
  induction is generalizing s with
  | nil =>
    obtain rfl : s' = s := h
    exact .refl s'
  | cons i is ih =>
    obtain ⟨s₁, hd, hip, hrest⟩ := h
    have hright := Listing.Has.right (a := [.instr i]) hc
    refine .cons (Listing.Has.left (a := [.instr i]) hc) hd (ih hrest ?_)
    rw [hip]
    simpa [Line.size, Code.instrs] using hright

theorem Straight.single {i : Instr} {s s' : Snapshot} (hd : Does L M K i s s')
    (hip : s'.ip = s.ip + i.size) : Straight L M K [i] s s' := ⟨s', hd, hip, rfl⟩

theorem Straight.append {is is' : List Instr} {s s₁ s' : Snapshot} (h : Straight L M K is s s₁)
    (h' : Straight L M K is' s₁ s') : Straight L M K (is ++ is') s s' := by
  induction is generalizing s with
  | nil =>
    cases h
    exact h'
  | cons i is ih =>
    obtain ⟨s₂, hd, hip, hrest⟩ := h
    exact ⟨s₂, hd, hip, ih hrest⟩

theorem Straight.ip {is : List Instr} {s s' : Snapshot} (h : Straight L M K is s s') :
    s'.ip = s.ip + Line.sizes (Code.instrs is) := by
  induction is generalizing s with
  | nil =>
    obtain rfl : s' = s := h
    rfl
  | cons i is ih =>
    obtain ⟨s₁, hd, hip, hrest⟩ := h
    rw [ih hrest, hip]
    simp only [Code.instrs, List.map_cons, Line.sizes_cons, Line.size]
    omega

/-- What an instruction adds to the list of stores. -/
theorem Does.mem_stores {i : Instr} {s s' : Snapshot} (h : Does L M K i s s') {place address : Nat}
    (hm : (place, address) ∈ s'.stores) :
    (place, address) ∈ s.stores ∨ place = s.ip ∧ address = s.heap.length := by
  cases h with
  | store h =>
    rcases List.mem_append.mp hm with hm | hm
    · exact Or.inl hm
    · exact Or.inr (by simpa using hm)
  | _ => exact Or.inl hm

end

end Classlet
