import Classlet.Proofs.Run
import Classlet.Proofs.Sequences
import Classlet.Proofs.MemberPlaces
import Classlet.Proofs.UseLevels

/-!
The objects in memory. The code of an instantiation moves the arguments from the stack to
the end of the heap, the last one first, and puts the word from the slot of the class behind
them. The address of that word is the object, so the arguments stand before it in the order
of the fields: where a name of the class is bound to the offset of a field, the argument for
that field is as far from the object.

Nothing is assumed about how the machine came to be where the code begins. The words of its
memory are taken for a snapshot as they are, and the rules for snapshots do the rest.
-/

namespace Classlet

open Machine (Progress)

/-- The machine carries out the instructions, without printing anything, and is then as
told, unless the memory is exhausted on the way. -/
def Listing.Completes (L : Listing) (is : List Instr) (m : Machine) (P : Machine → Prop) : Prop :=
  RunsOut L m is.length ∨
    ∃ q : Progress, Progress.advance L.code.toArray is.length { machine := m } = (q, none) ∧
      q.output.toList = [] ∧ P q.machine

theorem Listing.Completes.mono {L : Listing} {is : List Instr} {m : Machine}
    {P Q : Machine → Prop} (h : L.Completes is m P) (hPQ : ∀ m', P m' → Q m') :
    L.Completes is m Q := by
  rcases h with hout | ⟨q, hq, hquiet, hp⟩
  · exact Or.inl hout
  · exact Or.inr ⟨q, hq, hquiet, hPQ _ hp⟩

/-- A route on which nothing is of interest. -/
def Route.blank : Route where
  call _ _ _ := False
  block _ _ _ := False
  leads _ _ _ := False

/-- An object about to be made: where the code for it begins, the top of the stack, the end
of the heap, the address of the slot of its class with the word in it, and the values of
the fields, the first one first. -/
structure Construction where
  place : Nat
  sp : Nat
  hp : Nat
  slot : Nat
  table : Word
  values : List Word

namespace Construction

variable {c : Construction} {m m' : Machine}

/-- The address of the object. -/
def object (c : Construction) : Nat := c.hp + c.values.length

/-- The machine has the values on top of the stack, the last one topmost, and the slot of
the class below them. -/
structure Begins (c : Construction) (m : Machine) : Prop where
  size : m.memory.size < Word.limit
  room : c.hp < Word.limit
  ip : m.ip = Int64.ofNat c.place
  sp : m.sp = Int64.ofNat c.sp
  hp : m.hp = Int64.ofNat c.hp
  values : ∀ (k : Nat) v, c.values[k]? = some v →
    m.memory[c.sp + (c.values.length - (k + 1))]? = some v
  above : c.sp + c.values.length ≤ c.slot
  table : m.memory[c.slot]? = some c.table

/-- The machine has made the object: the fields are before it in memory, the word from the
slot is at it, and its address is on the stack in place of the values. All else in the
stack and in the heap is as before. -/
structure Ends (c : Construction) (m m' : Machine) : Prop where
  ip : m'.ip = Int64.ofNat (c.place + 7 * c.values.length + 11)
  fields : ∀ (k : Nat) v, c.values[k]? = some v → m'.memory[c.object - (k + 1)]? = some v
  table : m'.memory[c.object]? = some c.table
  top : ∃ top, top + 1 = c.sp + c.values.length ∧ m'.sp = Int64.ofNat top ∧
    m'.memory[top]? = some (Int64.ofNat c.object)
  hp : m'.hp = Int64.ofNat (c.object + 1)
  fp : m'.fp = m.fp
  ra : m'.ra = m.ra
  above : ∀ i, c.sp + c.values.length ≤ i → m'.memory[i]? = m.memory[i]?
  below : ∀ i < c.hp, m'.memory[i]? = m.memory[i]?

/-! The machine as a snapshot. -/

/-- The stack below the values. -/
def rest (c : Construction) (m : Machine) : List Cell :=
  (m.memory.toList.drop (c.sp + c.values.length)).map .word

/-- The machine before the object is made, with all words taken as they are. -/
def snapshot (c : Construction) (m : Machine) : Snapshot where
  ip := c.place
  stack := c.values.reverse.map .word ++ c.rest m
  heap := (m.memory.toList.take c.hp).map .word
  fp := .word m.fp
  ra := m.ra
  tm := .word m.tm
  output := []
  stores := []
  calls := []
  made := 0
  marks := []

/-- The heap with the object at its end. -/
def made (c : Construction) (m : Machine) : List Cell :=
  (c.snapshot m).heap ++ c.values.reverse.map .word ++ [.word c.table]

theorem rest_getElem? (c : Construction) (m : Machine) (i : Nat) :
    (c.rest m)[i]? = m.memory[c.sp + c.values.length + i]?.map .word := by
  simp [rest]

theorem length_rest (c : Construction) (m : Machine) :
    (c.rest m).length = m.memory.size - (c.sp + c.values.length) := by
  simp [rest]

theorem snapshot_heap_getElem? (c : Construction) (m : Machine) {i : Nat} (hi : i < c.hp) :
    (c.snapshot m).heap[i]? = m.memory[i]?.map .word := by
  simp [snapshot, List.getElem?_take_of_lt hi]

namespace Begins

variable (h : c.Begins m)

include h

theorem slot_lt : c.slot < m.memory.size := by
  obtain ⟨hlt, -⟩ := Array.getElem?_eq_some_iff.mp h.table
  exact hlt

theorem length_stack : (c.snapshot m).stack.length = m.memory.size - c.sp := by
  have hlt := h.slot_lt
  have habove := h.above
  simp only [snapshot, List.length_append, List.length_map, List.length_reverse, length_rest]
  omega

theorem length_heap (hle : c.hp ≤ c.sp) : (c.snapshot m).heap.length = c.hp := by
  have hlt := h.slot_lt
  have habove := h.above
  simp only [snapshot, List.length_map, List.length_take, Array.length_toList]
  omega

/-- The stack of the snapshot is in memory from the top of the stack on. -/
theorem stack_getElem? (i : Nat) :
    (c.snapshot m).stack[i]? = m.memory[c.sp + i]?.map .word := by
  simp only [snapshot]
  by_cases hi : i < c.values.length
  · have hk : c.values[c.values.length - 1 - i]? =
        some c.values[c.values.length - 1 - i] := List.getElem?_eq_getElem _
    have hv := h.values _ _ hk
    have hsub : c.values.length - (c.values.length - 1 - i + 1) = i := by omega
    rw [hsub] at hv
    rw [List.getElem?_append_left (by simpa using hi), List.getElem?_map,
      List.getElem?_reverse hi, hk, hv]
  · rw [List.getElem?_append_right (by simpa using hi), rest_getElem?, List.length_map,
      List.length_reverse]
    congr 2
    omega

theorem mirrors (hle : c.hp ≤ c.sp) : Mirrors m.memory.size (c.snapshot m) m := by
  have hlt := h.slot_lt
  have habove := h.above
  have hbase : m.memory.size - (c.snapshot m).stack.length = c.sp := by
    rw [h.length_stack]
    omega
  refine ⟨rfl, ?_, h.ip, ?_, ?_, rfl, rfl, rfl, ?_, ?_, ?_⟩
  · rw [h.length_heap hle, h.length_stack]
    omega
  · rw [hbase, h.sp]
  · rw [h.length_heap hle, h.hp]
  · intro i cell hi
    rw [h.stack_getElem?] at hi
    obtain ⟨w, hw, rfl⟩ := Option.map_eq_some_iff.mp hi
    rw [hbase, hw]
    rfl
  · intro i cell hi
    have hlen := (List.getElem?_eq_some_iff.mp hi).1
    rw [h.length_heap hle] at hlen
    rw [snapshot_heap_getElem? c m hlen] at hi
    obtain ⟨w, hw, rfl⟩ := Option.map_eq_some_iff.mp hi
    exact hw
  · intro _ cell hcell
    cases hcell

/-- The slot of the class is below the values. -/
theorem holds_slot : { c.snapshot m with stack := c.rest m }.Holds
    (.stack ((c.slot : Int) - m.memory.size)) (.word c.table) := by
  have hlt := h.slot_lt
  have habove := h.above
  have hi : (c.rest m)[c.slot - (c.sp + c.values.length)]? = some (.word c.table) := by
    rw [rest_getElem?, Nat.add_sub_cancel' habove, h.table]
    rfl
  have hholds := Snapshot.holds_of_stack (s := { c.snapshot m with stack := c.rest m }) hi
  have hoffset : ((c.slot - (c.sp + c.values.length) : Nat) : Int) - (c.rest m).length =
      (c.slot : Int) - m.memory.size := by
    rw [length_rest]
    omega
  rw [hoffset] at hholds
  exact hholds

/-! The object at the end of the heap. -/

theorem length_made (hle : c.hp ≤ c.sp) : (c.made m).length = c.object + 1 := by
  simp [made, object, h.length_heap hle, Nat.add_assoc]

theorem made_field (hle : c.hp ≤ c.sp) {k : Nat} {v : Word} (hk : c.values[k]? = some v) :
    (c.made m)[c.object - (k + 1)]? = some (.word v) := by
  obtain ⟨hlast, -⟩ := List.getElem?_eq_some_iff.mp hk
  have hobject : c.object - (k + 1) = c.hp + (c.values.length - (k + 1)) := by
    rw [object]
    omega
  have hindex : c.values.length - 1 - (c.values.length - (k + 1)) = k := by omega
  rw [made, hobject, List.append_assoc,
    List.getElem?_append_right (by rw [h.length_heap hle]; exact Nat.le_add_right _ _),
    h.length_heap hle, Nat.add_sub_cancel_left,
    List.getElem?_append_left (by rw [List.length_map, List.length_reverse]; omega),
    List.getElem?_map, List.getElem?_reverse (by omega), hindex, hk]
  rfl

theorem made_table (hle : c.hp ≤ c.sp) : (c.made m)[c.object]? = some (.word c.table) := by
  rw [made, List.getElem?_append_right (by simp [h.length_heap hle, object])]
  simp [h.length_heap hle, object]

theorem made_below (hle : c.hp ≤ c.sp) {i : Nat} (hi : i < c.hp) :
    (c.made m)[i]? = m.memory[i]?.map .word := by
  rw [made, List.append_assoc, List.getElem?_append_left (by rw [h.length_heap hle]; exact hi),
    snapshot_heap_getElem? c m hi]

/-- A machine that has the object at the end of its heap and on its stack has made it. -/
theorem ends (hle : c.hp ≤ c.sp) {s : Snapshot} (hm : Mirrors m.memory.size s m')
    (hip : s.ip = c.place + 7 * c.values.length + 11)
    (hstack : s.stack = .place (.heap c.object) :: c.rest m) (hheap : s.heap = c.made m)
    (hfp : s.fp = .word m.fp) (hra : s.ra = m.ra) : c.Ends m m' := by
  have hlt := h.slot_lt
  have habove := h.above
  have hlength : s.heap.length = c.object + 1 := by rw [hheap, h.length_made hle]
  have hbase : m.memory.size - s.stack.length + 1 = c.sp + c.values.length := by
    have hfits := hm.fits
    rw [hlength, hstack, List.length_cons, length_rest, object] at hfits
    rw [hstack, List.length_cons, length_rest]
    omega
  refine ⟨by rw [hm.ip, hip], ?_, ?_, ⟨_, hbase, hm.sp, ?_⟩, by rw [hm.hp, hlength],
    by rw [hm.fp, hfp, Cell.toWord], by rw [hm.ra, hra], ?_, ?_⟩
  · intro k v hk
    exact hm.heap _ (.word v) (by rw [hheap, h.made_field hle hk])
  · exact hm.heap _ (.word c.table) (by rw [hheap, h.made_table hle])
  · have htop := hm.stack 0 (.place (.heap c.object)) (by rw [hstack]; rfl)
    rw [Nat.add_zero] at htop
    rw [htop, Cell.toWord, Place.address, Int64.ofInt_eq_ofNat]
  · intro i hi
    obtain ⟨j, rfl⟩ := Nat.exists_eq_add_of_le hi
    cases hw : m.memory[c.sp + c.values.length + j]? with
    | none =>
      rw [Array.getElem?_eq_none_iff] at hw ⊢
      rw [hm.size]
      exact hw
    | some w =>
      have hword : s.stack[j + 1]? = some (.word w) := by
        rw [hstack, List.getElem?_cons_succ, rest_getElem?, hw]
        rfl
      rw [← hbase, Nat.add_assoc, Nat.add_comm 1 j]
      exact hm.stack (j + 1) _ hword
  · intro i hi
    have hw : m.memory[i]? = some m.memory[i] := Array.getElem?_eq_getElem (by omega)
    have hword : s.heap[i]? = some (.word m.memory[i]) := by
      rw [hheap, h.made_below hle hi, hw]
      rfl
    rw [hw]
    exact hm.heap i _ hword

/-! The code that makes it. -/

theorem runsOut (L : Listing) (hle : c.sp ≤ c.hp) (n : Nat) : RunsOut L m n := by
  have hlt := h.slot_lt
  have habove := h.above
  have hsize := h.size
  have hsp : m.sp ≤ m.hp := by
    rw [h.sp, h.hp]
    exact (Word.ofNat_le_ofNat (by omega) h.room).mpr hle
  have hends : EndsWith L m 0 [] (.failed (.outOfMemory m.sp m.hp)) :=
    ⟨{ machine := m }, by simp [Progress.advance, hsp], rfl⟩
  exact ⟨_, _, _, hends.mono (Nat.zero_le n)⟩

theorem runsTo (L : Listing) (hlt : c.hp < c.sp) :
    RunsTo L m.memory.size m 0 (c.snapshot m) := by
  have hle := Nat.le_of_lt hlt
  have hslot := h.slot_lt
  have habove := h.above
  have hroom : (c.snapshot m).Room m.memory.size := by
    rw [Snapshot.Room, h.length_heap hle, h.length_stack]
    omega
  refine (runsTo_or_runsOut h.size (p := { machine := m }) (fun k => by rw [Nat.zero_add]) rfl rfl
    (h.mirrors hle) (fun _ _ hmem => absurd hmem List.not_mem_nil)).resolve_right ?_
  exact fun hfull => hfull.1 hroom

/-- The code that makes an object makes it, unless the memory is exhausted on the way. -/
theorem completes {L : Listing} (hL : L.code.length < Word.limit)
    (hcode : L.Has c.place
      (Code.instrs (Code.allocate c.values.length (Int64.ofNat c.slot)))) :
    L.Completes (Code.allocate c.values.length (Int64.ofNat c.slot)) m (c.Ends m) := by
  rcases Nat.lt_or_ge c.hp c.sp with hlt | hge
  · have hle := Nat.le_of_lt hlt
    -- A snapshot tells the slot by its distance from the end of the memory.
    have hslot : Int64.ofNat c.slot =
        Int64.ofInt ((m.memory.size : Int) + ((c.slot : Int) - m.memory.size)) := by
      rw [← Int64.ofInt_eq_ofNat, add_sub_cancel]
    have hlength : c.values.length = (c.values.reverse.map Cell.word).length := by simp
    rw [hslot, hlength] at hcode ⊢
    obtain ⟨more, hstraight⟩ :=
      straight_allocate (K := Route.blank) (s := c.snapshot m) hcode rfl rfl h.holds_slot
    rcases (h.runsTo L hlt).steps h.size hL (hstraight.steps hcode) with hend | hout
    · obtain ⟨q, hq, hquiet, -, hm⟩ := hend.state
      rw [Nat.zero_add] at hq
      refine Or.inr ⟨q, hq, hquiet, h.ends hle hm ?_ ?_ rfl rfl rfl⟩
      · rw [← hlength]
        rfl
      · rw [List.length_append, ← hlength, h.length_heap hle]
        rfl
    · rw [Nat.zero_add] at hout
      exact Or.inl hout
  · exact Or.inl (h.runsOut L hge _)

/-- The word of a field is as far from the object as the number of the field says. -/
theorem field (hends : c.Ends m m') {k : Nat} {v : Word} (hk : c.values[k]? = some v) :
    m'.word? (Int64.ofNat c.object + Int64.ofInt (-(k + 1 : Nat))) = some v := by
  have hv := hends.fields k v hk
  obtain ⟨hin, -⟩ := Array.getElem?_eq_some_iff.mp hv
  obtain ⟨hlast, -⟩ := List.getElem?_eq_some_iff.mp hk
  have hsize : m'.memory.size ≤ m.memory.size := by
    have hlt := h.slot_lt
    have habove := h.above
    rw [← Array.getElem?_eq_none_iff, hends.above _ (by omega), Array.getElem?_eq_none_iff]
  have hlimit := h.size
  have haddress : (c.object : Int) + -((k + 1 : Nat) : Int) = (c.object - (k + 1) : Nat) := by
    rw [object]
    omega
  rw [← Int64.ofInt_eq_ofNat, ← Int64.ofInt_add, haddress, Int64.ofInt_eq_ofNat]
  exact Machine.word?_ofNat (by omega) hv

end Begins

end Construction

/-! The classes of a program. -/

namespace Program

variable {p : Program} {cls : String}

/-- An instantiation is filed with the entry of its class. -/
theorem new_filed (hn : p.ids.Nodup) {id : NodeId} {args : List Expr} {pos : Position}
    (hnew : .new id cls args pos ∈ p.parts) {u : Use} {e : Entry}
    (hu : p.resolve.bindings.used? id = some (u, e)) :
    p.resolve.bindings.registered? cls = some e := by
  obtain ⟨huse, he⟩ := (Bindings.used?_eq_some _ _ _ _).mp hu
  obtain ⟨q, hq, hexplains⟩ := p.filed_explained (.use id u) huse
  have hpart : q.2 ∈ p.parts := by
    rw [← p.map_places]
    exact List.mem_map_of_mem hq
  rw [part_unique hn hpart hnew (hexplains.use_exact huse).1 rfl] at hexplains
  obtain ⟨-, -, record, e', hrecord, hentry, -⟩ := hexplains
  rw [Bindings.registered?, hrecord, Option.bind_some, ← hentry, he]

/-- The fields of a class are numbered from one on, and the offset of a field is its number
below zero. -/
theorem field_offset {shape : ClassShape} (hshape : p.resolve.bindings.shape? cls = some shape)
    {x : String} {e : Entry} (he : p.resolve.bindings.member? cls x = some e)
    (hfield : e.isMethod = false) :
    ∃ k < shape.fields.length, e.offset = -((k + 1 : Nat) : Int) := by
  obtain ⟨record, hr, -⟩ := Option.bind_eq_some_iff.mp hshape
  obtain ⟨l, hl⟩ := p.resolve_orderly.records cls record hr
  obtain rfl : l.shape = shape := Option.some.inj ((hl.shape? hr).symm.trans hshape)
  have hplace : p.resolve.bindings.place cls x = e.offset := by simp [Bindings.place, he]
  have hmem := (hl.laysOut hr).fields.mapsTo ⟨e, he, hfield⟩
  rw [hplace, Set.mem_Icc] at hmem
  refine ⟨(-e.offset - 1).toNat, ?_, ?_⟩ <;> omega

theorem registered_of_shape {shape : ClassShape}
    (hshape : p.resolve.bindings.shape? cls = some shape) :
    ∃ e, p.resolve.bindings.registered? cls = some e := by
  obtain ⟨record, hr, h⟩ := Option.bind_eq_some_iff.mp hshape
  obtain ⟨e, he, -⟩ := Option.bind_eq_some_iff.mp h
  exact ⟨e, by rw [Bindings.registered?, hr, Option.bind_some, he]⟩

/-- Where a class is instantiated with a value for each of its fields, the code after that
of the arguments makes an object of the values and of the word in the slot of the class,
unless the memory is exhausted on the way. The value of each field is then found at the
offset from the object that the field has been given. -/
theorem objects_laid_out (p : Program) (hn : p.ids.Nodup) {id : NodeId} {cls : String}
    {args : List Expr} {pos : Position} (hnew : .new id cls args pos ∈ p.parts)
    {shape : ClassShape} (hshape : p.resolve.bindings.shape? cls = some shape)
    (hargs : args.length = shape.fields.length) :
    ∃ e, p.resolve.bindings.registered? cls = some e ∧ ∀ memorySize : Word,
      let t : Target := ⟨p.resolve.bindings, memorySize⟩
      let making := Code.allocate args.length (memorySize + Int64.ofInt e.offset)
      (Code.ofExpr t (.new id cls args pos)).Makes (fun lines => ∃ codes,
        List.Forall₂ (CodeOf t) args codes ∧
          lines = codes.flatten ++ Code.instrs making) ∧
      ∀ (L : Listing) (c : Construction) (m : Machine), L.code.length < Word.limit →
        L.Has c.place (Code.instrs making) → c.values.length = args.length →
        memorySize + Int64.ofInt e.offset = Int64.ofNat c.slot → c.Begins m →
        L.Completes making m fun m' => c.Ends m m' ∧
          ∀ x f, p.resolve.bindings.member? cls x = some f → f.isMethod = false →
            ∃ k v, f.offset = -((k + 1 : Nat) : Int) ∧ c.values[k]? = some v ∧
              m'.word? (Int64.ofNat c.object + Int64.ofInt f.offset) = some v := by
  obtain ⟨e, he⟩ := registered_of_shape hshape
  refine ⟨e, he, fun memorySize => ⟨?_, ?_⟩⟩
  · refine (Code.makes_ofExpr _).mono fun lines hlines => ?_
    cases hlines with
    | new hu hcodes =>
      obtain rfl : _ = e := Option.some.inj ((new_filed hn hnew hu).symm.trans he)
      exact ⟨_, hcodes, rfl⟩
  · intro L c m hL hcode hlength hslot hbegins
    rw [hslot, ← hlength] at hcode ⊢
    refine (hbegins.completes hL hcode).mono fun m' hends => ⟨hends, ?_⟩
    intro x f hx hfield
    obtain ⟨k, hk, hoffset⟩ := field_offset hshape hx hfield
    have hv : c.values[k]? = some (c.values.get ⟨k, by omega⟩) := List.getElem?_eq_getElem _
    exact ⟨k, _, hoffset, hv, by rw [hoffset]; exact hbegins.field hends hv⟩

end Program

/-- A class with one field, and a class that inherits it and adds another. -/
def heirProgram : Program :=
  let pos := Position.ofLine 1
  { classes := [
      { id := 0, name := "A", parent? := none, pos
        fields := [⟨1, "x", .int pos, pos⟩], methods := [] },
      { id := 2, name := "B", parent? := some "A", pos
        fields := [⟨3, "y", .int pos, pos⟩], methods := [] }]
    decls := []
    body := .new 4 "B" [.lit (.int 7) pos, .lit (.int 8) pos] pos
    pos }

/-- An object of the second class, with a heap of one word before it. -/
def heirConstruction : Construction where
  place := 0
  sp := 9
  hp := 1
  slot := 13
  table := 5
  values := [7, 8]

def heirMachine : Machine where
  memory := #[6, 0, 0, 0, 0, 0, 0, 0, 0, 8, 7, 0, 0, 5, 3, 0]
  sp := 9
  fp := 14
  hp := 1

def heirListing : Listing := ⟨Code.instrs (Code.allocate 2 13)⟩

theorem heirConstruction_begins : heirConstruction.Begins heirMachine := by
  refine ⟨by decide +kernel, by decide +kernel, rfl, rfl, rfl, ?_, by decide, rfl⟩
  intro k v hk
  obtain _ | _ | k := k
  · exact hk
  · exact hk
  · cases hk

/-- The object is made without exhausting the memory, and both fields are found in it. -/
theorem heirProgram_laid_out : heirProgram.ids.Nodup ∧ heirProgram.body ∈ heirProgram.parts ∧
    heirConstruction.Begins heirMachine ∧
    ∃ q : Progress, Progress.advance heirListing.code.toArray 21 { machine := heirMachine } =
        (q, none) ∧
      heirConstruction.Ends heirMachine q.machine ∧
      ∀ x f, heirProgram.resolve.bindings.member? "B" x = some f → f.isMethod = false →
        ∃ k v, f.offset = -((k + 1 : Nat) : Int) ∧ heirConstruction.values[k]? = some v ∧
          q.machine.word? (3 + Int64.ofInt f.offset) = some v := by
  have hn : heirProgram.ids.Nodup := by decide +kernel
  have hnew : heirProgram.body ∈ heirProgram.parts := List.mem_of_getElem? (i := 0) rfl
  have hfields : (heirProgram.resolve.bindings.shape? "B").map (fun s => s.fields.length) =
      some 2 := by decide +kernel
  obtain ⟨shape, hshape, hlength⟩ := Option.map_eq_some_iff.mp hfields
  have hoffset : (heirProgram.resolve.bindings.registered? "B").map Entry.offset = some (-3) := by
    decide +kernel
  obtain ⟨e, he, hall⟩ := heirProgram.objects_laid_out hn hnew hshape hlength.symm
  rw [he] at hoffset
  have hslot : (16 : Word) + Int64.ofInt e.offset = 13 := by
    rw [Option.some.inj hoffset]
    rfl
  have hmade := (hall 16).2 heirListing heirConstruction heirMachine
  simp only [hslot] at hmade
  have hgoes : (Progress.advance heirListing.code.toArray 21 { machine := heirMachine }).2 =
      none := by decide +kernel
  rcases hmade (by decide +kernel) ⟨[], [], rfl, rfl⟩ rfl rfl heirConstruction_begins with
    ⟨output, sp, hp, q, hq, -⟩ | ⟨q, hq, -, hends, hfound⟩
  · have hended := congrArg Prod.snd hq
    exact absurd (hgoes.symm.trans hended) (Option.some_ne_none _).symm
  · exact ⟨hn, hnew, heirConstruction_begins, q, hq, hends, hfound⟩

end Classlet
