import Classlet.Code.Generate
import Classlet.Proofs.Snapshot

/-!
What the standing sequences of generated code do to a snapshot: finding a frame by
access links, loading a word from it, calling the code that a frame or a dispatch
table has the address of, moving words to the heap, and returning from a call.
-/

namespace Classlet

open Code

section

variable {L : Listing} {M : Nat} {K : Route}

/-- The last two of some instructions, the first of which is a single code word. -/
theorem has_last_two {pos : Nat} {is : List Instr} {i j : Instr}
    (h : L.Has pos (instrs (is ++ [i, j]))) (hi : i.size = 1) :
    ∃ before, pos + Line.sizes (instrs (is ++ [i])) = before + 1 ∧
      L.Has before (instrs [i, j]) := by
  rw [instrs_append] at h
  refine ⟨pos + Line.sizes (instrs is), ?_, h.right⟩
  rw [instrs_append, Line.sizes_append, ← Nat.add_assoc, ← hi]
  rfl

/-- Access links lead from frame to frame, `distance` times. -/
theorem Snapshot.climbs_of_links {s : Snapshot} {frames : Nat → Place} (distance : Nat) :
    ∀ level, distance ≤ level →
      (∀ n, level - distance < n → n ≤ level →
        s.Holds (frames n) (.place (frames (n - 1)))) →
      s.Climbs distance (frames level) (frames (level - distance)) := by
  induction distance with
  | zero =>
    intro level _ _
    rfl
  | succ distance ih =>
    intro level hle hlinks
    obtain ⟨level, rfl⟩ : ∃ k, level = k + 1 := ⟨level - 1, by omega⟩
    have hframe : level + 1 - (distance + 1) = level - distance := by omega
    rw [hframe]
    refine ⟨frames level, hlinks (level + 1) (by omega) (Nat.le_refl _), ih level (by omega) ?_⟩
    intro n hn hn'
    exact hlinks n (by omega) (by omega)

theorem straight_climb (distance : Nat) :
    ∀ {p q : Place} {s : Snapshot} {rest : List Cell}, s.stack = .place p :: rest →
      { s with stack := rest }.Climbs distance p q →
      Straight L M K (List.replicate distance (.plain .load)) s
        { s with ip := s.ip + distance, stack := .place q :: rest } := by
  induction distance with
  | zero =>
    intro p q s rest hs h
    obtain rfl : p = q := h
    rw [← hs]
    rfl
  | succ distance ih =>
    intro p q s rest hs h
    obtain ⟨r, hr, h⟩ := h
    have hip : s.ip + (distance + 1) = s.ip + 1 + distance := by omega
    rw [List.replicate_succ, hip]
    exact ⟨_, .load hs hr, rfl,
      ih (s := { s with ip := s.ip + 1, stack := .place r :: rest }) rfl
        (h.mono ⟨List.suffix_refl _, List.prefix_refl _⟩)⟩

theorem straight_pushFrame {distance : Nat} {p q : Place} {s : Snapshot}
    (hfp : s.fp = .place p) (h : s.Climbs distance p q) :
    Straight L M K (pushFrame distance) s
      { s with ip := s.ip + (1 + distance), stack := .place q :: s.stack } := by
  refine ⟨_, .pushReg .fp, rfl, ?_⟩
  rw [← Nat.add_assoc]
  exact straight_climb distance
    (s := { s with ip := s.ip + 1, stack := s.register .fp :: s.stack })
    (by rw [← hfp]; rfl) (h.mono ⟨List.suffix_refl _, List.prefix_refl _⟩)

/-- The word at an offset from the place on top. -/
theorem straight_loadAt {s : Snapshot} {p : Place} {offset : Int} {c : Cell} {rest : List Cell}
    (hs : s.stack = .place p :: rest)
    (hc : { s with stack := rest }.Holds (p.shift offset) c) :
    Straight L M K (loadAt offset) s { s with ip := s.ip + 4, stack := c :: rest } :=
  ⟨_, .push _, rfl, _, .shift (by simp only [hs]), rfl, _, .load rfl hc, rfl, rfl⟩

theorem straight_duplicate {s : Snapshot} {c : Cell} {rest : List Cell} (hs : s.stack = c :: rest) :
    Straight L M K duplicate s
      { s with ip := s.ip + 3, stack := c :: c :: rest, tm := c } :=
  ⟨_, .popTm hs, rfl, _, .pushReg .tm, rfl, _, .pushReg .tm, rfl, rfl⟩

/-- The topmost word becomes the last word of the heap. -/
theorem straight_moveToHeap {s : Snapshot} {c : Cell} {rest : List Cell}
    (hs : s.stack = c :: rest) :
    Straight L M K moveToHeap s
      { s with ip := s.ip + 7, stack := rest, heap := s.heap ++ [c], pending := none
               stores := s.stores ++ [(s.ip + 1, s.heap.length)] } :=
  ⟨_, .pushReg .hp, rfl, _, .store (by simp only [hs]; rfl), rfl, _, .pushReg .hp, rfl,
    _, .push 1, rfl, _, .shift (d := 1) rfl, rfl, _, .popHp rfl rfl, rfl, rfl⟩

/-- Getting the address of the code that is called from a frame. -/
theorem straight_callAt {s : Snapshot} {offset : Int} {frame : Place} {c : Cell} {rest : List Cell}
    (hs : s.stack = .place frame :: rest) (hc : s.Holds (frame.shift offset) c) :
    Straight L M K (duplicate ++ loadAt offset) s { s with
      ip := s.ip + 7, stack := c :: s.stack, tm := .place frame } := by
  rw [hs]
  exact (straight_duplicate hs).append
    (straight_loadAt rfl (hc.mono ⟨by simp only [hs, List.suffix_refl], List.prefix_refl _⟩))

/-- Getting the address of the code that is called from a dispatch table. -/
theorem straight_callMethod {s : Snapshot} {offset : Int} {object table : Place} {c : Cell}
    {rest : List Cell} (hs : s.stack = .place object :: rest)
    (ht : s.Holds object (.place table)) (hc : s.Holds (table.shift offset) c) :
    Straight L M K (duplicate ++ [.plain .load] ++ loadAt offset) s { s with
      ip := s.ip + 8, stack := c :: s.stack, tm := .place object } := by
  have hext : s.Extends { s with stack := .place object :: rest } :=
    ⟨by simp only [hs, List.suffix_refl], List.prefix_refl _⟩
  rw [hs]
  exact ((straight_duplicate hs).append
    (.single (.load rfl (ht.mono ⟨hext.stack, hext.heap⟩)) rfl)).append
      (straight_loadAt rfl (hc.mono ⟨hext.stack, hext.heap⟩))

theorem straight_pops (cs : List Cell) :
    ∀ (s : Snapshot) (rest : List Cell), s.stack = cs ++ rest →
      Straight L M K (List.replicate cs.length (.plain .pop)) s
        { s with ip := s.ip + cs.length, stack := rest } := by
  induction cs with
  | nil =>
    intro s rest hs
    rw [List.nil_append] at hs
    rw [← hs]
    rfl
  | cons c cs ih =>
    intro s rest hs
    have hip : s.ip + (c :: cs).length = s.ip + 1 + cs.length := by simp; omega
    rw [List.length_cons, List.replicate_succ, ← List.length_cons, hip]
    exact ⟨_, .pop hs, rfl, ih _ rest rfl⟩

/-- The instructions of a return up to the last two. -/
def leaveCode (params locals : Nat) : List Instr :=
  [.plain (.popReg .tm)] ++ List.replicate locals (.plain .pop) ++
    [.plain (.popReg .ra), .plain .pop] ++ List.replicate params (.plain .pop) ++
    [.plain (.popReg .fp), .plain (.pushReg .tm)]

theorem straight_leaveCode {s : Snapshot} {back : Word} {v link oldfp : Cell}
    {locals params rest : List Cell}
    (hs : s.stack = v :: (locals ++ .word back :: link :: (params ++ oldfp :: rest))) :
    ∃ ip, Straight L M K (leaveCode params.length locals.length ++ [.plain (.pushReg .ra)]) s
      { s with ip, stack := .word back :: v :: rest, fp := oldfp, tm := v, ra := back } := by
  have hresult : Straight L M K [.plain (.popReg .tm)] s { s with
      ip := s.ip + 1, tm := v
      stack := locals ++ .word back :: link :: (params ++ oldfp :: rest) } :=
    .single (.popTm hs) rfl
  have hlocals := hresult.append (straight_pops locals _ _ rfl)
  have hlink := hlocals.append
    (show Straight L M K [.plain (.popReg .ra), .plain .pop] _ _ from
      ⟨_, .popRa rfl, rfl, _, .pop rfl, rfl, rfl⟩)
  have hparams := hlink.append (straight_pops params _ _ rfl)
  have hframe := hparams.append
    (show Straight L M K [.plain (.popReg .fp), .plain (.pushReg .tm)] _ _ from
      ⟨_, .popFp rfl, rfl, _, .pushReg .tm, rfl, rfl⟩)
  exact ⟨_, hframe.append (.single (.pushReg .ra) rfl)⟩

/-- The return from a call: what is on the stack above the result's place goes. -/
theorem steps_returnCode {s : Snapshot} {a : Activation} {calls : List Activation} {v link : Cell}
    {locals params : List Cell}
    (hc : L.Has s.ip (instrs (Emit.returnCode params.length locals.length)))
    (hcalls : s.calls = a :: calls) (hstop : s.ip = a.stop)
    (hs : s.stack =
      v :: (locals ++ .word (Int64.ofNat a.back) :: link :: (params ++ a.fp :: a.rest))) :
    ∃ n ra, Steps L M K n s { s with
      ip := a.back, stack := v :: a.rest, fp := a.fp, tm := v, ra, calls
      marks := s.marks ++ [s.mark] } := by
  have hcode : Emit.returnCode params.length locals.length =
      leaveCode params.length locals.length ++ [.plain (.pushReg .ra), .plain .call] := by
    simp [Emit.returnCode, leaveCode]
  rw [hcode] at hc
  obtain ⟨ip, hleave⟩ := straight_leaveCode (L := L) (M := M) (K := K)
    (s := { s with marks := s.marks ++ [s.mark] }) hs
  obtain ⟨before, hbefore, hlast⟩ := has_last_two hc rfl
  rw [← hleave.ip] at hbefore
  rw [List.append_cons, instrs_append] at hc
  have hcall := hc.right
  rw [← hleave.ip] at hcall
  refine ⟨_, _, .mark ((hleave.steps hc.left).trans (.single hcall (.leave ?_)))⟩
  -- The result was computed where the return code begins, which has been marked.
  refine ⟨⟨before, hbefore, hlast⟩, hcalls, rfl, rfl, s.stack.tail, List.mem_append_right _ ?_⟩
  rw [List.mem_singleton, Snapshot.mark, ← hstop, hs]
  rfl

/-- Words are moved from the stack to the heap, the topmost first. -/
theorem straight_moves (cs : List Cell) :
    ∀ (s : Snapshot) (rest : List Cell), s.stack = cs ++ rest → s.pending = none →
      ∃ more, Straight L M K (List.replicate cs.length moveToHeap).flatten s
        { s with ip := s.ip + 7 * cs.length, stack := rest, heap := s.heap ++ cs
                 stores := s.stores ++ more } := by
  induction cs with
  | nil =>
    intro s rest hs _
    rw [List.nil_append] at hs
    refine ⟨[], ?_⟩
    rw [List.append_nil, List.append_nil, ← hs]
    rfl
  | cons c cs ih =>
    intro s rest hs hnone
    obtain ⟨more, hmore⟩ := ih
      { s with ip := s.ip + 7, stack := cs ++ rest, heap := s.heap ++ [c], pending := none
               stores := s.stores ++ [(s.ip + 1, s.heap.length)] } rest rfl rfl
    refine ⟨(s.ip + 1, s.heap.length) :: more, ?_⟩
    have hip : s.ip + 7 * (c :: cs).length = s.ip + 7 + 7 * cs.length := by simp; omega
    rw [List.length_cons, List.replicate_succ, List.flatten_cons, ← List.length_cons, hip]
    simp only [List.append_assoc, List.singleton_append] at hmore
    rw [hnone]
    exact (straight_moveToHeap hs).append hmore

/-- A dispatch table is put at the end of the heap, and the address of the place
on the stack. -/
theorem straight_putTable {s : Snapshot} {slot : Int} {table : Cell}
    (hc : L.Has s.ip (instrs [.push (Int64.ofInt (M + slot)), .plain .load]))
    (ht : s.Holds (.stack slot) table) :
    Straight L M K ([Instr.push (Int64.ofInt (M + slot)), .plain .load, .plain (.pushReg .hp),
      .plain .store, .plain (.pushReg .hp)] ++ growHeap) s
      { s with ip := s.ip + 11, stack := .place (.heap s.heap.length) :: s.stack
               heap := s.heap ++ [table], pending := none
               stores := s.stores ++ [(s.ip + 4, s.heap.length)] } :=
  ⟨_, .pushSlot slot hc, rfl, _, .load rfl ht, rfl, _, .pushReg .hp, rfl, _, .store rfl, rfl,
    _, .pushReg .hp, rfl, _, .pushReg .hp, rfl, _, .push 1, rfl, _, .shift (d := 1) rfl, rfl,
    _, .popHp rfl rfl, rfl, rfl⟩

/-- The words on top become the fields of an object, and the store of its dispatch
table behind them makes it. -/
theorem straight_allocate {s : Snapshot} {cs rest : List Cell} {slot : Int} {table : Cell}
    (hc : L.Has s.ip (instrs (allocate cs.length (Int64.ofInt (M + slot)))))
    (hs : s.stack = cs ++ rest) (hnone : s.pending = none)
    (ht : { s with stack := rest }.Holds (.stack slot) table) :
    ∃ more, Straight L M K (allocate cs.length (Int64.ofInt (M + slot))) s
      { s with
        ip := s.ip + 7 * cs.length + 11
        stack := .place (.heap (s.heap ++ cs).length) :: rest
        heap := s.heap ++ cs ++ [table]
        stores := s.stores ++ more ++ [(s.ip + 7 * cs.length + 4, (s.heap ++ cs).length)] } := by
  obtain ⟨more, hmove⟩ := straight_moves (L := L) (M := M) (K := K) cs s rest hs hnone
  refine ⟨more, ?_⟩
  rw [allocate, List.append_assoc, instrs_append] at hc
  have hslot := hc.right
  rw [← hmove.ip] at hslot
  rw [allocate, List.append_assoc, hnone]
  refine hmove.append (straight_putTable
    (Listing.Has.left (a := instrs [.push (Int64.ofInt (M + slot)), .plain .load]) hslot) ?_)
  exact ht.mono ⟨List.suffix_refl _, List.prefix_append _ _⟩

end

end Classlet
