import Classlet.Proofs.CallStack
import Classlet.Proofs.Jumps
import Classlet.Proofs.MemberPlaces

/-!
Control flow of generated code, whatever the bindings and the hierarchy say. The code of a
program is a main part that ends in `halt`, followed by blocks that end in `js`, each
under a function label of its own. Jumps do not leave the part that they are in, so a
machine that carries out an instruction of one part goes on with another one of the same
part, unless it halts or the instruction is a `js`.
-/

namespace Classlet

/-- The listing consists of a main part and of blocks under the function labels. -/
structure Listing.Divided (L : Listing) (main : List Line) (blocks : List (List Line)) : Prop where
  lines : L.lines = main ++ blockLines 0 blocks
  main_halts : ∃ before, main = before ++ [.instr (.plain .halt)]
  blocks_return : ∀ block ∈ blocks, ∃ before, block = before ++ [.instr (.plain .call)]
  placed_once : L.labels.Nodup
  placed : ∀ i ∈ L.instrs, ∀ l, i.target? = some l → l ∈ L.labels
  jumps : ∀ part ∈ main :: blocks, ∀ test l, .instr (.jump test l) ∈ part →
    .label l ∈ part ∧ ∃ k, l = .branch k
  pushes : ∀ i ∈ L.instrs, ∀ k, i.target? = some (.function k) → i = .pushLabel (.function k)

/-- A part of the listing, with the number of code words before it. -/
def Listing.PartAt (L : Listing) (main : List Line) (blocks : List (List Line)) (start : Nat)
    (part : List Line) : Prop :=
  start = 0 ∧ part = main ∨ ∃ k : Nat, start = L.position (.function k) ∧ blocks[k]? = some part

/-- Among lines that begin at a place, an instruction stands at another place. -/
def Line.StandsAt (start : Nat) (lines : List Line) (place : Nat) (i : Instr) : Prop :=
  ∃ before after, lines = before ++ .instr i :: after ∧ place = start + Line.sizes before

/-- An instruction leaves the part that it is in only by halting or as a `js`. -/
def Listing.Contained (L : Listing) (main : List Line) (blocks : List (List Line)) : Prop :=
  ∀ start part, L.PartAt main blocks start part → ∀ place i, Line.StandsAt start part place i →
    i ≠ .plain .halt → i ≠ .plain .call → ∀ m signal m', m.ip = Int64.ofNat place →
      Machine.step L.code.toArray m = .ok signal m' →
      ∃ place' i', Line.StandsAt start part place' i' ∧ m'.ip = Int64.ofNat place'

/-! Actions that leave the instruction pointer alone. -/

namespace Machine

variable {α β : Type}

theorem bind_eq_ok {x : Action α} {f : α → Action β} {m m' : Machine} {b : β}
    (h : (x >>= f) m = .ok b m') : ∃ a m₁, x m = .ok a m₁ ∧ f a m₁ = .ok b m' := by
  rcases hx : x m with ⟨a, m₁⟩ | ⟨e, m₁⟩
  · rw [bind_ok hx] at h
    exact ⟨a, m₁, rfl, h⟩
  · rw [bind_error hx] at h
    cases h

def KeepsIp (x : Action α) : Prop := ∀ m a m', x m = .ok a m' → m'.ip = m.ip

namespace KeepsIp

theorem pure (a : α) : KeepsIp (Pure.pure a : Action α) := by
  intro m b m' h
  cases h
  rfl

theorem bind {x : Action α} {f : α → Action β} (hx : KeepsIp x) (hf : ∀ a, KeepsIp (f a)) :
    KeepsIp (x >>= f) := by
  intro m b m' h
  obtain ⟨a, m₁, ha, hb⟩ := bind_eq_ok h
  rw [hf a m₁ b m' hb, hx m a m₁ ha]

theorem fail (e : Fault) : KeepsIp (throw e : Action α) := by
  intro m a m' h
  cases h

theorem state : KeepsIp (get : Action Machine) := by
  intro m a m' h
  cases h
  rfl

theorem update {f : Machine → Machine} (h : ∀ m, (f m).ip = m.ip) :
    KeepsIp (modify f : Action PUnit) := by
  intro m a m' hr
  cases hr
  exact h m

end KeepsIp

theorem keepsIp_read (address : Word) : KeepsIp (read address) := by
  refine KeepsIp.state.bind fun m => ?_
  cases m.word? address with
  | some w => exact .pure _
  | none => exact .fail _

theorem keepsIp_write (address value : Word) : KeepsIp (write address value) := by
  intro m a m' h
  unfold write at h
  rw [get_bind] at h
  cases hindex : Word.index? address with
  | none =>
    rw [hindex] at h
    cases h
  | some i =>
    rw [hindex] at h
    by_cases hlt : i < m.memory.size
    · simp only [hlt, if_true] at h
      cases h
      rfl
    · simp only [hlt, if_false] at h
      cases h

theorem keepsIp_push (value : Word) : KeepsIp (push value) :=
  KeepsIp.state.bind fun _ => (keepsIp_write _ _).bind fun _ => .update fun _ => rfl

theorem keepsIp_pop : KeepsIp pop := by
  refine KeepsIp.state.bind fun m => (keepsIp_read _).bind fun w => ?_
  exact .bind (.update fun _ => rfl) fun _ => .pure _

theorem keepsIp_runPlain (address : Word) {op : PlainOp} (h : op ≠ .call) :
    KeepsIp (runPlain address op) := by
  cases op with
  | pop => exact keepsIp_pop.bind fun _ => .pure _
  | arith op =>
    refine keepsIp_pop.bind fun b => keepsIp_pop.bind fun a => ?_
    split
    · exact (keepsIp_push _).bind fun _ => .pure _
    · exact .fail _
  | store =>
    exact keepsIp_pop.bind fun _ => keepsIp_pop.bind fun _ => (keepsIp_write _ _).bind
      fun _ => .pure _
  | load =>
    exact keepsIp_pop.bind fun _ => (keepsIp_read _).bind fun _ => (keepsIp_push _).bind
      fun _ => .pure _
  | call => exact absurd rfl h
  | pushReg r => exact KeepsIp.state.bind fun _ => (keepsIp_push _).bind fun _ => .pure _
  | popReg r =>
    refine keepsIp_pop.bind fun w => .bind (.update fun m => ?_) fun _ => .pure _
    cases r <;> rfl
  | setFrame => exact .bind (.update fun _ => rfl) fun _ => .pure _
  | print =>
    refine KeepsIp.state.bind fun m => ?_
    split
    · exact .pure _
    · exact .pure _
  | halt => exact KeepsIp.state.bind fun _ => .pure _

/-- A jump that compares the two topmost words is taken or not. -/
theorem ip_of_compare {P : Word → Word → Prop} [∀ a b, Decidable (P a b)] {target : Word}
    {m m' : Machine} {signal : Signal}
    (h : (do
      let right ← pop
      let left ← pop
      if P left right then jumpTo target
      return Signal.quiet : Action Signal) m = .ok signal m') : m'.ip = m.ip ∨ m'.ip = target := by
  obtain ⟨right, m₁, hright, h₁⟩ := bind_eq_ok h
  obtain ⟨left, m₂, hleft, h₂⟩ := bind_eq_ok h₁
  by_cases hP : P left right
  · rw [if_pos hP] at h₂
    cases h₂
    exact Or.inr rfl
  · rw [if_neg hP] at h₂
    cases h₂
    exact Or.inl ((keepsIp_pop _ _ _ hleft).trans (keepsIp_pop _ _ _ hright))

end Machine

section

variable {L : Listing} (hL : L.code.length < Word.limit)

include hL

/-- After an instruction that is not a `js` the machine goes on behind it, or at the label
that it jumps to. -/
theorem Listing.Has.step_ip {place : Nat} {i : Instr} (hi : L.Has place [.instr i])
    (hcall : i ≠ .plain .call) {m m' : Machine} {signal : Machine.Signal}
    (hip : m.ip = Int64.ofNat place) (hstep : Machine.step L.code.toArray m = .ok signal m') :
    m'.ip = Int64.ofNat (place + i.size) ∨
      ∃ test l, i = .jump test l ∧ m'.ip = Int64.ofNat (L.position l) := by
  have hop : Machine.operation? L.code.toArray m.ip = some i.operation := by
    rw [hip]
    exact hi.operation? hL
  rw [Machine.step_of_operation? hop, hip, Word.ofNat_add_one] at hstep
  cases i with
  | push w =>
    have hoperand := hi.operand hL rfl (m := { m with ip := Int64.ofNat (place + 1) }) rfl
    simp only [Instr.operation, Machine.execute] at hstep
    rw [Machine.bind_ok hoperand] at hstep
    exact Or.inl (((Machine.keepsIp_push _).bind fun _ => .pure _) _ _ _ hstep)
  | pushLabel l =>
    have hoperand := hi.operand hL rfl (m := { m with ip := Int64.ofNat (place + 1) }) rfl
    simp only [Instr.operation, Machine.execute] at hstep
    rw [Machine.bind_ok hoperand] at hstep
    exact Or.inl (((Machine.keepsIp_push _).bind fun _ => .pure _) _ _ _ hstep)
  | plain op =>
    have hne : op ≠ .call := fun heq => hcall (by rw [heq])
    exact Or.inl (Machine.keepsIp_runPlain _ hne _ _ _ hstep)
  | jump test l =>
    cases test with
    | always =>
      have hcode := hi.codeAt hL (k := 1) rfl { m with ip := Int64.ofNat (place + 1) }
      simp only [Instr.operation, Machine.execute, Machine.runJump] at hstep
      rw [Machine.get_bind, Machine.bind_ok hcode] at hstep
      cases hstep
      exact Or.inr ⟨_, l, rfl, rfl⟩
    | equal =>
      have hoperand := hi.operand hL rfl (m := { m with ip := Int64.ofNat (place + 1) }) rfl
      simp only [Instr.operation, Machine.execute, Machine.runJump] at hstep
      rw [Machine.bind_ok hoperand] at hstep
      exact (Machine.ip_of_compare hstep).imp id fun hjump => ⟨_, l, rfl, hjump⟩
    | lessEqual =>
      have hoperand := hi.operand hL rfl (m := { m with ip := Int64.ofNat (place + 1) }) rfl
      simp only [Instr.operation, Machine.execute, Machine.runJump] at hstep
      rw [Machine.bind_ok hoperand] at hstep
      exact (Machine.ip_of_compare hstep).imp id fun hjump => ⟨_, l, rfl, hjump⟩

end

/-! Parts. -/

/-- Wherever lines that end in an instruction are divided, an instruction comes next. -/
theorem Line.exists_standsAt {start : Nat} {last : Instr} {rest : List Line} :
    ∀ {before front : List Line}, rest = front ++ [.instr last] →
      ∃ i, StandsAt start (before ++ rest) (start + sizes before) i := by
  induction rest with
  | nil =>
    intro before front h
    simp at h
  | cons line rest ih =>
    intro before front h
    cases line with
    | instr i => exact ⟨i, before, rest, rfl, rfl⟩
    | label l =>
      -- A label takes no room, and it is not the last line.
      cases front with
      | nil => cases h
      | cons line front =>
        rw [List.cons_append, List.cons.injEq] at h
        obtain ⟨i, hi⟩ := @ih (before ++ [.label l]) front h.2
        rw [List.append_assoc, List.singleton_append, sizes_append] at hi
        exact ⟨i, hi⟩

/-- A line of lines that end in an instruction is their last one, or what follows it ends
in the same instruction. -/
theorem Line.last_of_split {last : Instr} {line : Line} {before after front : List Line}
    (h : before ++ line :: after = front ++ [.instr last]) :
    line = .instr last ∨ ∃ front', after = front' ++ [.instr last] := by
  rcases List.eq_nil_or_concat after with rfl | ⟨front', line', rfl⟩
  · exact Or.inl (List.singleton_inj.mp (List.append_inj' h rfl).2)
  · rw [List.concat_eq_append, ← List.cons_append, ← List.append_assoc] at h
    exact Or.inr ⟨front', by rw [List.concat_eq_append, (List.append_inj' h rfl).2]⟩

namespace Listing.Divided

variable {L : Listing} {main : List Line} {blocks : List (List Line)}

theorem has (hd : L.Divided main blocks) {start : Nat} {part : List Line}
    (h : L.PartAt main blocks start part) : L.Has start part := by
  rcases h with ⟨rfl, rfl⟩ | ⟨k, rfl, hk⟩
  · exact ⟨[], blockLines 0 blocks, hd.lines, rfl⟩
  · obtain ⟨hlt, rfl⟩ := List.getElem?_eq_some_iff.mp hk
    have hsplit : blocks = blocks.take k ++ blocks[k] :: blocks.drop (k + 1) := by
      rw [List.getElem_cons_drop, List.take_append_drop]
    have hlength : 0 + (blocks.take k).length = k := by
      rw [List.length_take]
      omega
    have hlines := hd.lines
    rw [hsplit, blockLines_append, hlength, blockLines, ← List.append_assoc] at hlines
    have hhas : L.Has (Line.sizes (main ++ blockLines 0 (blocks.take k)))
        (.label (.function k) :: (blocks[k] ++ blockLines (k + 1) (blocks.drop (k + 1)))) :=
      ⟨_, [], by rw [List.append_nil]; exact hlines, rfl⟩
    rw [hhas.position hd.placed_once]
    exact hhas.skip_label.left

/-- Every part ends in an instruction after which the machine does not go on behind it. -/
theorem ends (hd : L.Divided main blocks) {start : Nat} {part : List Line}
    (h : L.PartAt main blocks start part) : part ∈ main :: blocks ∧ ∃ front last,
      part = front ++ [.instr last] ∧ (last = .plain .halt ∨ last = .plain .call) := by
  rcases h with ⟨-, rfl⟩ | ⟨k, -, hk⟩
  · obtain ⟨front, hfront⟩ := hd.main_halts
    exact ⟨List.mem_cons_self, front, _, hfront, Or.inl rfl⟩
  · have hmem := List.mem_of_getElem? hk
    obtain ⟨front, hfront⟩ := hd.blocks_return part hmem
    exact ⟨List.mem_cons_of_mem _ hmem, front, _, hfront, Or.inr rfl⟩

theorem contained (hd : L.Divided main blocks) (hL : L.code.length < Word.limit) :
    L.Contained main blocks := by
  intro start part hpart place i hi hhalt hcall m signal m' hip hstep
  obtain ⟨before, after, rfl, rfl⟩ := hi
  obtain ⟨hmem, front, last, hfront, hlast⟩ := hd.ends hpart
  have hhas := hd.has hpart
  have hinstr : L.Has (start + Line.sizes before) [.instr i] :=
    Listing.Has.left (b := after) hhas.right
  rcases hinstr.step_ip hL hcall hip hstep with hnext | ⟨test, l, rfl, hjump⟩
  · rcases Line.last_of_split hfront with heq | ⟨front', hafter⟩
    · cases heq
      exact (hlast.elim hhalt hcall).elim
    · obtain ⟨i', hi'⟩ :=
        @Line.exists_standsAt start last after (before ++ [.instr i]) front' hafter
      rw [List.append_assoc, List.singleton_append, Line.sizes_append] at hi'
      refine ⟨_, i', hi', ?_⟩
      rw [hnext, Nat.add_assoc]
      rfl
  · have hlabel := (hd.jumps _ hmem test l (by simp)).1
    obtain ⟨above, below, hsplit⟩ := List.append_of_mem hlabel
    rw [hsplit] at hhas hfront ⊢
    have hplace : L.position l = start + Line.sizes above := hhas.right.position hd.placed_once
    rcases Line.last_of_split hfront with heq | ⟨front', hbelow⟩
    · cases heq
    · obtain ⟨i', hi'⟩ := @Line.exists_standsAt start last (.label l :: below) above
        (.label l :: front') (by rw [hbelow, List.cons_append])
      exact ⟨_, i', hi', by rw [hjump, hplace]⟩

end Listing.Divided

/-- Whatever the bindings and the hierarchy, the code that is generated for a program is a
main part that ends in `halt`, and then blocks that end in `js`, each under a function label
of its own. Every label is placed once and every label that is referred to is placed, jumps
go to branch labels of the same part, and the addresses of functions are only pushed. So
assembling the text never fails, and no instruction but `js` goes from one part to
another. -/
theorem Program.generate_divided (p : Program) (t : Target) (h : Ancestry) {L : Listing}
    (hg : p.generate t h = .ok L) :
    ∃ main blocks, L.Divided main blocks ∧ assemble L.text = .ok L.code ∧
      (L.code.length < Word.limit → L.Contained main blocks) := by
  obtain ⟨c, hc, hlines, hnodup⟩ := Program.generate_shape hg
  obtain ⟨hmain, hblocks⟩ := hc.enclosed
  have hclosed := hc.closed hlines
  have hpart : ∀ part ∈ c.main :: c.blocks, Line.Enclosed c.blocks.length part := by
    intro part hmem
    rcases List.mem_cons.mp hmem with rfl | hmem
    · exact hmain
    · exact (hblocks part hmem).toEnclosed
  have hjumps : ∀ part ∈ c.main :: c.blocks, ∀ test l, .instr (.jump test l) ∈ part →
      .label l ∈ part ∧ ∃ k, l = .branch k := fun part hmem test l hj => (hpart part hmem).jump hj
  have hpushes : ∀ i ∈ L.instrs, ∀ k, i.target? = some (.function k) →
      i = .pushLabel (.function k) := by
    intro i hi k hk
    rw [Listing.mem_instrs, hlines, List.mem_append, mem_blockLines] at hi
    cases i with
    | push w => cases hk
    | plain op => cases hk
    | pushLabel l =>
      cases hk
      rfl
    | jump test l =>
      cases hk
      rcases hi with hi | ⟨_, _, _, hlabel⟩ | ⟨b, hb, hi⟩
      · obtain ⟨_, _, hl⟩ := hjumps _ List.mem_cons_self test _ hi
        cases hl
      · cases hlabel
      · obtain ⟨_, _, hl⟩ := hjumps b (List.mem_cons_of_mem _ hb) test _ hi
        cases hl
  have hd : L.Divided c.main c.blocks :=
    ⟨hlines, ⟨_, rfl⟩, fun b hb => (hblocks b hb).ends, hnodup, hclosed, hjumps, hpushes⟩
  exact ⟨c.main, c.blocks, hd, L.assemble_text hclosed, hd.contained⟩

/-- A field of the program cannot take the name of a method, and its code is divided all
the same. -/
theorem clashProgram_divided : clashProgram.resolve.errors ≠ [] ∧
    ∃ L main blocks, clashProgram.generate
        { bindings := clashProgram.resolve.bindings, memorySize := 100 }
        clashProgram.resolve.ancestry = .ok L ∧
      L.Divided main blocks ∧ assemble L.text = .ok L.code ∧ L.Contained main blocks := by
  have hcode : (clashProgram.generate
      { bindings := clashProgram.resolve.bindings, memorySize := 100 }
      clashProgram.resolve.ancestry).toOption.any (fun L => L.code.length < Word.limit) := by
    decide +kernel
  cases hg : clashProgram.generate { bindings := clashProgram.resolve.bindings, memorySize := 100 }
      clashProgram.resolve.ancestry with
  | error e =>
    rw [hg] at hcode
    cases hcode
  | ok L =>
    rw [hg] at hcode
    obtain ⟨main, blocks, hd, hassemble, hcontained⟩ := clashProgram.generate_divided _ _ hg
    exact ⟨by decide +kernel, L, main, blocks, rfl, hd, hassemble,
      hcontained (of_decide_eq_true hcode)⟩

end Classlet
