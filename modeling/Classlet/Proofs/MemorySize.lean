import Classlet.Proofs.Activations
import Classlet.Proofs.Relocation

/-!
The size of the memory shows in nothing but in running out of it. Snapshots do not know
it, and what code for one memory does to a snapshot, the code for another memory does
too. So two machines that differ in their size run through the same snapshots side by
side, for as long as the smaller one has room, and end alike.

The rules leave one thing open: the word of a slot may be pushed as a place or as a plain
word, and in the second case the next instruction, a load, finds nothing to load from. A
run that is about to do so is halfway through a slot. It does not go on and it has not
come to an end, so no run of a program is there.
-/

namespace Classlet

open Machine (Progress)

/-- The word of a slot has been pushed as a plain word, and the load is next. -/
def Listing.Halfway (L : Listing) (s : Snapshot) : Prop :=
  ∃ before w rest, L.Has before (Code.instrs [.push w, .plain .load]) ∧ s.ip = before + 2 ∧
    s.stack = .word w :: rest

section

variable {L : Listing} {M M' : Nat} {K : Route} {n : Nat} {s s' : Snapshot}

theorem Listing.Halfway.next (h : L.Halfway s) : L.Has s.ip [.instr (.plain .load)] := by
  obtain ⟨before, w, rest, hcode, hip, -⟩ := h
  rw [hip]
  exact Listing.Has.right (a := [.instr (.push w)]) hcode

/-- Halfway through a slot a run does not go on. -/
theorem Listing.Halfway.steps (h : L.Halfway s) (hs : Steps L M K n s s') :
    n = 0 ∧ L.Halfway s' := by
  induction hs with
  | refl s => exact ⟨rfl, h⟩
  | mark _ ih => exact ih h
  | cons hi hd _ _ =>
    obtain rfl := hi.eq_of_start h.next
    obtain ⟨before, w, rest, -, -, hstack⟩ := h
    cases hd with
    | load hplace _ =>
      rw [hstack] at hplace
      cases hplace

theorem Listing.Halfway.not_halt (h : L.Halfway s) : ¬ L.Has s.ip [.instr (.plain .halt)] := by
  intro hi
  cases hi.eq_of_start h.next

/-- Halfway through a slot nothing fails: a load that fails on null comes after an
instruction of one code word. -/
theorem Listing.Halfway.not_faults (h : L.Halfway s) {i : Instr} (hi : L.Has s.ip [.instr i])
    {fault : Fault} : ¬ Faults L i s fault := by
  intro hf
  obtain rfl := hi.eq_of_start h.next
  obtain ⟨slot, w, rest, hslot, hip, -⟩ := h
  cases hf with
  | @null _ before _ _ hbefore hcode =>
    have hpush := Listing.Has.left (a := [.instr (.push w)]) hslot
    have hread := Listing.Has.left (a := [.instr (.plain (.pushReg .tm))]) hcode
    have hend : slot + (Instr.push w).size = before + (Instr.plain (.pushReg .tm)).size :=
      hip.symm.trans hbefore
    cases (hpush.eq_of_end hread hend).2

variable {d : Word}

/-- Apart from pushing a word, an instruction does the same in code for another memory. -/
theorem Does.relocate_of_ne {i : Instr} (h : Does L M K i s s') (hi : ∀ w, i ≠ .push w) :
    Does (L.relocate d) M' K i s s' := by
  cases h with
  | push w | pushSlot a h => exact (hi _ rfl).elim
  | pushLabel l =>
    rw [← Listing.address_relocate (d := d)]
    exact .pushLabel l
  | call h =>
    obtain ⟨before, hip, hcode⟩ := h.code
    exact .call { h with code := ⟨before, hip, hcode.relocate_plain [.load, .call]⟩ }
  | leave h =>
    obtain ⟨before, hip, hcode⟩ := h.code
    exact .leave { h with code := ⟨before, hip, hcode.relocate_plain [.pushReg .ra, .call]⟩ }
  | jump l =>
    rw [← Listing.position_relocate (d := d)]
    exact .jump l
  | jumpEqual l h ha hb =>
    rw [← Listing.position_relocate (d := d)]
    exact .jumpEqual l h ha hb
  | jumpLessEqual l h =>
    rw [← Listing.position_relocate (d := d)]
    exact .jumpLessEqual l h
  | pop h => exact .pop h
  | arith h hw => exact .arith h hw
  | shift h => exact .shift h
  | store h => exact .store h
  | load h hc => exact .load h hc
  | pushReg r => exact .pushReg r
  | popRa h => exact .popRa h
  | popTm h => exact .popTm h
  | popFp h => exact .popFp h
  | popHp h hc => exact .popHp h hc
  | setFrame => exact .setFrame
  | print h hw => exact .print h hw

/-- What an instruction does to a snapshot, the one at its place in the code for another
memory does too. -/
theorem Does.relocate (hd : Int64.ofNat M + d = Int64.ofNat M') {i : Instr}
    (h : Does L M K i s s') (hi : L.Has s.ip [.instr i]) :
    (∃ i', (L.relocate d).Has s.ip [.instr i'] ∧ Does (L.relocate d) M' K i' s s') ∨
      L.Halfway s' := by
  by_cases hpush : ∀ w, i ≠ .push w
  · have hsame := (hi.relocate_instr (d := d)).resolve_right fun ⟨w, hw, _⟩ => hpush w hw
    exact Or.inl ⟨i, hsame, h.relocate_of_ne hpush⟩
  · cases h with
    | push w =>
      rcases hi.relocate_instr (d := d) with hsame | ⟨w', hw, hslot⟩
      · exact Or.inl ⟨.push w, hsame, .push w⟩
      · cases hw
        exact Or.inr ⟨s.ip, w, s.stack, hslot, rfl, rfl⟩
    | pushSlot a hslot =>
      have hword : Int64.ofInt (M + a) + d = Int64.ofInt (M' + a) := by
        rw [Int64.ofInt_add, Int64.ofInt_add, Int64.ofInt_eq_ofNat, Int64.ofInt_eq_ofNat, ← hd,
          Word.add_right_comm]
      have hmoved := hslot.relocate_slot (d := d)
      rw [hword] at hmoved
      exact Or.inl ⟨_, Listing.Has.left (a := [.instr (.push _)]) hmoved, .pushSlot a hmoved⟩
    | _ => exact (hpush nofun).elim

/-- What fails, fails in the code for another memory too. -/
theorem Faults.relocate {i : Instr} {fault : Fault} (h : Faults L i s fault)
    (hi : L.Has s.ip [.instr i]) :
    (L.relocate d).Has s.ip [.instr i] ∧ Faults (L.relocate d) i s fault := by
  cases h with
  | division h hq => exact ⟨hi.relocate_plain [.arith .div], .division h hq⟩
  | null h hip hc =>
    exact ⟨hi.relocate_plain [.load], .null h hip (hc.relocate_plain [.pushReg .tm, .load])⟩

variable {start start' : Machine} (hM : M < Word.limit) (hM' : M' < Word.limit)
  (hL : L.code.length < Word.limit) (hle : M ≤ M') (hd : Int64.ofNat M + d = Int64.ofNat M')

include hM hM' hL hle hd

/-- Machines of two sizes run through the same snapshots, unless the smaller one has run
out of memory. -/
theorem RunsTo.lockstep {k : Nat} (hs : Steps L M K k s s') (h : RunsTo L M start n s)
    (h' : RunsTo (L.relocate d) M' start' n s) :
    RunsOut L start (n + k) ∨ RunsTo L M start (n + k) s' ∧
      (RunsTo (L.relocate d) M' start' (n + k) s' ∨ L.Halfway s') := by
  induction hs generalizing n with
  | refl s => exact Or.inr ⟨h, Or.inl h'⟩
  | mark _ ih => exact ih h.marked h'.marked
  | @cons k i s s₁ s' hi hdoes hs ih =>
    have hplus : n + (k + 1) = n + 1 + k := by omega
    rw [hplus]
    rcases h.step hM hL hi hdoes with h₁ | ⟨-, output, sp, hp, hends⟩
    · rcases hdoes.relocate hd hi with ⟨i', hi', hdoes'⟩ | hhalf
      · have hL' : (L.relocate d).code.length < Word.limit := by
          rwa [Listing.length_code_relocate]
        have h₁' := (h'.step hM' hL' hi' hdoes').resolve_right fun hout =>
          hout.1 (h₁.room.mono hle)
        exact ih h₁ h₁'
      · rcases h₁.steps hM hL hs with hend | hout
        · exact Or.inr ⟨hend, Or.inr (hhalf.steps hs).2⟩
        · exact Or.inl hout
    · exact Or.inl ⟨output, sp, hp, hends.mono (by omega)⟩

end

section

variable {S : Setting} {t : Ty} {M' : Nat} {d size size' : Word} (hS : S.Valid t)
  (hL : S.listing.code.length < Word.limit) (hM' : M' < Word.limit) (hle : S.size ≤ M')
  (hd : Int64.ofNat S.size + d = Int64.ofNat M') (hc : S.listing.Closed)
  (hc' : (S.listing.relocate d).Closed) {n : Nat} {s : Snapshot}

include hM' hL hS hc hc'

/-- Two machines that come to the end of a program side by side end alike. -/
theorem Setting.Finishes.runAssembly_eq {v : Value} {st : Store} (hends : S.Finishes v st s)
    (h : RunsTo S.listing S.size (Machine.fresh size) n s)
    (h' : RunsTo (S.listing.relocate d) M' (Machine.fresh size') n s) (limit : Nat) :
    runAssembly size' limit (S.listing.relocate d).text =
      runAssembly size limit S.listing.text := by
  have hL' : (S.listing.relocate d).code.length < Word.limit := by
    rwa [Listing.length_code_relocate]
  obtain ⟨hhalt, -, addresses, c, rest, hstack, -, hv, -⟩ := hends
  obtain ⟨w, hw, -⟩ := hv.encodes
  obtain ⟨p, hp, hout, hsteps, -⟩ := h.halted hS.size hL hhalt hstack
  obtain ⟨p', hp', hout', hsteps', -⟩ :=
    h'.halted hM' hL' (hhalt.relocate_plain [.halt]) hstack
  rw [hc.runAssembly_of_last h hp, hc'.runAssembly_of_last h' hp', hout, hout', hsteps, hsteps',
    Cell.toWord_of_fixed? hw, Cell.toWord_of_fixed? hw]

/-- Two machines that come to an instruction that fails side by side fail alike. -/
theorem Setting.FailsAt.runAssembly_eq {fault : Fault} (hfails : S.FailsAt s fault)
    (h : RunsTo S.listing S.size (Machine.fresh size) n s)
    (h' : RunsTo (S.listing.relocate d) M' (Machine.fresh size') n s) (limit : Nat) :
    runAssembly size' limit (S.listing.relocate d).text =
      runAssembly size limit S.listing.text := by
  have hL' : (S.listing.relocate d).code.length < Word.limit := by
    rwa [Listing.length_code_relocate]
  obtain ⟨i, hi, hf⟩ := hfails
  obtain ⟨hi', hf'⟩ := hf.relocate (d := d) hi
  obtain ⟨p, hp, -⟩ := h.fails hS.size hL hi hf
  obtain ⟨p', hp', -⟩ := h'.fails hM' hL' hi' hf'
  rw [hc.runAssembly_of_last h hp, hc'.runAssembly_of_last h' hp']
  rfl

include hle hd

/-- A program runs alike in a larger memory, unless it has run out of memory. -/
theorem Setting.Valid.runAssembly_relocate
    (h : RunsTo S.listing S.size (Machine.fresh size) 0 .initial)
    (h' : RunsTo (S.listing.relocate d) M' (Machine.fresh size') 0 .initial) (limit : Nat) :
    (∃ sp hp, runAssembly size limit S.listing.text = .error (.machine (.outOfMemory sp hp))) ∨
      runAssembly size' limit (S.listing.relocate d).text =
        runAssembly size limit S.listing.text := by
  obtain ⟨n, s, hsteps, hQ⟩ := hS.reaches_end (limit + 1)
  by_cases hlimit : limit < n
  · -- Both are stopped on the way.
    obtain ⟨k, rfl⟩ := Nat.exists_eq_add_of_lt hlimit
    rw [Nat.add_assoc] at hsteps
    obtain ⟨t, hfirst, hrest⟩ := hsteps.split
    have hboth := RunsTo.lockstep hS.size hM' hL hle hd hfirst h h'
    rw [Nat.zero_add] at hboth
    obtain hout | ⟨hruns, hruns' | hhalf⟩ := hboth
    · exact Or.inl (hc.runAssembly_of_runsOut hout (Nat.le_refl _))
    · refine Or.inr ?_
      rw [hc.runAssembly_of_runsTo hruns (Nat.le_refl _),
        hc'.runAssembly_of_runsTo hruns' (Nat.le_refl _)]
    · exact absurd (hhalf.steps hrest).1 (Nat.succ_ne_zero k)
  · have hboth := RunsTo.lockstep hS.size hM' hL hle hd hsteps h h'
    rw [Nat.zero_add] at hboth
    obtain hout | ⟨hruns, hruns' | hhalf⟩ := hboth
    · exact Or.inl (hc.runAssembly_of_runsOut hout (Nat.le_of_not_lt hlimit))
    · rcases hQ with hroom | hdeep | ⟨v, st, hends⟩ | ⟨fault, hfails⟩
      · exact absurd hruns.room hroom
      · omega
      · exact Or.inr (hends.runAssembly_eq hS hL hM' hc hc' hruns hruns' limit)
      · exact Or.inr (hfails.runAssembly_eq hS hL hM' hc hc' hruns hruns' limit)
    · rcases hQ with hroom | hdeep | ⟨v, st, hends⟩ | ⟨fault, i, hi, hf⟩
      · exact absurd hruns.room hroom
      · omega
      · exact absurd hends.1 hhalf.not_halt
      · exact absurd hf (hhalf.not_faults hi)

end

/-- The code of a program for a memory and its code for a larger memory run alike on
machines of these sizes, unless the smaller one has run out of memory. -/
theorem Program.runAssembly_relocate {p : Program} {t : Ty} {listing : Listing} {m₁ m₂ : Word}
    (hn : p.ids.Nodup) (hp : p.Resolved p.resolve.bindings p.resolve.ancestry)
    (ht : p.typingContext.ProgramTyped p t)
    (hg : p.generate ⟨p.resolve.bindings, m₁⟩ p.resolve.ancestry = .ok listing)
    (hg' : p.generate ⟨p.resolve.bindings, m₂⟩ p.resolve.ancestry =
      .ok (listing.relocate (m₂ - m₁)))
    (hlen : listing.code.length < Word.limit) (hle : m₁ ≤ m₂) (limit : Nat) :
    (∃ sp hp, runAssembly m₁ limit listing.text = .error (.machine (.outOfMemory sp hp))) ∨
      runAssembly m₂ limit (listing.relocate (m₂ - m₁)).text =
        runAssembly m₁ limit listing.text := by
  have hlisting : ListingOf p ⟨p.resolve.bindings, m₁⟩ listing := hp.listingOf hg
  have hlisting' : ListingOf p ⟨p.resolve.bindings, m₂⟩ (listing.relocate (m₂ - m₁)) :=
    hp.listingOf hg'
  have hsize := Word.toNatClampNeg_le hle
  rcases runsTo_initial listing m₁ with hstart | hout
  · have hpos : 0 ≤ m₁ := hstart.size_nonneg
    have hpos' : 0 ≤ m₂ := Int64.le_trans hpos hle
    have hstart' := (runsTo_fresh (listing.relocate (m₂ - m₁)) hpos').resolve_right fun hout =>
      hout.1 (hstart.room.mono hsize)
    have hS := Program.setting_valid hn hp ht hlisting hpos
    have hdiff : Int64.ofNat m₁.toNatClampNeg + (m₂ - m₁) = Int64.ofNat m₂.toNatClampNeg := by
      rw [Word.ofNat_toNatClampNeg hpos, Word.ofNat_toNatClampNeg hpos', Int64.add_comm,
        Int64.sub_add_cancel]
    exact hS.runAssembly_relocate hlen (Word.toNatClampNeg_lt m₂) hsize hdiff hlisting.closed
      hlisting'.closed hstart hstart' limit
  · exact Or.inl (hlisting.closed.runAssembly_of_runsOut hout (Nat.zero_le limit))

/-- A program that has code is executed by running it. -/
theorem Program.execute_of_listing {p : Program} {o : Options} {listing : Listing}
    (hl : (p.compile o).listing? = some listing) :
    p.execute o = ((runAssembly o.memorySize Machine.defaultLimit listing.text).mapError .run).map
      fun outcome => { listing, programType? := (p.compile o).programType?, outcome } := by
  unfold Program.execute
  simp only [hl]
  cases runAssembly o.memorySize Machine.defaultLimit listing.text <;> rfl

/-- Unless it runs out of memory, a program that compiles without an error has the same
outcome in every larger memory, or fails there in the same way. -/
theorem Program.execute_larger_memory (p : Program) (o : Options) {m₁ m₂ : Word}
    (hn : p.ids.Nodup) (he : (p.compile { o with memorySize := m₁ }).errors = [])
    (hlen : ∀ listing, (p.compile { o with memorySize := m₁ }).listing? = some listing →
      listing.code.length < Word.limit)
    (hle : m₁ ≤ m₂)
    (hmem : ∀ sp hp, p.execute { o with memorySize := m₁ } ≠
      .error (.run (.machine (.outOfMemory sp hp)))) :
    (p.execute { o with memorySize := m₂ }).map (fun x => (x.programType?, x.outcome)) =
      (p.execute { o with memorySize := m₁ }).map fun x => (x.programType?, x.outcome) := by
  obtain ⟨hr, ht⟩ := Program.clean_of_compile he
  have hp := p.resolve_resolved hn hr
  obtain ⟨t, -, htyped, -⟩ := p.typingContext.check_typed p hp ht
  obtain ⟨listing, hg⟩ := Program.Resolved.generates (t := ⟨p.resolve.bindings, m₁⟩) hp
  have hg' := Program.generate_relocate hg (m₂ - m₁)
  have hdiff : m₁ + (m₂ - m₁) = m₂ := by rw [Int64.add_comm, Int64.sub_add_cancel]
  rw [hdiff] at hg'
  have hcompile := p.compile_of_clean { o with memorySize := m₁ } hr ht hg
  have hcompile' := p.compile_of_clean { o with memorySize := m₂ } hr ht hg'
  have hl : (p.compile { o with memorySize := m₁ }).listing? = some listing := by rw [hcompile]
  have hl' : (p.compile { o with memorySize := m₂ }).listing? =
      some (listing.relocate (m₂ - m₁)) := by rw [hcompile']
  rw [Program.execute_of_listing hl, hcompile] at hmem ⊢
  rw [Program.execute_of_listing hl', hcompile']
  rcases Program.runAssembly_relocate hn hp htyped hg hg' (hlen listing hl) hle
    Machine.defaultLimit with ⟨sp, hp, hout⟩ | heq
  · rw [hout] at hmem
    exact absurd rfl (hmem sp hp)
  · rw [heq]
    cases runAssembly m₁ Machine.defaultLimit listing.text <;> rfl

/-- The run of the program in a small memory. -/
theorem overrideProgram_small : ∃ listing,
    overrideProgram.execute { memorySize := 60 } = .ok
      { listing, programType? := some .int
        outcome := { output := [42], result := some 42, steps := 93 } } := by
  obtain ⟨he, hall⟩ := overrideProgram_moments
  have htype : (overrideProgram.compile { memorySize := 60 }).programType? = some .int := by
    decide +kernel
  have hshown : (overrideProgram.compile { memorySize := 60 }).listing?.all fun l =>
      (Progress.advance l.code.toArray 93 { machine := Machine.fresh 60 }).1.output = #[42] ∧
      (Progress.advance l.code.toArray 93 { machine := Machine.fresh 60 }).1.steps = 93 := by
    decide +kernel
  obtain ⟨listing, t, hl, -, hclosed, -⟩ :=
    overrideProgram.compiled { memorySize := 60 } overrideProgram_ids he
  rw [hl, Option.all_some, decide_eq_true_iff] at hall hshown
  obtain ⟨k, hk⟩ := Nat.exists_eq_add_of_le (show 93 ≤ Machine.defaultLimit by decide)
  have hends := Progress.advance_ended (Prod.ext rfl hall.2.2.2) k
  rw [← hk] at hends
  refine ⟨listing, ?_⟩
  rw [Program.execute_of_listing hl, htype, hclosed.runAssembly_of_ended hends, hshown.1, hshown.2]
  rfl

/-- So the default memory makes no difference to it. -/
theorem overrideProgram_larger_memory : overrideProgram.ids.Nodup ∧
    (overrideProgram.compile { memorySize := 60 }).errors = [] ∧ (60 : Word) ≤ 10000 ∧
    (overrideProgram.execute { memorySize := 10000 }).map (fun x => (x.programType?, x.outcome)) =
      .ok (some .int, { output := [42], result := some 42, steps := 93 }) := by
  obtain ⟨he, hall⟩ := overrideProgram_moments
  obtain ⟨listing, hsmall⟩ := overrideProgram_small
  have hle : (60 : Word) ≤ 10000 := by decide
  have hsame := overrideProgram.execute_larger_memory {} overrideProgram_ids he (fun l hl => by
      rw [hl, Option.all_some, decide_eq_true_iff] at hall
      exact hall.1) hle (fun sp hp => by
      rw [hsmall]
      exact nofun)
  rw [hsmall] at hsame
  exact ⟨overrideProgram_ids, he, hle, hsame⟩

end Classlet
