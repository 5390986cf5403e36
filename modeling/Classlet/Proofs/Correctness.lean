import Classlet.Proofs.Completeness
import Classlet.Proofs.Depth
import Classlet.Proofs.Startup

/-!
Compilation is correct. The code of a program that compiles without an error does on
the machine what the evaluation of the program does: it prints the same and has the
same result, it fails where the evaluation divides or calls a method on null, and it
runs on as long as the evaluation does. It may run out of memory at any time, as
evaluation has no bound on memory; and it never fails in another way.

Code is run for any number of instructions. The one thing that is asked of it is
that its places can be told by words.
-/

namespace Classlet

/-- The run of a listing without a limit ends as given: a run with a limit does, as
soon as the limit is great enough. -/
def Listing.RunsUnlimited (L : Listing) (size : Word) (r : Except RunError Machine.Outcome) :
    Prop :=
  ∃ n, ∀ limit, n ≤ limit → runAssembly size limit L.text = r

def Listing.ExhaustsMemory (L : Listing) (size : Word) : Prop :=
  ∃ sp hp, L.RunsUnlimited size (.error (.machine (.outOfMemory sp hp)))

/-- An outcome shows the value and the output of an evaluation. Each object of the
evaluation has an address of its own. -/
def Machine.Outcome.Shows (outcome : Machine.Outcome) (size : Word) (v : Value) (st : Store) :
    Prop :=
  ∃ addresses : List Nat, addresses.length = st.objects.length ∧ addresses.Pairwise (· < ·) ∧
    (∀ a ∈ addresses, a < size.toNatClampNeg) ∧
    List.Forall₂ (Value.Encodes addresses) st.output outcome.output ∧
    ∃ w, outcome.result = some w ∧ v.Encodes addresses w

/-- What the machine does that follows an evaluation. -/
def Setting.Realises (S : Setting) (start : Machine) (depth : Nat) :
    Except Abort (Value × Store) → Prop
  | .ok (v, st) => ∃ n s addresses w, RunsTo S.listing S.size start n s ∧
      EndsWith S.listing start (n + 1) s.output (.halted (some w)) ∧
      v.Encodes addresses w ∧ S.StoreAt st s addresses
  | .error .depth => ∃ n s, depth ≤ n ∧ RunsTo S.listing S.size start n s
  | .error .division =>
    ∃ n output a, EndsWith S.listing start n output (.failed (.divisionByZero a))
  | .error .receiver =>
    ∃ n output, EndsWith S.listing start n output (.failed (.addressOutOfRange (-1)))
  | .error .stuck => False

section

variable {S : Setting} {start : Machine} {s : Snapshot} {n : Nat}

/-- What snapshots reach, the machine reaches. -/
theorem Setting.Reaches.run {Q : Nat → Snapshot → Prop} (h : S.Reaches s Q)
    (hM : S.size < Word.limit) (hL : S.listing.code.length < Word.limit)
    (hs : RunsTo S.listing S.size start 0 s) :
    (∃ n, RunsOut S.listing start n) ∨ ∃ n s', RunsTo S.listing S.size start n s' ∧ Q n s' := by
  obtain ⟨n, s', hsteps, hQ⟩ := h
  rcases hs.steps hM hL hsteps with hruns | hout
  · rw [Nat.zero_add] at hruns
    rcases hQ with hroom | hQ
    · exact absurd hruns.room hroom
    · exact Or.inr ⟨n, s', hruns, hQ⟩
  · exact Or.inl ⟨_, hout⟩

theorem Setting.FailsAt.ends {fault : Fault} (h : S.FailsAt s fault) (hM : S.size < Word.limit)
    (hL : S.listing.code.length < Word.limit) (hs : RunsTo S.listing S.size start n s) :
    EndsWith S.listing start (n + 1) s.output (.failed fault) := by
  obtain ⟨i, hi, hf⟩ := h
  exact hs.fails hM hL hi hf

/-- The machine does what the evaluation of a program does. -/
theorem Setting.Valid.realises {t : Ty} (hS : S.Valid t) (hL : S.listing.code.length < Word.limit)
    (hs : RunsTo S.listing S.size start 0 .initial) (depth : Nat) :
    (∃ n, RunsOut S.listing start n) ∨ S.Realises start depth (S.program.eval depth) := by
  have hfollows := hS.follows depth
  have hsafe := S.program.eval_safe hS.resolved hS.typed depth
  rcases heval : S.program.eval depth with e | ⟨v, st⟩
  · rw [heval] at hfollows hsafe
    cases e with
    | depth =>
      refine (Setting.Reaches.run hfollows hS.size hL hs).imp id ?_
      rintro ⟨n, s', hruns, hle⟩
      exact ⟨n, s', hle, hruns⟩
    | division =>
      refine (Setting.Reaches.run hfollows hS.size hL hs).imp id ?_
      rintro ⟨n, s', hruns, a, hfails⟩
      exact ⟨n + 1, s'.output, a, hfails.ends hS.size hL hruns⟩
    | receiver =>
      refine (Setting.Reaches.run hfollows hS.size hL hs).imp id ?_
      rintro ⟨n, s', hruns, hfails⟩
      exact ⟨n + 1, s'.output, hfails.ends hS.size hL hruns⟩
    | stuck => exact hsafe.elim
  · rw [heval] at hfollows
    refine (Setting.Reaches.run hfollows hS.size hL hs).imp id ?_
    rintro ⟨n, s', hruns, hhalt, -, addresses, c, rest, hstack, -, hv, hst⟩
    obtain ⟨w, hw, hencodes⟩ := hv.encodes
    have hends := hruns.halts hS.size hL hhalt hstack
    rw [Cell.toWord_of_fixed? hw] at hends
    exact ⟨n, s', addresses, w, hruns, hends, hencodes, hst⟩

end

/-- What is run when a program is. -/
def Program.setting (p : Program) (listing : Listing) (size : Word) : Setting where
  program := p
  context := p.typingContext
  listing := listing
  size := size.toNatClampNeg

theorem Program.clean_of_compile {p : Program} {o : Options} (he : (p.compile o).errors = []) :
    p.resolve.errors = [] ∧ (p.typingContext.check p).errors = [] := by
  by_contra h
  exact (p.compile_of_unclean o h).2.1 he

/-- A program that compiles without an error is resolved and typed, and what is
generated for it is its code. -/
theorem Program.clean (p : Program) (o : Options) (hn : p.ids.Nodup)
    (he : (p.compile o).errors = []) :
    ∃ listing t, p.Resolved p.resolve.bindings p.resolve.ancestry ∧
      p.typingContext.ProgramTyped p t ∧ (p.compile o).listing? = some listing ∧
      (p.compile o).programType? = some t ∧
      ListingOf p ⟨p.resolve.bindings, o.memorySize⟩ listing := by
  obtain ⟨hr, ht⟩ := Program.clean_of_compile he
  have hp := p.resolve_resolved hn hr
  obtain ⟨t, htype, htyped, -⟩ := p.typingContext.check_typed p hp ht
  obtain ⟨listing, hg⟩ := Program.Resolved.generates (t := ⟨p.resolve.bindings, o.memorySize⟩) hp
  rw [p.compile_of_clean o hr ht hg]
  exact ⟨listing, t, hp, htyped, rfl, htype, hp.listingOf hg⟩

theorem Program.setting_target (p : Program) (listing : Listing) {size : Word} (hpos : 0 ≤ size) :
    (p.setting listing size).target = ⟨p.resolve.bindings, size⟩ := by
  simp only [Setting.target, Program.setting, Word.ofNat_toNatClampNeg hpos]
  rfl

theorem Program.setting_valid {p : Program} {t : Ty} {listing : Listing} {size : Word}
    (hn : p.ids.Nodup) (hp : p.Resolved p.resolve.bindings p.resolve.ancestry)
    (ht : p.typingContext.ProgramTyped p t)
    (hl : ListingOf p ⟨p.resolve.bindings, size⟩ listing) (hpos : 0 ≤ size) :
    (p.setting listing size).Valid t := by
  refine ⟨hn, hp, ht, ?_, Word.toNatClampNeg_lt _⟩
  rw [p.setting_target listing hpos]
  exact hl

/-- A program that compiles without an error has code, which does what its
evaluation does, and its value is of the type that is reported. -/
theorem Program.compiled (p : Program) (o : Options) (hn : p.ids.Nodup)
    (he : (p.compile o).errors = []) :
    ∃ listing t, (p.compile o).listing? = some listing ∧ (p.compile o).programType? = some t ∧
      listing.Closed ∧
      (∀ depth, Eval.Safe (p.eval depth) fun r =>
        r.1.OfType p.resolve.ancestry r.2.objects t) ∧
      (listing.code.length < Word.limit → ∀ depth,
        (∃ n, RunsOut listing (Machine.fresh o.memorySize) n) ∨
          (p.setting listing o.memorySize).Realises (Machine.fresh o.memorySize) depth
            (p.eval depth)) := by
  obtain ⟨listing, t, hp, htyped, hl, htype, hlisting⟩ := p.clean o hn he
  refine ⟨listing, t, hl, htype, hlisting.closed, fun depth => ?_, fun hlen depth => ?_⟩
  · exact (Program.eval_safe hp htyped depth).mono fun r h => h.1
  · rcases runsTo_initial listing o.memorySize with hstart | hout
    · have hS := Program.setting_valid hn hp htyped hlisting hstart.size_nonneg
      exact Setting.Valid.realises hS hlen hstart depth
    · exact Or.inl ⟨0, hout⟩

theorem EndsWith.runsUnlimited {L : Listing} {size : Word} {n : Nat} {output : List Word}
    {ending : Machine.Ending} (h : EndsWith L (Machine.fresh size) n output ending)
    (hc : L.Closed) : ∃ steps, L.RunsUnlimited size (ending.report output steps) := by
  obtain ⟨steps, hlater, -⟩ := hc.runAssembly_ends h
  exact ⟨steps, n, hlater⟩

theorem RunsOut.exhaustsMemory {L : Listing} {size : Word} {n : Nat}
    (h : RunsOut L (Machine.fresh size) n) (hc : L.Closed) : L.ExhaustsMemory size := by
  obtain ⟨output, sp, hp, hends⟩ := h
  obtain ⟨steps, hruns⟩ := hends.runsUnlimited hc
  exact ⟨sp, hp, hruns⟩

/-- Compilation is correct: unless it exhausts the memory, the code halts with the
value and the output of the evaluation, fails as the evaluation does, or runs on for
ever. -/
theorem Program.compile_correct (p : Program) (o : Options) (hn : p.ids.Nodup)
    (he : (p.compile o).errors = [])
    (hlen : ∀ listing, (p.compile o).listing? = some listing → listing.code.length < Word.limit) :
    ∃ listing, (p.compile o).listing? = some listing ∧ (listing.ExhaustsMemory o.memorySize ∨
      (∀ v st, p.Ends (.ok (v, st)) → ∃ outcome, listing.RunsUnlimited o.memorySize (.ok outcome) ∧
        outcome.Shows o.memorySize v st) ∧
      (p.Ends (.error .division) → ∃ a,
        listing.RunsUnlimited o.memorySize (.error (.machine (.divisionByZero a)))) ∧
      (p.Ends (.error .receiver) →
        listing.RunsUnlimited o.memorySize (.error (.machine (.addressOutOfRange (-1))))) ∧
      ¬ p.Ends (.error .stuck) ∧
      ((∀ r, ¬ p.Ends r) → ∀ limit,
        runAssembly o.memorySize limit listing.text = .error (.machine (.stepLimit limit)))) := by
  obtain ⟨listing, t, hlisting, -, hclosed, -, hruns⟩ := p.compiled o hn he
  refine ⟨listing, hlisting, ?_⟩
  by_cases hout : ∃ n, RunsOut listing (Machine.fresh o.memorySize) n
  · obtain ⟨n, hout⟩ := hout
    exact Or.inl (hout.exhaustsMemory hclosed)
  have hreal := fun depth => (hruns (hlen listing hlisting) depth).resolve_left hout
  refine Or.inr ⟨?_, ?_, ?_, ?_, ?_⟩
  · rintro v st ⟨-, depth, heval⟩
    have h := hreal depth
    rw [heval] at h
    obtain ⟨n, s, addresses, w, hto, hends, hv, hst⟩ := h
    obtain ⟨steps, hunlimited⟩ := hends.runsUnlimited hclosed
    refine ⟨_, hunlimited, addresses, hst.count, hst.increasing, fun a ha => ?_, hst.output, w, rfl,
      hv⟩
    have hlt := hst.below a ha
    have hroom : s.heap.length + s.stack.length < o.memorySize.toNatClampNeg := hto.room
    omega
  · rintro ⟨-, depth, heval⟩
    have h := hreal depth
    rw [heval] at h
    obtain ⟨n, output, a, hends⟩ := h
    obtain ⟨steps, hunlimited⟩ := hends.runsUnlimited hclosed
    exact ⟨a, hunlimited⟩
  · rintro ⟨-, depth, heval⟩
    have h := hreal depth
    rw [heval] at h
    obtain ⟨n, output, hends⟩ := h
    obtain ⟨steps, hunlimited⟩ := hends.runsUnlimited hclosed
    exact hunlimited
  · rintro ⟨-, depth, heval⟩
    have h := hreal depth
    rw [heval] at h
    exact h
  · intro hnever limit
    -- Deeper calls than instructions have been run by then.
    have heval : p.eval (limit + 1) = .error .depth := by
      by_contra hne
      exact hnever _ ⟨hne, limit + 1, rfl⟩
    have h := hreal (limit + 1)
    rw [heval] at h
    obtain ⟨n, s, hle, hto⟩ := h
    exact hclosed.runAssembly_stepLimit hto hle

/-- The code of the program can be told by words. -/
theorem overrideProgram_code : (overrideProgram.compile {}).errors = [] ∧
    ∀ listing, (overrideProgram.compile {}).listing? = some listing →
      listing.code.length < Word.limit := by
  refine ⟨by decide +kernel, fun listing hl => ?_⟩
  have hall : (overrideProgram.compile {}).listing?.all (fun l => l.code.length < Word.limit) := by
    decide +kernel
  simpa [hl] using hall

/-- The override answers 21, so the program prints and has the value 42, and its code
shows this. -/
theorem overrideProgram_correct : overrideProgram.ids.Nodup ∧
    (overrideProgram.compile {}).errors = [] ∧
    overrideProgram.Ends (.ok (.word 42, ⟨[⟨"B", [.word 20]⟩], [.word 42]⟩)) ∧
    ∃ listing, (overrideProgram.compile {}).listing? = some listing ∧
      (listing.ExhaustsMemory 10000 ∨ ∃ outcome, listing.RunsUnlimited 10000 (.ok outcome) ∧
        outcome.Shows 10000 (.word 42) ⟨[⟨"B", [.word 20]⟩], [.word 42]⟩) := by
  obtain ⟨he, hlen⟩ := overrideProgram_code
  have hends : overrideProgram.Ends (.ok (.word 42, ⟨[⟨"B", [.word 20]⟩], [.word 42]⟩)) :=
    ⟨by decide, 2, by decide +kernel⟩
  obtain ⟨listing, hl, hruns⟩ := overrideProgram.compile_correct {} overrideProgram_ids he hlen
  exact ⟨overrideProgram_ids, he, hends, listing, hl, hruns.imp id fun h => h.1 _ _ hends⟩

/-- The faults that the code of a program without an error may run into: it may need
more memory or more instructions than there are, divide by zero, or call a method on
null, whose address is -1. -/
def Fault.Expected : Fault → Prop
  | .outOfMemory _ _ | .stepLimit _ | .divisionByZero _ => True
  | .addressOutOfRange address => address = -1
  | .invalidOpcode _ _ => False

/-- A run that is stopped or ends with a result or an expected fault. -/
def RunsSafely (r : Except RunError Machine.Outcome) : Prop :=
  match r with
  | .ok _ => True
  | .error (.machine fault) => fault.Expected
  | .error (.assembly _) => False

theorem EndsWith.runsSafely {L : Listing} {size : Word} {n : Nat} {output : List Word}
    {ending : Machine.Ending} (h : EndsWith L (Machine.fresh size) n output ending)
    (hc : L.Closed) (hending : ∀ fault, ending = .failed fault → fault.Expected) (limit : Nat) :
    RunsSafely (runAssembly size limit L.text) := by
  obtain ⟨steps, -, hreport⟩ := hc.runAssembly_ends h
  rcases hreport limit with hr | hr
  · rw [hr]
    cases ending with
    | halted result => trivial
    | failed fault => exact hending fault rfl
  · rw [hr]
    trivial

/-- How the machine comes out if it does what an evaluation does: with an expected fault, or
after too many instructions to tell, or with the value of the evaluation. -/
theorem Setting.outcome (S : Setting) {start : Machine} {depth : Nat}
    {x : Except Abort (Value × Store)}
    (h : (∃ n, RunsOut S.listing start n) ∨ S.Realises start depth x) :
    (∃ n output fault, fault.Expected ∧ EndsWith S.listing start n output (.failed fault)) ∨
      (∃ n s, depth ≤ n ∧ RunsTo S.listing S.size start n s) ∨
      ∃ v st n s addresses w, x = .ok (v, st) ∧ RunsTo S.listing S.size start n s ∧
        EndsWith S.listing start (n + 1) s.output (.halted (some w)) ∧
        v.Encodes addresses w ∧ S.StoreAt st s addresses := by
  rcases h with ⟨n, output, sp, hp, hends⟩ | h
  · exact Or.inl ⟨n, output, .outOfMemory sp hp, trivial, hends⟩
  rcases x with e | ⟨v, st⟩
  · cases e with
    | depth => exact Or.inr (Or.inl h)
    | division =>
      obtain ⟨n, output, a, hends⟩ := h
      exact Or.inl ⟨n, output, .divisionByZero a, trivial, hends⟩
    | receiver =>
      obtain ⟨n, output, hends⟩ := h
      exact Or.inl ⟨n, output, .addressOutOfRange (-1), rfl, hends⟩
    | stuck => exact h.elim
  · obtain ⟨n, s, addresses, w, hto, hends, hv, hst⟩ := h
    exact Or.inr (Or.inr ⟨v, st, n, s, addresses, w, rfl, hto, hends, hv, hst⟩)

/-- The code of a program runs safely, however many instructions are allowed. -/
theorem Program.runAssembly_safely (p : Program) (o : Options) (hn : p.ids.Nodup)
    (he : (p.compile o).errors = []) {listing : Listing}
    (hl : (p.compile o).listing? = some listing) (hlen : listing.code.length < Word.limit)
    (limit : Nat) : RunsSafely (runAssembly o.memorySize limit listing.text) := by
  obtain ⟨listing', t, hl', -, hclosed, -, hruns⟩ := p.compiled o hn he
  obtain rfl : listing = listing' := Option.some.inj (hl.symm.trans hl')
  rcases (p.setting listing o.memorySize).outcome (hruns hlen (limit + 1)) with
    ⟨n, output, fault, hfault, hends⟩ | ⟨n, s, hle, hto⟩ |
    ⟨v, st, n, s, addresses, w, -, -, hends, -⟩
  · exact hends.runsSafely hclosed (by rintro _ ⟨⟩; exact hfault) limit
  · have hstop : runAssembly o.memorySize limit listing.text = _ :=
      hclosed.runAssembly_stepLimit hto hle
    rw [hstop]
    trivial
  · exact hends.runsSafely hclosed (by rintro _ ⟨⟩) limit

/-- A program that compiles without an error can be executed, unless it runs into an
expected fault. -/
theorem Program.execute_safe (p : Program) (o : Options) (hn : p.ids.Nodup)
    (he : (p.compile o).errors = [])
    (hlen : ∀ listing, (p.compile o).listing? = some listing → listing.code.length < Word.limit) :
    (∃ x, p.execute o = .ok x) ∨
      ∃ fault : Fault, fault.Expected ∧ p.execute o = .error (.run (.machine fault)) := by
  obtain ⟨listing, t, hl, -⟩ := p.compiled o hn he
  have hsafe := p.runAssembly_safely o hn he hl (hlen listing hl) Machine.defaultLimit
  unfold Program.execute
  simp only [hl]
  cases hr : runAssembly o.memorySize Machine.defaultLimit listing.text with
  | ok outcome => exact Or.inl ⟨_, rfl⟩
  | error e =>
    rw [hr] at hsafe
    cases e with
    | assembly e => exact hsafe.elim
    | machine fault => exact Or.inr ⟨fault, hsafe, rfl⟩

theorem overrideProgram_safe : overrideProgram.ids.Nodup ∧
    (overrideProgram.compile {}).errors = [] ∧
    ((∃ x, overrideProgram.execute {} = .ok x) ∨ ∃ fault : Fault, fault.Expected ∧
      overrideProgram.execute {} = .error (.run (.machine fault))) :=
  ⟨overrideProgram_ids, overrideProgram_code.1,
    overrideProgram.execute_safe {} overrideProgram_ids overrideProgram_code.1
      overrideProgram_code.2⟩

end Classlet
