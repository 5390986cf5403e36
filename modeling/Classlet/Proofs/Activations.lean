import Classlet.Proofs.CallStack
import Classlet.Proofs.Correctness

/-!
Activation records. A call leaves on the stack, from the top, the access link, the
arguments in the order of the parameters and the frame pointer of the caller. The code
that is called replaces all of this by the word of its result, gives the caller its frame
pointer back and goes on after the call; what was below on the stack it leaves alone.
When a run halts, the stack has the result above the outermost frame.

All of this is said of the machine, at any moment of any run, whether the run ends or
not.
-/

namespace Classlet

open Machine (Progress Transfer after? transferAt? openCalls)

/-- In the activation that the machine is in after `n` instructions, the word was on top
of the stack when the machine was at a place of the code. -/
def Listing.Computes (L : Listing) (start : Machine) (n place : Nat) (w : Word) : Prop :=
  ∃ t ≤ n, ∃ m, after? L.code.toArray start t = some m ∧
    openCalls L.code.toArray start t = openCalls L.code.toArray start n ∧
    m.ip = Int64.ofNat place ∧ m.top? = some w

/-- After `k` instructions the machine `m` makes a call, and as `m'` it enters the code of
a function or method with `n` parameters, whose result is computed at the place `stop`. -/
structure Setting.Enters (S : Setting) (start : Machine) (k : Nat) (m m' : Machine)
    (n stop : Nat) : Prop where
  block : ∃ place, S.landmarks.block place n stop ∧ m'.ip = Int64.ofNat place
  site : ∃ place ends source, S.CallAt place ends source ∧ m.ip = Int64.ofNat place ∧
    ends.length = n ∧ (∃ link, m.link? source = some link ∧ m'.stackWord? 0 = some link) ∧
    ∀ i stop, ends[i]? = some stop →
      ∃ w, S.listing.Computes start k stop w ∧ m'.stackWord? (i + 1) = some w
  frame : m'.fp = m.fp ∧ m'.stackWord? (n + 1) = some m.fp

/-- After `j` instructions the machine returns, as `m₂`, from the call that `m` made after
`k` instructions and that was entered as `m'`. -/
structure Setting.Leaves (S : Setting) (start : Machine) (k j : Nat) (m m' m₂ : Machine)
    (n stop : Nat) : Prop where
  ip : m₂.ip = m.ip + 1
  fp : m₂.fp = m.fp
  sp : m₂.sp.toInt = m'.sp.toInt + n + 1
  result : ∃ w, S.listing.Computes start j stop w ∧ m₂.top? = some w
  kept : ∀ a : Word, m'.sp.toInt + n + 2 ≤ a.toInt → m₂.word? a = m'.word? a

/-- In the run from `start` on, each `js` that is not a return enters the code of a function
or method, and each return leaves the last call that has not returned. -/
structure Setting.KeepsRecords (S : Setting) (start : Machine) : Prop where
  calls : ∀ k m, after? S.listing.code.toArray start k = some m →
    m.transfer? S.listing.code.toArray = some .call → ∃ m' n stop,
      after? S.listing.code.toArray start (k + 1) = some m' ∧ S.Enters start k m m' n stop
  returns : ∀ j m₁, after? S.listing.code.toArray start j = some m₁ →
    m₁.transfer? S.listing.code.toArray = some .leave → ∃ k m m' m₂ n stop,
      openCalls S.listing.code.toArray start j = k :: openCalls S.listing.code.toArray start k ∧
      after? S.listing.code.toArray start k = some m ∧
      after? S.listing.code.toArray start (k + 1) = some m' ∧ S.Enters start k m m' n stop ∧
      after? S.listing.code.toArray start (j + 1) = some m₂ ∧ S.Leaves start k j m m' m₂ n stop

section

variable {L : Listing} {M : Nat} {K : Route} {start : Machine} {n : Nat} {s : Snapshot}

theorem Mirrors.toInt_sp {m : Machine} (h : Mirrors M s m) (hM : M < Word.limit) :
    m.sp.toInt = (M : Int) - s.stack.length := by
  have hfits := h.fits
  have hlt : M - s.stack.length < Word.limit := by omega
  rw [h.sp, Int64.toInt_ofNat_of_lt hlt]
  omega

/-- What was marked in the same activation was computed there. -/
theorem Recalls.computes (h : Recalls L M start n s) (hM : M < Word.limit) {place : Nat}
    {c : Cell} {below : List Cell} (hmark : ⟨place, c :: below, s.within⟩ ∈ s.marks) :
    L.Computes start n place (c.toWord M) := by
  obtain ⟨t, ht, s₀, hruns, hip, hstack, hwithin⟩ := h.marks _ hmark
  obtain ⟨m, hm, hmirrors⟩ := hruns.after?
  refine ⟨t, ht, m, hm, Machine.openCalls_eq (hwithin.trans h.within), ?_, hmirrors.top? hM hstack⟩
  rw [hmirrors.ip, hip]

variable (hM : M < Word.limit) (hL : L.code.length < Word.limit)

include hM hL

/-- There is always room for a call or a return, as it takes a word from the stack. -/
theorem RunsTo.transfer (h : RunsTo L M start n s) {before : Nat} {op : PlainOp}
    (hip : s.ip = before + 1) (hcode : L.Has before (Code.instrs [.plain op, .plain .call]))
    {s' : Snapshot} (hd : Does L M K (.plain .call) s s') (hheap : s'.heap = s.heap)
    (hstack : s'.stack.length < s.stack.length) : RunsTo L M start (n + 1) s' := by
  have hnext : L.Has s.ip [.instr (.plain .call)] := by
    rw [hip]
    exact Listing.Has.right (a := [.instr (.plain op)]) hcode
  have hroom : s'.Room M := by
    have hroom := h.room
    unfold Snapshot.Room at hroom ⊢
    rw [hheap]
    omega
  exact (h.step hM hL hnext hd).resolve_right fun hout => hout.1 hroom

end

section

variable {S : Setting} {start : Machine} {k : Nat} {s : Snapshot} (hM : S.size < Word.limit)
  (hL : S.listing.code.length < Word.limit)

include hM hL

/-- A call enters the code of a function or method. -/
theorem Recalls.enters (h : Recalls S.listing S.size start k s) {target stop : Nat} {link : Cell}
    {args rest : List Cell}
    (hcall : CallsAt S.listing S.route s target stop link args rest) :
    ∃ m m' s', after? S.listing.code.toArray start k = some m ∧ Mirrors S.size s m ∧
      after? S.listing.code.toArray start (k + 1) = some m' ∧ Mirrors S.size s' m' ∧
      s'.stack = link :: (args ++ s.fp :: rest) ∧ S.Enters start k m m' args.length stop := by
  obtain ⟨m, hm, hmirrors⟩ := h.runs.after?
  obtain ⟨before, hip, hcode⟩ := hcall.code
  have hruns := h.runs.transfer hM hL hip hcode (.call hcall) rfl (by rw [hcall.stack]; simp)
  obtain ⟨m', hm', hmirrors'⟩ := hruns.after?
  refine ⟨m, m', _, hm, hmirrors, hm', hmirrors', rfl, ?_⟩
  obtain ⟨ends, source, hsite, hlen, hlink, hends⟩ := hcall.site
  refine ⟨⟨target, hcall.block, hmirrors'.ip⟩, ⟨s.ip, ends, source, hsite, hmirrors.ip, hlen,
    ⟨link.toWord S.size, hmirrors.link? hM hlink, hmirrors'.stackWord? hM rfl⟩, ?_⟩, ?_, ?_⟩
  · intro i place hi
    have hlt : i < args.length := by
      rw [← hlen]
      exact (List.getElem?_eq_some_iff.mp hi).1
    have hmark := hends i place hi
    rw [List.drop_append_of_le_length (Nat.le_of_lt hlt), List.drop_eq_getElem_cons hlt,
      List.cons_append] at hmark
    refine ⟨args[i].toWord S.size, h.computes hM hmark, hmirrors'.stackWord? hM ?_⟩
    rw [List.getElem?_cons_succ, List.getElem?_append_left hlt, List.getElem?_eq_getElem hlt]
  · rw [hmirrors'.fp, hmirrors.fp]
  · rw [hmirrors.fp]
    apply hmirrors'.stackWord? hM
    rw [List.getElem?_cons_succ, List.getElem?_append_right (Nat.le_refl _), Nat.sub_self,
      List.getElem?_cons_zero]

/-- A return leaves the last call that has not returned. -/
theorem Tracks.leaves {j : Nat} (h : Tracks S.listing S.size S.route start j s)
    {a : Activation} {calls : List Activation} {v : Cell}
    (hleave : LeavesAt S.listing s a calls v) :
    ∃ k m m' m₂ n stop,
      openCalls S.listing.code.toArray start j = k :: openCalls S.listing.code.toArray start k ∧
      after? S.listing.code.toArray start k = some m ∧
      after? S.listing.code.toArray start (k + 1) = some m' ∧ S.Enters start k m m' n stop ∧
      after? S.listing.code.toArray start (j + 1) = some m₂ ∧
      S.Leaves start k j m m' m₂ n stop := by
  have hcalls := h.calls
  rw [hleave.calls] at hcalls
  obtain ⟨k, below, hmade, -, hopen⟩ := List.forall₂_cons_left_iff.mp hcalls
  obtain ⟨-, s₀, target, link, args, hrecalls, hcall, hfp, hback⟩ := hmade
  obtain ⟨m, m', s', hm, hmirrors, hm', hmirrors', hstack', henters⟩ := hrecalls.enters hM hL hcall
  obtain ⟨before, hip, hcode⟩ := hleave.code
  have hruns := h.runs.transfer (K := S.route) hM hL hip hcode (.leave hleave) rfl (by
    rw [hleave.stack]
    simp)
  obtain ⟨m₂, hm₂, hmirrors₂⟩ := hruns.after?
  have hlast : openCalls S.listing.code.toArray start j = [] ++ k :: below := hopen
  have hbelow := Machine.openCalls_below hlast
  have hsp' := hmirrors'.toInt_sp hM
  have hsp₂ := hmirrors₂.toInt_sp hM
  rw [hstack', List.length_cons, List.length_append, List.length_cons] at hsp'
  rw [List.length_cons] at hsp₂
  refine ⟨k, m, m', m₂, args.length, a.stop, by rw [hopen, hbelow], hm, hm', henters, hm₂, ?_⟩
  refine ⟨?_, ?_, by omega, ?_, ?_⟩
  · rw [hmirrors₂.ip, hmirrors.ip, Word.ofNat_add_one, hback]
  · rw [hmirrors₂.fp, hmirrors.fp, ← hfp, ← hleave.fp]
  · obtain ⟨above, hmark⟩ := hleave.result
    exact ⟨v.toWord S.size, h.recalls.computes hM hmark, hmirrors₂.top? hM rfl⟩
  · intro address haddress
    have hkept : a.rest <:+ s'.stack := by
      rw [hstack', ← List.cons_append, List.append_cons]
      exact List.suffix_append _ _
    exact hmirrors'.word?_congr hmirrors₂ hkept (List.suffix_cons _ _) (by omega)

end

section

variable {S : Setting} {start : Machine} {t : Ty} (hS : S.Valid t)

include hS

/-- A run of a program goes on for as long as is asked, or comes to its end or to an
instruction that fails. -/
theorem Setting.Valid.reaches_end (depth : Nat) :
    S.Reaches .initial fun n s => depth ≤ n ∨ (∃ v st, S.Finishes v st s) ∨
      ∃ fault, S.FailsAt s fault := by
  have hfollows := hS.follows depth
  have hsafe := S.program.eval_safe hS.resolved hS.typed depth
  rcases heval : S.program.eval depth with e | ⟨v, st⟩
  · rw [heval] at hfollows hsafe
    cases e with
    | depth => exact Setting.Reaches.mono hfollows fun n s hle => Or.inl hle
    | division =>
      refine Setting.Reaches.mono hfollows fun n s hfails => Or.inr (Or.inr ?_)
      obtain ⟨a, hfails⟩ := hfails
      exact ⟨_, hfails⟩
    | receiver => exact Setting.Reaches.mono hfollows fun n s hfails => Or.inr (Or.inr ⟨_, hfails⟩)
    | stuck => exact hsafe.elim
  · rw [heval] at hfollows
    exact Setting.Reaches.mono hfollows fun n s hends => Or.inr (Or.inl ⟨v, st, hends⟩)

variable (hL : S.listing.code.length < Word.limit)
  (hs : RunsTo S.listing S.size start 0 .initial)

include hL hs

/-- Every moment of a run of the machine is one of a run of snapshots, which says what
comes next. -/
theorem Setting.Valid.next {j : Nat} (hgoes : after? S.listing.code.toArray start j ≠ none) :
    ∃ s, Tracks S.listing S.size S.route start j s ∧
      s.Next S.listing S.size S.route := by
  have htracks : Tracks S.listing S.size S.route start 0 .initial := .initial hs
  obtain ⟨n, s, hsteps, hQ⟩ := hS.reaches_end (j + 1)
  by_cases hlt : j < n
  · obtain ⟨s₀, s₁, i, h₀, hi, hd⟩ :=
      htracks.along hL hS.size hsteps (Nat.zero_le j) (by omega) hgoes
    exact ⟨s₀, h₀, .does hi hd⟩
  rcases htracks.steps hL hS.size hsteps with hend | ⟨output, sp, hp, hends⟩
  · rw [Nat.zero_add] at hend
    -- The run of snapshots is over by then, so it is over just now.
    have hlast : ∀ {output ending}, EndsWith S.listing start (n + 1) output ending → j = n := by
      intro output ending hends
      by_contra hne
      exact hgoes (hends.after? (by omega))
    rcases hQ with hroom | hle | ⟨v, st, hhalt, -, addresses, w, rest, hstack, -⟩ |
      ⟨fault, i, hi, hf⟩
    · exact absurd hend.runs.room hroom
    · omega
    · rw [hlast (hend.runs.halts hS.size hL hhalt hstack)]
      exact ⟨s, hend, .halts hhalt hstack⟩
    · rw [hlast (hend.runs.fails hS.size hL hi hf)]
      exact ⟨s, hend, .fails hi hf⟩
  · exact absurd (hends.after? (by omega)) hgoes

/-- A run that goes on has done an instruction. -/
theorem Setting.Valid.moves {n : Nat} (hgoes : after? S.listing.code.toArray start (n + 1) ≠ none) :
    ∃ s i s', Tracks S.listing S.size S.route start n s ∧ S.listing.Has s.ip [.instr i] ∧
      Does S.listing S.size S.route i s s' ∧ RunsTo S.listing S.size start (n + 1) s' := by
  obtain ⟨s, htracks, hnext⟩ := hS.next hL hs (Machine.after?_of_succ hgoes)
  cases hnext with
  | halts hi hstack =>
    exact absurd ((htracks.runs.halts hS.size hL hi hstack).after? (Nat.le_refl _)) hgoes
  | fails hi hf => exact absurd ((htracks.runs.fails hS.size hL hi hf).after? (Nat.le_refl _)) hgoes
  | @does i s' hi hd =>
    rcases htracks.runs.step hS.size hL hi hd with hruns | ⟨-, output, sp, hp, hends⟩
    · exact ⟨s, i, s', htracks, hi, hd, hruns⟩
    · exact absurd (hends.after? (Nat.le_refl _)) hgoes

/-- Every `js` of a run is a call or a return as code has them. -/
theorem Setting.Valid.transfers {j : Nat} {x : Transfer}
    (hx : transferAt? S.listing.code.toArray start j = some x) :
    ∃ s, Tracks S.listing S.size S.route start j s ∧
      match x with
      | .call => ∃ target stop link args rest,
          CallsAt S.listing S.route s target stop link args rest
      | .leave => ∃ a calls v, LeavesAt S.listing s a calls v := by
  obtain ⟨s, htracks, hnext⟩ := hS.next hL hs (Machine.after?_ne_none hx)
  refine ⟨s, htracks, ?_⟩
  have hother : ∀ i, S.listing.Has s.ip [.instr i] → i ≠ .plain .call → False := by
    intro i hi hne
    rw [htracks.runs.transferAt?_of_ne hL hi hne] at hx
    cases hx
  cases hnext with
  | halts hi _ => exact (hother _ hi nofun).elim
  | @fails i fault hi hf =>
    have hne : i ≠ .plain .call := by cases hf <;> exact nofun
    exact (hother i hi hne).elim
  | does hi hd =>
    cases hd with
    | call hcall =>
      rw [htracks.runs.transferAt?_of_call hL hcall.code, if_neg nofun] at hx
      cases hx
      exact ⟨_, _, _, _, _, hcall⟩
    | leave hleave =>
      rw [htracks.runs.transferAt?_of_call hL hleave.code, if_pos rfl] at hx
      cases hx
      exact ⟨_, _, _, hleave⟩
    | _ => exact (hother _ hi nofun).elim

theorem Setting.Valid.keepsRecords : S.KeepsRecords start := by
  refine ⟨fun k m hm hcall => ?_, fun j m₁ hm₁ hleave => ?_⟩
  · have hx : transferAt? S.listing.code.toArray start k = some .call := by
      rw [transferAt?, hm, Option.bind_some, hcall]
    obtain ⟨s, htracks, target, stop, link, args, rest, hcalls⟩ := hS.transfers hL hs hx
    obtain ⟨m', m'', s', hm', -, hnext, -, -, henters⟩ := htracks.recalls.enters hS.size hL hcalls
    have heq : m = m' := Option.some.inj (hm.symm.trans hm')
    rw [heq]
    exact ⟨m'', _, stop, hnext, henters⟩
  · have hx : transferAt? S.listing.code.toArray start j = some .leave := by
      rw [transferAt?, hm₁, Option.bind_some, hleave]
    obtain ⟨s, htracks, a, calls, v, hleaves⟩ := hS.transfers hL hs hx
    exact htracks.leaves hS.size hL hleaves

/-- A run that halts leaves the result above the outermost frame. -/
theorem Setting.Valid.halts {k : Nat} {p : Progress} {r : Option Word}
    (h : Progress.advance S.listing.code.toArray k { machine := start } = (p, some (.halted r))) :
    p.machine.fp = Int64.ofNat S.size ∧
      p.machine.sp.toInt = (S.size : Int) - 1 - S.program.frameSize := by
  have hfailed : ∀ {n output fault}, ¬ EndsWith S.listing start n output (.failed fault) := by
    rintro n output fault ⟨q, hq, -⟩
    have hunique := Progress.advance_unique h hq
    cases hunique.2
  obtain hout | ⟨n, s, hruns, hQ⟩ := (hS.reaches_end (k + 1)).run hS.size hL hs
  · obtain ⟨n, output, sp, hp, hends⟩ := hout
    exact (hfailed hends).elim
  rcases hQ with hle | ⟨v, st, hhalt, hfp, addresses, w, rest, hstack, hrest, -⟩ | ⟨fault, hfails⟩
  · obtain ⟨q, hq, -⟩ := hruns.state
    obtain ⟨i, rfl⟩ := Nat.exists_eq_add_of_le (Nat.le_of_succ_le hle)
    rw [Progress.advance_ended h] at hq
    cases hq
  · obtain ⟨q, hq, -, -, hmirrors⟩ := hruns.halted hS.size hL hhalt hstack
    rw [(Progress.advance_unique h hq).1]
    have hsp := hmirrors.toInt_sp hS.size
    rw [hstack, List.length_cons, hrest] at hsp
    have hend : q.machine.fp = Int64.ofNat S.size := by
      rw [hmirrors.fp, hfp, Cell.toWord, Place.address, Int.add_zero, Int64.ofInt_eq_ofNat]
    exact ⟨hend, by omega⟩
  · exact (hfailed (hfails.ends hS.size hL hruns)).elim

end

/-- In every run of a program that compiles without an error, the machine keeps its
activation records, and when it halts there is only the outermost frame. -/
theorem Program.activations_restored (p : Program) (o : Options) (hn : p.ids.Nodup)
    (he : (p.compile o).errors = []) {listing : Listing}
    (hl : (p.compile o).listing? = some listing) (hlen : listing.code.length < Word.limit) :
    (p.setting listing o.memorySize).KeepsRecords (Machine.fresh o.memorySize) ∧
    ∀ k q r, Progress.advance listing.code.toArray k { machine := Machine.fresh o.memorySize } =
        (q, some (.halted r)) →
      q.machine.fp = o.memorySize ∧
        q.machine.sp.toInt = o.memorySize.toInt - 1 - p.frameSize := by
  obtain ⟨listing', t, hp, ht, hl', -, hlisting⟩ := p.clean o hn he
  obtain rfl : listing = listing' := Option.some.inj (hl.symm.trans hl')
  rcases runsTo_initial listing o.memorySize with hstart | ⟨output, sp, hp, hends⟩
  · have hpos := hstart.size_nonneg
    have hS := Program.setting_valid hn hp ht hlisting hpos
    refine ⟨hS.keepsRecords hlen hstart, fun k q r hq => ?_⟩
    obtain ⟨hfp, hsp⟩ := hS.halts hlen hstart hq
    have hsize : Int64.ofNat (p.setting listing o.memorySize).size = o.memorySize :=
      Word.ofNat_toNatClampNeg hpos
    have hint : o.memorySize.toInt = (p.setting listing o.memorySize).size := by
      rw [← Int64.toInt_ofNat_of_lt hS.size]
      exact (congrArg Int64.toInt hsize).symm
    refine ⟨hfp.trans hsize, ?_⟩
    rw [hsp, hint]
    rfl
  · -- Without memory the run ends before its first instruction.
    have hnone : ∀ k, after? listing.code.toArray (Machine.fresh o.memorySize) k = none :=
      fun k => hends.after? (Nat.zero_le k)
    refine ⟨⟨fun k m hm _ => ?_, fun j m hm _ => ?_⟩, fun k q r hq => ?_⟩
    · exact absurd (hm.symm.trans (hnone k)) nofun
    · exact absurd (hm.symm.trans (hnone j)) nofun
    · obtain ⟨q', hq', -⟩ := hends
      have hunique := Progress.advance_unique hq hq'
      cases hunique.2

/-- Moments of a run in a small memory: `twice` is called and returns, and the run
halts. -/
theorem overrideProgram_moments : (overrideProgram.compile { memorySize := 60 }).errors = [] ∧
    (overrideProgram.compile { memorySize := 60 }).listing?.all fun l =>
      l.code.length < Word.limit ∧
      transferAt? l.code.toArray (Machine.fresh 60) 90 = some .leave ∧
      openCalls l.code.toArray (Machine.fresh 60) 90 = [71] ∧
      (Progress.advance l.code.toArray 93 { machine := Machine.fresh 60 }).2 =
        some (.halted (some 42)) := by
  constructor <;> decide +kernel

/-- The return leaves the call, and in the end there is the frame of two classes and two
declarations. -/
theorem overrideProgram_restored : ∃ listing,
    (overrideProgram.compile { memorySize := 60 }).listing? = some listing ∧
    (∃ m m' m₂ n stop, after? listing.code.toArray (Machine.fresh 60) 71 = some m ∧
      after? listing.code.toArray (Machine.fresh 60) 72 = some m' ∧
      (overrideProgram.setting listing 60).Enters (Machine.fresh 60) 71 m m' n stop ∧
      after? listing.code.toArray (Machine.fresh 60) 91 = some m₂ ∧
      (overrideProgram.setting listing 60).Leaves (Machine.fresh 60) 71 90 m m' m₂ n stop) ∧
    ∃ q r, Progress.advance listing.code.toArray 93 { machine := Machine.fresh 60 } =
        (q, some (.halted r)) ∧ q.machine.fp = 60 ∧ q.machine.sp.toInt = 54 := by
  obtain ⟨he, hall⟩ := overrideProgram_moments
  obtain ⟨listing, t, hl, -⟩ := overrideProgram.compiled { memorySize := 60 } overrideProgram_ids he
  rw [hl, Option.all_some, decide_eq_true_iff] at hall
  obtain ⟨hlen, hleave, hopen, hhalt⟩ := hall
  obtain ⟨hrecords, hhalts⟩ :=
    overrideProgram.activations_restored { memorySize := 60 } overrideProgram_ids he hl hlen
  obtain ⟨m₁, hm₁, hreturn⟩ := Option.bind_eq_some_iff.mp hleave
  obtain ⟨k, m, m', m₂, n, stop, hlast, hm, hm', henters, hm₂, hleaves⟩ :=
    hrecords.returns 90 m₁ hm₁ hreturn
  obtain rfl : 71 = k := (List.cons.inj (hopen.symm.trans hlast)).1
  have hq : Progress.advance listing.code.toArray 93 { machine := Machine.fresh 60 } =
      (_, some (.halted (some 42))) := Prod.ext rfl hhalt
  obtain ⟨hfp, hsp⟩ := hhalts 93 _ (some 42) hq
  exact ⟨listing, hl, ⟨m, m', m₂, n, stop, hm, hm', henters, hm₂, hleaves⟩,
    _, some 42, hq, hfp, hsp⟩

end Classlet
