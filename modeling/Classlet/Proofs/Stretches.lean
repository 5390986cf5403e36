import Classlet.Proofs.FunctionValues
import Classlet.Proofs.Limits
import Classlet.Proofs.Spans

/-!
Runs through a stretch of code. From a place in the stretch a run goes on to a later place in
it, or to its end, or it makes a call. What is called returns behind the call. So until the
run is at the end of the stretch, it is in the stretch or in calls that were made from there,
and it never comes to a place again without a call that has not returned.
-/

namespace Classlet

open Machine (Progress after? transferAt? openCalls)

/-! What is printed. -/

namespace Machine

/-- The word that the next instruction prints. -/
def printed? (code : Array Word) (m : Machine) : Option Word :=
  match step code m with
  | .ok (.printed w) _ => some w
  | _ => none

/-- The word that the instruction after the first `n` prints. -/
def printedAt? (code : Array Word) (start : Machine) (n : Nat) : Option Word :=
  (after? code start n).bind (printed? code)

variable {code : Array Word} {start : Machine} {n : Nat}

theorem Progress.advance_zero_fst (p : Progress) : (p.advance code 0).1 = p := by
  by_cases hsp : p.machine.sp ≤ p.machine.hp
  · rw [advance_of_exhausted hsp]
  · rw [advance_zero_of_room hsp]

theorem Progress.room_of_advance {p q : Progress} (h : p.advance code n = (q, none)) :
    ¬ q.machine.sp ≤ q.machine.hp := by
  intro hsp
  have hnext := advance_add h 0
  rw [Nat.add_zero, h, advance_of_exhausted hsp] at hnext
  cases hnext

/-- An instruction adds to the output what it prints. -/
theorem output_succ (code : Array Word) (start : Machine) (n : Nat) :
    (Progress.advance code (n + 1) { machine := start }).1.output.toList =
      (Progress.advance code n { machine := start }).1.output.toList ++
        (printedAt? code start n).toList := by
  rcases hp : Progress.advance code n { machine := start } with ⟨p, _ | ending⟩
  · have on : p.GoesOn none := ⟨Progress.room_of_advance hp, fun _ hn => by cases hn⟩
    have hafter : after? code start n = some p.machine := by rw [after?, hp]
    rw [printedAt?, hafter, Option.bind_some, printed?, Progress.advance_add hp 1]
    rcases hstep : step code p.machine with ⟨signal, m⟩ | ⟨fault, m⟩
    · cases signal with
      | quiet =>
        rw [Progress.advance_of_continues (.quiet on hstep), Progress.advance_zero_fst]
        exact (List.append_nil _).symm
      | printed w =>
        rw [Progress.advance_of_continues (.printed on hstep), Progress.advance_zero_fst]
        exact Array.toList_push
      | halted result =>
        rw [Progress.advance_of_halted on hstep]
        exact (List.append_nil _).symm
    · rw [Progress.advance_of_failed on hstep]
      exact (List.append_nil _).symm
  · rw [Progress.advance_ended hp 1, printedAt?, after?, hp]
    exact (List.append_nil _).symm

/-- What a run has printed, instruction by instruction. -/
theorem output_eq (code : Array Word) (start : Machine) (n : Nat) :
    (Progress.advance code n { machine := start }).1.output.toList =
      (List.range n).filterMap (printedAt? code start) := by
  induction n with
  | zero => rw [Progress.advance_zero_fst]; rfl
  | succ n ih =>
    rw [output_succ, ih, List.range_succ, List.filterMap_append]
    cases h : printedAt? code start n <;> simp [h]

end Machine

/-! One instruction. -/

namespace Listing

/-- After `n` instructions the run is at the place. -/
def At (L : Listing) (start : Machine) (n place : Nat) : Prop :=
  ∃ m, after? L.code.toArray start n = some m ∧ m.ip = Int64.ofNat place

/-- What the instruction after the first `n` does: the run goes on in the code, or it makes a
call, or it returns behind the last call that has not returned. -/
inductive Turn (L : Listing) (start : Machine) (n place : Nat) : Prop
  | next {i : Instr} (hi : L.Has place [.instr i]) (hat : L.At start (n + 1) (place + i.size))
    (hopen : openCalls L.code.toArray start (n + 1) = openCalls L.code.toArray start n)
  | jump {test : JumpTest} {l : Label} (hi : L.Has place [.instr (.jump test l)])
    (hat : L.At start (n + 1) (L.position l))
    (hopen : openCalls L.code.toArray start (n + 1) = openCalls L.code.toArray start n)
  | call (hi : L.Has place [.instr (.plain .call)])
    (hopen : openCalls L.code.toArray start (n + 1) = n :: openCalls L.code.toArray start n)
  | leave {before c js : Nat} (hplace : place = before + 1)
    (hcode : L.Has before (Code.instrs [.plain (.pushReg .ra), .plain .call]))
    (hopen : openCalls L.code.toArray start n = c :: openCalls L.code.toArray start (n + 1))
    (hc : L.At start c js) (hjs : js < L.code.length) (hat : L.At start (n + 1) (js + 1))

/-- Since the run was at `lo` after `k` instructions, it has not left the stretch that ends at
`hi`: it is there or in calls that were made from there. -/
inductive Inside (L : Listing) (start : Machine) (k lo hi n : Nat) : Prop
  | here {place : Nat} (hat : L.At start n place)
    (hopen : openCalls L.code.toArray start n = openCalls L.code.toArray start k)
    (hlo : lo ≤ place) (hhi : place ≤ hi) (hlater : k < n → lo < place)
  | deeper {above : List Nat} {c place : Nat}
    (hopen : openCalls L.code.toArray start n = above ++ c :: openCalls L.code.toArray start k)
    (hat : L.At start c place) (hlo : lo ≤ place) (hhi : place < hi)

section

variable {L : Listing} {start : Machine} {k lo hi n : Nat}

theorem Has.lt {place : Nat} {i : Instr} (h : L.Has place [.instr i]) :
    place < L.code.length := by
  have hle := h.end_le
  have hpos := i.size_pos
  rw [Line.sizes_cons, Line.size] at hle
  omega

variable (hL : L.code.length < Word.limit)

include hL

theorem At.unique {place place' : Nat} (h : L.At start n place) (h' : L.At start n place')
    (hle : place ≤ L.code.length) (hle' : place' ≤ L.code.length) : place = place' := by
  obtain ⟨m, hm, hip⟩ := h
  obtain ⟨m', hm', hip'⟩ := h'
  obtain rfl := Option.some.inj (hm.symm.trans hm')
  exact Word.ofNat_inj (by omega) (by omega) (hip.symm.trans hip')

/-- An instruction in a stretch, or in a call from there, does not leave it. -/
theorem Inside.step (hflows : L.Flows lo hi) (hend : hi ≤ L.code.length)
    (h : L.Inside start k lo hi n)
    (hnot : openCalls L.code.toArray start n = openCalls L.code.toArray start k →
      ¬ L.At start n hi) {place : Nat} (hat : L.At start n place) (hplace : place < L.code.length)
    (hturn : L.Turn start n place) : L.Inside start k lo hi (n + 1) := by
  cases h with
  | @here place' hat' hopen hlo hhi hlater =>
    obtain rfl : place' = place := hat'.unique hL hat (by omega) (by omega)
    have hlt : place' < hi := by
      rcases Nat.lt_or_eq_of_le hhi with hlt | rfl
      · exact hlt
      · exact absurd hat (hnot hopen)
    cases hturn with
    | @next i hi hat hopen' =>
      have hpos := i.size_pos
      exact .here hat (hopen'.trans hopen) (by omega) (hflows.next _ i hlo hlt hi) (by omega)
    | jump hi hat hopen' =>
      obtain ⟨hforward, hle⟩ := hflows.jump _ _ _ hlo hlt hi
      exact .here hat (hopen'.trans hopen) (by omega) hle (by omega)
    | call hi hopen' =>
      have hcalled : openCalls L.code.toArray start (n + 1) =
          [] ++ n :: openCalls L.code.toArray start k := by rw [hopen', hopen, List.nil_append]
      exact .deeper hcalled hat hlo hlt
    | leave hbefore hcode _ _ _ _ => cases hflows.js _ _ (by omega) (by omega) hcode
  | @deeper above c place' hopen hat' hlo hhi =>
    cases hturn with
    | next _ _ hopen' => exact .deeper (hopen'.trans hopen) hat' hlo hhi
    | jump _ _ hopen' => exact .deeper (hopen'.trans hopen) hat' hlo hhi
    | call _ hopen' =>
      have hcalled : openCalls L.code.toArray start (n + 1) =
          (n :: above) ++ c :: openCalls L.code.toArray start k := by
        rw [hopen', hopen, List.cons_append]
      exact .deeper hcalled hat' hlo hhi
    | @leave before c' js _ _ hopen' hc hjs hback =>
      rw [hopen'] at hopen
      cases above with
      | nil =>
        obtain ⟨rfl, hrest⟩ := List.cons.inj hopen
        obtain rfl : js = place' := hc.unique hL hat' (by omega) (by omega)
        exact .here hback hrest (by omega) hhi (by omega)
      | cons a above =>
        obtain ⟨-, hrest⟩ := List.cons.inj hopen
        exact .deeper hrest hat' hlo hhi

end

end Listing

section

variable {L : Listing} {M : Nat} {start : Machine} {n : Nat} {s : Snapshot}

theorem RunsTo.at (h : RunsTo L M start n s) : L.At start n s.ip := by
  obtain ⟨m, hm, hmirrors⟩ := h.after?
  exact ⟨m, hm, hmirrors.ip⟩

end

section

variable {S : Setting} {start : Machine} {t : Ty} (hS : S.Valid t)
  (hL : S.listing.code.length < Word.limit) (hs : RunsTo S.listing S.size start 0 .initial)

include hS hL hs

/-- What the instructions of a run do. -/
theorem Setting.Valid.turn {n : Nat} (hgoes : after? S.listing.code.toArray start (n + 1) ≠ none) :
    ∃ place, S.listing.At start n place ∧ place < S.listing.code.length ∧
      S.listing.Turn start n place := by
  obtain ⟨s, i, s', htracks, hi, hd, hruns⟩ := hS.moves hL hs hgoes
  refine ⟨s.ip, htracks.runs.at, hi.lt, ?_⟩
  have hat := hruns.at
  have hsame : i ≠ .plain .call → openCalls S.listing.code.toArray start (n + 1) =
      openCalls S.listing.code.toArray start n := by
    intro hne
    rw [openCalls, htracks.runs.transferAt?_of_ne hL hi hne]
  cases hd with
  | call hcall =>
    refine .call hi ?_
    rw [openCalls, htracks.runs.transferAt?_of_call hL hcall.code, if_neg (by decide)]
  | @leave _ a calls v hleave =>
    have hcalls := htracks.calls
    rw [hleave.calls] at hcalls
    obtain ⟨c, below, ⟨-, s₀, _, _, _, hrecalls, hcall, -, hback⟩, -, hopen⟩ :=
      List.forall₂_cons_left_iff.mp hcalls
    obtain ⟨before, hip, hcode⟩ := hleave.code
    obtain ⟨js, hjs, hload⟩ := hcall.code
    have hcall' : S.listing.Has (js + 1) [.instr (.plain .call)] :=
      Listing.Has.right (a := [.instr (.plain .load)]) hload
    have hplace := hrecalls.runs.at
    rw [hjs] at hplace hback
    refine .leave hip hcode ?_ hplace hcall'.lt (hback ▸ hat)
    rw [openCalls, htracks.runs.transferAt?_of_call hL hleave.code, if_pos rfl, hopen]
    rfl
  | jump l => exact .jump hi hat (hsame (fun h => by cases h))
  | @jumpEqual _ x y a b rest l _ _ _ =>
    have hopen := hsame (fun h => by cases h)
    by_cases hab : a = b
    · rw [if_pos hab] at hat
      exact .jump hi hat hopen
    · rw [if_neg hab] at hat
      exact .next hi hat hopen
  | @jumpLessEqual _ a b rest l _ =>
    have hopen := hsame (fun h => by cases h)
    by_cases hab : a ≤ b
    · rw [if_pos hab] at hat
      exact .jump hi hat hopen
    · rw [if_neg hab] at hat
      exact .next hi hat hopen
  | _ => exact .next hi hat (hsame (fun h => by cases h))

/-- A call that has been made was made by a `js`. -/
theorem Setting.Valid.call_at {c : Nat}
    (hc : transferAt? S.listing.code.toArray start c = some .call) :
    ∃ place, S.listing.At start c place ∧ S.listing.Has place [.instr (.plain .call)] := by
  obtain ⟨s, htracks, _, _, _, _, _, hcall⟩ := hS.transfers hL hs hc
  obtain ⟨before, hip, hcode⟩ := hcall.code
  refine ⟨s.ip, htracks.runs.at, ?_⟩
  rw [hip]
  exact Listing.Has.right (a := [.instr (.plain .load)]) hcode

/-- Only a `print` prints. -/
theorem Setting.Valid.print_at {n : Nat} {w : Word}
    (hw : Machine.printedAt? S.listing.code.toArray start n = some w) :
    ∃ place, S.listing.At start n place ∧ S.listing.Has place [.instr (.plain .print)] := by
  have hgoes : after? S.listing.code.toArray start n ≠ none := by
    intro hnone
    rw [Machine.printedAt?, hnone] at hw
    cases hw
  obtain ⟨s, htracks, hnext⟩ := hS.next hL hs hgoes
  obtain ⟨p, hp, hout, -, hmirrors⟩ := htracks.runs.state
  have hsucc := Machine.output_succ S.listing.code.toArray start n
  rw [hw, hp, hout] at hsucc
  -- The output has grown, and only a `print` makes it grow.
  have hends : ∀ {ending}, ¬ EndsWith S.listing start (n + 1) s.output ending := by
    rintro ending ⟨q, hq, hout'⟩
    rw [hq, hout'] at hsucc
    simp at hsucc
  cases hnext with
  | halts hi hstack => exact absurd (htracks.runs.halts hS.size hL hi hstack) hends
  | fails hi hf => exact absurd (htracks.runs.fails hS.size hL hi hf) hends
  | @does i s' hi hd =>
    refine ⟨s.ip, htracks.runs.at, ?_⟩
    obtain ⟨signal, m', hstep, -, hadds⟩ := hd.step hS.size hL hmirrors htracks.runs.room hi
    have hafter : after? S.listing.code.toArray start n = some p.machine := by rw [after?, hp]
    rw [Machine.printedAt?, hafter, Option.bind_some, Machine.printed?, hstep] at hw
    cases signal with
    | quiet => cases hw
    | halted result => cases hw
    | printed w' =>
      have hgrown : s'.output = s.output ++ [w'] := hadds
      have hprint : i = .plain .print := by
        cases hd with
        | print _ _ => rfl
        | _ => simp at hgrown
      rwa [hprint] at hi

/-- Until it is at the end of a stretch, a run is in it or in calls that were made from there. -/
theorem Setting.Valid.inside {k lo hi n : Nat} (hflows : S.listing.Flows lo hi)
    (hend : hi ≤ S.listing.code.length) (hle : lo ≤ hi) (hat : S.listing.At start k lo)
    (hkn : k ≤ n) (hgoes : after? S.listing.code.toArray start n ≠ none)
    (hnot : ∀ j, k ≤ j → j < n → openCalls S.listing.code.toArray start j =
      openCalls S.listing.code.toArray start k → ¬ S.listing.At start j hi) :
    S.listing.Inside start k lo hi n := by
  induction n, hkn using Nat.le_induction with
  | base => exact .here hat rfl (Nat.le_refl lo) hle (by omega)
  | succ n hkn ih =>
    obtain ⟨place, hplace, hlt, hturn⟩ := hS.turn hL hs hgoes
    have hinside := ih (Machine.after?_of_succ hgoes) fun j hkj hjn => hnot j hkj (by omega)
    exact hinside.step hL hflows hend (hnot n hkn (by omega)) hplace hlt hturn

end

end Classlet
