import Classlet.Proofs.Correctness
import Classlet.Proofs.Descent

/-!
The result of a run is of the type that compilation reports: a truth value is 0 or 1,
null is -1, and a reference is null or the address of an object that was made during
the run, of a class that descends from the class of the type. A program of a function
type never halts, as there are no such values.
-/

namespace Classlet

/-- During the run of a listing an object of a class is made at an address: the
machine comes to the last store in the code of a `new` for the class while the heap
ends at the address. -/
def Program.Makes (p : Program) (listing : Listing) (size : Word) (cls : String) (address : Nat) :
    Prop :=
  ∃ place n, (p.setting listing size).Allocates cls place ∧
    Passes listing (Machine.fresh size) n place address

/-- A word is a possible result of a run of a program that has a type. -/
def Program.ResultFits (p : Program) (listing : Listing) (size w : Word) : Ty → Prop
  | .int => True
  | .bool => w = 0 ∨ w = 1
  | .null => w = -1
  | .ref cls => w = -1 ∨ ∃ made address, w = Int64.ofNat address ∧
      p.Makes listing size made address ∧ p.resolve.ancestry.descends made cls
  | .arrow _ | .method _ | .cls _ _ => False

section

variable {p : Program} {listing : Listing} {size : Word}

/-- The word of a value fits the type of the value. -/
theorem resultFits_of_ofType {n : Nat} {s : Snapshot}
    (hto : RunsTo listing size.toNatClampNeg (Machine.fresh size) n s) {st : Store}
    {addresses : List Nat} (hst : (p.setting listing size).StoreAt st s addresses) {v : Value}
    {w : Word} (hv : v.Encodes addresses w) {t : Ty}
    (ht : v.OfType p.resolve.ancestry st.objects t) : p.ResultFits listing size w t := by
  cases v with
  | word x =>
    obtain rfl : w = x := hv
    cases t with
    | ref cls => exact Or.inl ht
    | int | bool | null | arrow | method | cls => exact ht
  | object i =>
    cases t with
    | ref cls =>
      obtain ⟨o, ho, hb⟩ := ht
      obtain ⟨a, ha, rfl⟩ := hv
      obtain ⟨place, hstored, hplace⟩ := (hst.objects i o a ho ha).stored
      obtain ⟨k, -, hpasses⟩ := hto.stored place a hstored
      exact Or.inr ⟨o.cls, a, rfl, ⟨place, k, hplace, hpasses⟩, Ancestry.descends_iff_below.mpr hb⟩
    | int | bool | null | arrow | method | cls => exact ht.elim

theorem EndsWith.report_of_ok {n : Nat} {output : List Word} {ending : Machine.Ending}
    (h : EndsWith listing (Machine.fresh size) n output ending) (hc : listing.Closed) {limit : Nat}
    {outcome : Machine.Outcome} (hrun : runAssembly size limit listing.text = .ok outcome) :
    ∃ steps, ending.report output steps = .ok outcome := by
  obtain ⟨steps, -, hreport⟩ := hc.runAssembly_ends h
  refine ⟨steps, ?_⟩
  rcases hreport limit with hr | hr
  · rw [← hr, hrun]
  · rw [hrun] at hr
    cases hr

/-- If the code halts then the evaluation has a value, and the result is its word. -/
theorem Program.evaluates_of_halts (hc : listing.Closed) {limit : Nat} {outcome : Machine.Outcome}
    (hrun : runAssembly size limit listing.text = .ok outcome)
    (hreal : (∃ n, RunsOut listing (Machine.fresh size) n) ∨
      (p.setting listing size).Realises (Machine.fresh size) (limit + 1) (p.eval (limit + 1))) :
    ∃ v st n s addresses w, p.eval (limit + 1) = .ok (v, st) ∧ outcome.result = some w ∧
      RunsTo listing size.toNatClampNeg (Machine.fresh size) n s ∧ v.Encodes addresses w ∧
      (p.setting listing size).StoreAt st s addresses := by
  rcases (p.setting listing size).outcome hreal with
    ⟨n, output, fault, -, hends⟩ | ⟨n, s, hle, hto⟩ |
    ⟨v, st, n, s, addresses, w, heval, hto, hends, hv, hst⟩
  · obtain ⟨steps, hreport⟩ := hends.report_of_ok hc hrun
    cases hreport
  · have hstop := hc.runAssembly_stepLimit hto hle
    rw [hrun] at hstop
    cases hstop
  · obtain ⟨steps, hreport⟩ := hends.report_of_ok hc hrun
    cases hreport
    exact ⟨v, st, n, s, addresses, w, heval, rfl, hto, hv, hst⟩

end

/-- A run of a program that halts has a result that fits the type of the program. -/
theorem Program.result_fits (p : Program) (o : Options) (hn : p.ids.Nodup)
    (he : (p.compile o).errors = []) {listing : Listing}
    (hl : (p.compile o).listing? = some listing) (hlen : listing.code.length < Word.limit) {t : Ty}
    (ht : (p.compile o).programType? = some t) {limit : Nat} {outcome : Machine.Outcome}
    (hrun : runAssembly o.memorySize limit listing.text = .ok outcome) :
    ∃ w, outcome.result = some w ∧ p.ResultFits listing o.memorySize w t := by
  obtain ⟨listing', t', hl', ht', hclosed, htyped, hruns⟩ := p.compiled o hn he
  obtain rfl : listing = listing' := Option.some.inj (hl.symm.trans hl')
  obtain rfl : t = t' := Option.some.inj (ht.symm.trans ht')
  obtain ⟨v, st, n, s, addresses, w, heval, hw, hto, hv, hst⟩ :=
    Program.evaluates_of_halts hclosed hrun (hruns hlen (limit + 1))
  have htype := htyped (limit + 1)
  rw [heval] at htype
  exact ⟨w, hw, resultFits_of_ofType hto hst hv htype⟩

/-- The program whose value is the object itself, which has a subclass of the type of
the variable. -/
def overrideObject : Program := { overrideProgram with body := .name 13 "a" (.ofLine 1) }

theorem overrideObject_compiles : overrideObject.ids.Nodup ∧
    (overrideObject.compile { memorySize := 60 }).errors = [] ∧
    (overrideObject.compile { memorySize := 60 }).programType? = some (.ref "A") ∧
    (overrideObject.compile { memorySize := 60 }).listing?.all
      (fun l => l.code.length < Word.limit) := by
  refine ⟨?_, ?_, ?_, ?_⟩ <;> decide +kernel

/-- The run of its code, which stores the object at the address 3. -/
theorem overrideObject_run : (overrideObject.compile { memorySize := 60 }).listing?.map
    (fun l => (Machine.run 100 l.code.toArray (Machine.fresh 60)).2) =
      some (.ok ⟨[], some 3, 39⟩) := by
  decide +kernel

/-- The run halts with the address of an object of a class that descends from the
class of the type. -/
theorem overrideObject_fits : ∃ listing,
    (overrideObject.compile { memorySize := 60 }).listing? = some listing ∧
    runAssembly 60 100 listing.text = .ok ⟨[], some 3, 39⟩ ∧
    ∃ made address, (3 : Word) = Int64.ofNat address ∧
      overrideObject.Makes listing 60 made address ∧
      overrideObject.resolve.ancestry.descends made "A" := by
  obtain ⟨hn, he, ht, hlen⟩ := overrideObject_compiles
  obtain ⟨listing, -, hl, -, hclosed, -⟩ := overrideObject.compiled { memorySize := 60 } hn he
  have hrun : runAssembly 60 100 listing.text = .ok ⟨[], some 3, 39⟩ := by
    have h := overrideObject_run
    rw [hl, Option.map_some, Option.some.injEq] at h
    rw [hclosed.runAssembly_eq, h]
    rfl
  rw [hl, Option.all_some, decide_eq_true_iff] at hlen
  obtain ⟨w, hw, hfits⟩ := overrideObject.result_fits { memorySize := 60 } hn he hl hlen ht hrun
  obtain rfl : 3 = w := Option.some.inj hw
  rcases hfits with hnull | hmade
  · cases hnull
  · exact ⟨listing, hl, hrun, hmade⟩

end Classlet
