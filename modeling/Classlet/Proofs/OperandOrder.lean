import Classlet.Proofs.Stretches

/-!
The order in which operands take effect. An evaluation of an expression begins when a run is
at the beginning of its code, and is over when the run is at the end of it with the same calls
that have not returned. Until then the run is in the code of the expression or in calls that
were made from there. So an evaluation of a binary expression is one of the first operand in
its code, then one of the second, and then the operation, which prints nothing. The left
operand is first in the code of every operation but `>=`, where the right one is.
-/

namespace Classlet

open Machine (Progress after? transferAt? openCalls printedAt?)

theorem Machine.after?_of_le {code : Array Word} {start : Machine} {j n : Nat}
    (h : after? code start n ≠ none) (hle : j ≤ n) : after? code start j ≠ none := by
  induction hle with
  | refl => exact h
  | step _ ih => exact ih (after?_of_succ h)

instance (L : Listing) (start : Machine) (n place : Nat) : Decidable (L.At start n place) :=
  decidable_of_iff ((after? L.code.toArray start n).map Machine.ip = some (Int64.ofNat place))
    Option.map_eq_some_iff

/-! Evaluations. -/

namespace Site

section

variable (t : Target) (L : Listing) (start : Machine)

/-- The evaluation of the expression that began after `k` instructions is over after `n`. -/
def OverAt (x : Site) (k n : Nat) : Prop :=
  k ≤ n ∧ L.At start n (x.stop t) ∧
    openCalls L.code.toArray start n = openCalls L.code.toArray start k

/-- An evaluation of the expression begins after `k` instructions and is not over after `n`. -/
structure During (x : Site) (k n : Nat) : Prop where
  begins : L.At start k x.start
  le : k ≤ n
  goes : after? L.code.toArray start n ≠ none
  lasts : ∀ j ≤ n, ¬ x.OverAt t L start k j

/-- The run is in an evaluation of the expression `y` that began, with the same calls that have
not returned, in the evaluation of `x` that began after `k` instructions. -/
def PartOf (y x : Site) (k n : Nat) : Prop :=
  ∃ j, x.During t L start k j ∧
    openCalls L.code.toArray start j = openCalls L.code.toArray start k ∧
    y.During t L start j n

/-- In every evaluation of the expression `x`, all that is printed is printed in evaluations of
two expressions, and all that the first one prints comes before all that the second one
prints. -/
structure TakesTurns (x first second : Site) : Prop where
  prints : ∀ k n w, x.During t L start k n → printedAt? L.code.toArray start n = some w →
    first.PartOf t L start x k n ∨ second.PartOf t L start x k n
  order : ∀ k i j, first.PartOf t L start x k i → second.PartOf t L start x k j → i < j

end

section

variable {t : Target} {L : Listing} {start : Machine} {x first second : Site} {k j n : Nat}

theorem During.until (h : x.During t L start k n) (hkj : k ≤ j) (hjn : j ≤ n) :
    x.During t L start k j where
  begins := h.begins
  le := hkj
  goes := Machine.after?_of_le h.goes hjn
  lasts i hi := h.lasts i (Nat.le_trans hi hjn)

theorem During.at_first (h : x.During t L start k n) : x.During t L start k k :=
  h.until (Nat.le_refl k) h.le

/-- An evaluation that has begun is going on or is over. -/
theorem during_or_overAt (hat : L.At start k x.start) (hkn : k ≤ n)
    (hgoes : after? L.code.toArray start n ≠ none) :
    x.During t L start k n ∨ ∃ j ≤ n, x.OverAt t L start k j := by
  by_cases hover : ∃ j ≤ n, x.OverAt t L start k j
  · exact Or.inr hover
  · exact Or.inl ⟨hat, hkn, hgoes, fun j hj h => hover ⟨j, hj, h⟩⟩

/-- Where the operands of a binary expression begin and end. -/
theorem operands_of_children {op : BinOp} {left right : Expr} {pos : Position}
    (hx : x.expr = .binary op left right pos) (hc : x.children t = [first, second]) :
    first.start = x.start ∧ first.stop t = second.start ∧
      second.stop t = x.start + (left.width t + right.width t) := by
  rw [children, hx] at hc
  by_cases hop : op = .greaterEqual
  · simp only [hop, if_true, List.cons.injEq, and_true] at hc
    obtain ⟨rfl, rfl⟩ := hc
    refine ⟨rfl, rfl, ?_⟩
    simp only [stop]
    omega
  · simp only [hop, if_false, List.cons.injEq, and_true] at hc
    obtain ⟨rfl, rfl⟩ := hc
    refine ⟨rfl, rfl, ?_⟩
    simp only [stop]
    omega

end

instance (t : Target) (L : Listing) (start : Machine) (x : Site) (k n : Nat) :
    Decidable (x.OverAt t L start k n) := inferInstanceAs (Decidable (_ ∧ _ ∧ _))

theorem during_iff {t : Target} {L : Listing} {start : Machine} {x : Site} {k n : Nat} :
    x.During t L start k n ↔ L.At start k x.start ∧ k ≤ n ∧
      (after? L.code.toArray start n).isSome ∧ ∀ j ≤ n, ¬ x.OverAt t L start k j := by
  constructor
  · intro h
    exact ⟨h.begins, h.le, Option.isSome_iff_ne_none.mpr h.goes, h.lasts⟩
  · rintro ⟨hat, hle, hgoes, hlasts⟩
    exact ⟨hat, hle, Option.isSome_iff_ne_none.mp hgoes, hlasts⟩

instance (t : Target) (L : Listing) (start : Machine) (x : Site) (k n : Nat) :
    Decidable (x.During t L start k n) := decidable_of_iff' _ during_iff

end Site

section

variable {S : Setting} {start : Machine} {t : Ty} (hS : S.Valid t)
  (hL : S.listing.code.length < Word.limit) (hs : RunsTo S.listing S.size start 0 .initial)
  {x first second : Site} (hx : x ∈ S.sites) {k n : Nat}

include hS hL hs hx

/-- In the rest of an evaluation the run does not come back to a place before. -/
theorem Setting.Valid.inside_from (h : x.During S.target S.listing start k n) {j place : Nat}
    (hkj : k ≤ j) (hjn : j ≤ n)
    (hopen : openCalls S.listing.code.toArray start j = openCalls S.listing.code.toArray start k)
    (hat : S.listing.At start j place) (hlo : x.start ≤ place) (hhi : place ≤ x.stop S.target) :
    S.listing.Inside start j place (x.stop S.target) n := by
  have hflows := (hS.listing.stands hx).flows hS.listing.nodup
  refine hS.inside hL hs (hflows.mono hlo) (hS.stop_le hx) hhi hat hjn h.goes ?_
  intro i hji hin hopen' hend
  exact h.lasts i (Nat.le_of_lt hin) ⟨by omega, hend, hopen'.trans hopen⟩

theorem Setting.Valid.inside_of_during (h : x.During S.target S.listing start k n) :
    S.listing.Inside start k x.start (x.stop S.target) n :=
  hS.inside_from hL hs hx h (Nat.le_refl k) h.le rfl h.begins (Nat.le_refl _)
    (Nat.le_add_right _ _)

/-- Until an evaluation is over, the run is in the code of the expression or in calls that were
made from there. -/
theorem Setting.Valid.stays (h : x.During S.target S.listing start k n) :
    openCalls S.listing.code.toArray start k <:+ openCalls S.listing.code.toArray start n ∧
      (openCalls S.listing.code.toArray start n = openCalls S.listing.code.toArray start k →
        ∃ place, S.listing.At start n place ∧ x.start ≤ place ∧ place < x.stop S.target) := by
  cases hS.inside_of_during hL hs hx h with
  | @here place hat hopen hlo hhi _ =>
    refine ⟨hopen ▸ List.suffix_refl _, fun _ => ⟨place, hat, hlo, ?_⟩⟩
    rcases Nat.lt_or_eq_of_le hhi with hlt | rfl
    · exact hlt
    · exact absurd ⟨h.le, hat, hopen⟩ (h.lasts n (Nat.le_refl n))
  | @deeper above c _ hopen _ _ _ =>
    rw [hopen]
    refine ⟨⟨above ++ [c], by simp⟩, fun hsame => ?_⟩
    have hlen := congrArg List.length hsame
    rw [List.length_append, List.length_cons] at hlen
    omega

/-- An evaluation begins just once. -/
theorem Setting.Valid.begins_once (h : x.During S.target S.listing start k n)
    (hopen : openCalls S.listing.code.toArray start n = openCalls S.listing.code.toArray start k)
    (hat : S.listing.At start n x.start) : n = k := by
  have hle := hS.stop_le hx
  have hstart : x.start ≤ x.stop S.target := Nat.le_add_right _ _
  cases hS.inside_of_during hL hs hx h with
  | here hat' _ _ hhi hlater =>
    have heq := hat.unique hL hat' (by omega) (by omega)
    have hkn := h.le
    by_contra hne
    have hlt := hlater (by omega)
    omega
  | deeper hopen' _ _ _ =>
    have hlen := congrArg List.length (hopen.symm.trans hopen')
    rw [List.length_append, List.length_cons] at hlen
    omega

variable {op : BinOp} {left right : Expr} {pos : Position}
  (hexpr : x.expr = .binary op left right pos) (hc : x.children S.target = [first, second])

include hexpr

/-- Behind the operands nothing is printed. -/
theorem Setting.Valid.prints_operand (h : x.During S.target S.listing start k n) {j place : Nat}
    (hkj : k ≤ j) (hjn : j ≤ n)
    (hopen : openCalls S.listing.code.toArray start j = openCalls S.listing.code.toArray start k)
    (hat : S.listing.At start j place)
    (hplace : place = x.start + (left.width S.target + right.width S.target))
    (hhi : place ≤ x.stop S.target) : printedAt? S.listing.code.toArray start n = none := by
  have hstands := hS.listing.stands hx
  have hle := hS.stop_le hx
  have hinside := hS.inside_from hL hs hx h hkj hjn hopen hat (by omega) hhi
  by_contra hprints
  obtain ⟨w, hw⟩ := Option.ne_none_iff_exists'.mp hprints
  cases hinside with
  | here hat' hopen' hlo hhi' _ =>
    obtain ⟨place', hplace', hprint⟩ := hS.print_at hL hs hw
    obtain rfl := hat'.unique hL hplace' (by omega) (Nat.le_of_lt hprint.lt)
    obtain ⟨place, hplace, -, hlt⟩ := (hS.stays hL hs hx h).2 (hopen'.trans hopen)
    obtain rfl := hplace.unique hL hplace' (by omega) (by omega)
    exact absurd rfl (hstands.operation hexpr hprint (by omega) hlt).2
  | @deeper above c _ hopen' hat' hlo hhi' =>
    have hmem : c ∈ openCalls S.listing.code.toArray start n := by
      rw [hopen']
      exact List.mem_append_right _ List.mem_cons_self
    obtain ⟨place', hplace', hcall⟩ := hS.call_at hL hs (Machine.mem_openCalls hmem).2
    obtain rfl := hat'.unique hL hplace' (by omega) (Nat.le_of_lt hcall.lt)
    exact absurd rfl (hstands.operation hexpr hcall (by omega) hhi').1

include hc

/-- The operands of a binary expression take effect one after the other, in the order of their
code. -/
theorem Setting.Valid.takesTurns : x.TakesTurns S.target S.listing start first second := by
  obtain ⟨hfirst, hmid, hlast⟩ := Site.operands_of_children hexpr hc
  have hwidth : second.stop S.target ≤ x.stop S.target := by
    rw [hlast, Site.stop, hexpr, Expr.width]
    omega
  constructor
  · intro k n w h hw
    have hbegins : S.listing.At start k first.start := hfirst ▸ h.begins
    rcases Site.during_or_overAt hbegins h.le h.goes with hduring | ⟨j, hjn, hkj, hat, hopen⟩
    · exact Or.inl ⟨k, h.at_first, rfl, hduring⟩
    rw [hmid] at hat
    rcases Site.during_or_overAt hat hjn h.goes with hduring | ⟨j', hjn', hjj', hat', hopen'⟩
    · exact Or.inr ⟨j, h.until hkj hjn, hopen, hduring⟩
    · have hnone := hS.prints_operand hL hs hx hexpr h (Nat.le_trans hkj hjj') hjn'
        (hopen'.trans hopen) hat' hlast hwidth
      cases hw.symm.trans hnone
  · rintro k i n ⟨j₁, h₁, hopen₁, hduring₁⟩ ⟨j₂, h₂, hopen₂, hduring₂⟩
    obtain rfl : j₁ = k := hS.begins_once hL hs hx h₁ hopen₁ (hfirst ▸ hduring₁.begins)
    have hover : first.OverAt S.target S.listing start j₁ j₂ :=
      ⟨h₂.le, hmid ▸ hduring₂.begins, hopen₂⟩
    have hle := hduring₂.le
    by_contra hlt
    exact hduring₁.lasts j₂ (by omega) hover

end

/-! Evaluation on the tree. -/

theorem Eval.operate_ok {op : BinOp} {left right : Eval Value} {st st' : Store} {v : Value}
    (h : (Eval.operate op left right).run st = .ok (v, st')) :
    if op = .greaterEqual then
      ∃ b st₁ a, right.run st = .ok (b, st₁) ∧ left.run st₁ = .ok (a, st')
    else ∃ a st₁ b, left.run st = .ok (a, st₁) ∧ right.run st₁ = .ok (b, st') := by
  have hlast : ∀ {a b : Value} {st₂ : Store},
      (liftM (op.apply a b) : Eval Value).run st₂ = .ok (v, st') → st₂ = st' := by
    intro a b st₂ happly
    cases hvalue : op.apply a b with
    | error e =>
      rw [hvalue] at happly
      cases happly
    | ok w =>
      rw [hvalue] at happly
      cases happly
      rfl
  by_cases hop : op = .greaterEqual
  · subst hop
    obtain ⟨b, st₁, hright, hrest⟩ := run_bind_ok h
    obtain ⟨a, st₂, hleft, happly⟩ := run_bind_ok hrest
    rw [if_pos rfl]
    exact ⟨b, st₁, a, hright, hlast happly ▸ hleft⟩
  · have hoperate : Eval.operate op left right =
        left >>= fun a => right >>= fun b => liftM (op.apply a b) := by
      cases op with
      | greaterEqual => exact absurd rfl hop
      | _ => rfl
    rw [hoperate] at h
    obtain ⟨a, st₁, hleft, hrest⟩ := run_bind_ok h
    obtain ⟨b, st₂, hright, happly⟩ := run_bind_ok hrest
    rw [if_neg hop]
    exact ⟨a, st₁, b, hleft, hlast happly ▸ hright⟩

/-- Operations that evaluate their operands in the same order leave the same store, and so the
same output, if both of them have a value. -/
theorem Expr.store_of_operation {classes : List ClassDecl}
    {invoke : Closure → List Value → Eval Value} {env : Env} {op op' : BinOp} {left right : Expr}
    {pos pos' : Position} {st st₁ st₂ : Store} {v v' : Value}
    (hside : op = .greaterEqual ↔ op' = .greaterEqual)
    (h : (Expr.eval classes invoke env (.binary op left right pos)).run st = .ok (v, st₁))
    (h' : (Expr.eval classes invoke env (.binary op' left right pos')).run st = .ok (v', st₂)) :
    st₁ = st₂ := by
  have hstep := Eval.operate_ok h
  have hstep' := Eval.operate_ok h'
  by_cases hop : op = .greaterEqual
  · rw [if_pos hop] at hstep
    rw [if_pos (hside.mp hop)] at hstep'
    obtain ⟨b, st₃, a, hright, hleft⟩ := hstep
    obtain ⟨b', st₄, a', hright', hleft'⟩ := hstep'
    cases hright.symm.trans hright'
    cases hleft.symm.trans hleft'
    rfl
  · rw [if_neg hop] at hstep
    rw [if_neg (fun hop' => hop (hside.mpr hop'))] at hstep'
    obtain ⟨a, st₃, b, hleft, hright⟩ := hstep
    obtain ⟨a', st₄, b', hleft', hright'⟩ := hstep'
    cases hleft.symm.trans hleft'
    cases hright.symm.trans hright'
    rfl

/-! Every run of a program. -/

/-- In every run of a program that compiles without an error, every evaluation of a binary
expression prints what its left operand prints before what its right operand prints, and with
`>=` the other way round. Everything that is printed in it is printed by one of the two. An
evaluation is not left before it is over. Operations that evaluate their operands in the same
order print the same. -/
theorem Program.operands_in_order (p : Program) (o : Options) (hn : p.ids.Nodup)
    (he : (p.compile o).errors = []) {listing : Listing}
    (hl : (p.compile o).listing? = some listing) (hlen : listing.code.length < Word.limit) :
    let t : Target := ⟨p.resolve.bindings, o.memorySize⟩
    let code := listing.code.toArray
    let start := Machine.fresh o.memorySize
    (∀ q, q ∈ p.places ↔ ∃ x ∈ p.sites t, (x.scope, x.expr) = q) ∧
    (∀ n, (Progress.advance code n { machine := start }).1.output.toList =
      (List.range n).filterMap (printedAt? code start)) ∧
    (∀ x ∈ p.sites t, x.Stands t listing ∧ ∀ k n, x.During t listing start k n →
      openCalls code start k <:+ openCalls code start n ∧
      (openCalls code start n = openCalls code start k →
        ∃ place, listing.At start n place ∧ x.start ≤ place ∧ place < x.stop t)) ∧
    (∀ x ∈ p.sites t, ∀ op l r pos, x.expr = .binary op l r pos → ∃ left right : Site,
      left.expr = l ∧ right.expr = r ∧
      x.children t = (if op = .greaterEqual then [right, left] else [left, right]) ∧
      if op = .greaterEqual then x.TakesTurns t listing start right left
      else x.TakesTurns t listing start left right) ∧
    ∀ classes invoke env op op' left right pos pos' st st₁ st₂ v v',
      (op = .greaterEqual ↔ op' = .greaterEqual) →
      (Expr.eval classes invoke env (.binary op left right pos)).run st = .ok (v, st₁) →
      (Expr.eval classes invoke env (.binary op' left right pos')).run st = .ok (v', st₂) →
      st₁.output = st₂.output := by
  intro t code start
  obtain ⟨listing', ty, hp, ht, hl', -, hlisting⟩ := p.clean o hn he
  obtain rfl : listing = listing' := Option.some.inj (hl.symm.trans hl')
  let S := p.setting listing o.memorySize
  -- Without memory there is no moment of the run.
  have hmoment : ∀ n, after? code start n ≠ none →
      RunsTo S.listing S.size start 0 .initial ∧ S.Valid ty ∧ S.target = t := by
    intro n hgoes
    rcases runsTo_initial listing o.memorySize with hstart | ⟨output, sp, hp, hends⟩
    · have hpos := hstart.size_nonneg
      exact ⟨hstart, setting_valid hn hp ht hlisting hpos, p.setting_target listing hpos⟩
    · exact absurd (hends.after? (Nat.zero_le n)) hgoes
  have hturns : ∀ x ∈ p.sites t, ∀ op l r pos first second, x.expr = .binary op l r pos →
      x.children t = [first, second] → x.TakesTurns t listing start first second := by
    intro x hx op l r pos first second hexpr hc
    by_cases hgoes : after? code start 0 ≠ none
    · obtain ⟨hstart, hS, htarget⟩ := hmoment 0 hgoes
      rw [← htarget] at hx hc ⊢
      exact hS.takesTurns hlen hstart hx hexpr hc
    · have hnone : ∀ y k n, ¬ Site.During t listing start y k n :=
        fun y k n h => hgoes (Machine.after?_of_le h.goes (Nat.zero_le n))
      refine ⟨fun k n w h _ => (hnone _ _ _ h).elim, ?_⟩
      rintro k i j ⟨_, h, -⟩ -
      exact (hnone _ _ _ h).elim
  refine ⟨fun q => mem_places_iff t, Machine.output_eq code start, fun x hx => ?_, ?_, ?_⟩
  · refine ⟨hlisting.stands hx, fun k n h => ?_⟩
    obtain ⟨hstart, hS, htarget⟩ := hmoment n h.goes
    rw [← htarget] at hx h ⊢
    exact hS.stays hlen hstart hx h
  · intro x hx op l r pos hexpr
    by_cases hop : op = .greaterEqual
    · have hc : x.children t =
          [⟨x.scope, x.start, r⟩, ⟨x.scope, x.start + r.width t, l⟩] := by
        rw [Site.children, hexpr]
        exact if_pos hop
      refine ⟨_, _, rfl, rfl, hc.trans (if_pos hop).symm, ?_⟩
      rw [if_pos hop]
      exact hturns x hx op l r pos _ _ hexpr hc
    · have hc : x.children t =
          [⟨x.scope, x.start, l⟩, ⟨x.scope, x.start + l.width t, r⟩] := by
        rw [Site.children, hexpr]
        exact if_neg hop
      refine ⟨_, _, rfl, rfl, hc.trans (if_neg hop).symm, ?_⟩
      rw [if_neg hop]
      exact hturns x hx op l r pos _ _ hexpr hc
  · intro classes invoke env op op' left right pos pos' st st₁ st₂ v v' hside h h'
    rw [Expr.store_of_operation hside h h']

/-- The body of a program, where its code stands. -/
def Program.bodySite (p : Program) (t : Target) : Site :=
  ⟨[.ofList (p.classes.map ClassDecl.named ++ p.decls.map Decl.named)],
    p.declsStart + Decl.widths t p.decls, p.body⟩

theorem Program.bodySite_mem (p : Program) (t : Target) : p.bodySite t ∈ p.sites t :=
  List.mem_flatMap.mpr ⟨p.bodySite t, List.mem_append_right _ List.mem_cons_self,
    (p.bodySite t).mem_inner_self t⟩

/-- Both operands are printed. -/
def printingProgram (op : BinOp) : Program :=
  let pos := Position.ofLine 1
  { classes := [], decls := [], pos
    body := .binary op (.print (.lit (.int 1) pos) pos) (.print (.lit (.int 2) pos) pos) pos }

/-- What it prints in a small memory. -/
def printingOutput? (op : BinOp) : Option (List Word) :=
  ((printingProgram op).compile { memorySize := 10 }).listing?.map fun l =>
    (Progress.advance l.code.toArray 10 { machine := Machine.fresh 10 }).1.output.toList

/-- With `>=` the right operand is printed first, so the two do not take turns from the left to
the right, and replacing `<=` by `>=` changes what is printed first. -/
theorem greaterEqual_prints_right_first :
    let p := printingProgram .greaterEqual
    let t : Target := ⟨p.resolve.bindings, 10⟩
    p.ids.Nodup ∧ (p.compile { memorySize := 10 }).errors = [] ∧ p.bodySite t ∈ p.sites t ∧
    (∃ listing left right pos, (p.compile { memorySize := 10 }).listing? = some listing ∧
      (p.bodySite t).expr = .binary .greaterEqual left.expr right.expr pos ∧
      (p.bodySite t).children t = [right, left] ∧
      ¬ (p.bodySite t).TakesTurns t listing (Machine.fresh 10) left right) ∧
    [.lessEqual, .greaterEqual].map printingOutput? = [some [1, 2], some [2, 1]] := by
  intro p t
  let x := p.bodySite t
  let pos := Position.ofLine 1
  let right : Site := ⟨x.scope, x.start, .print (.lit (.int 2) pos) pos⟩
  let left : Site := ⟨x.scope, x.start + right.expr.width t, .print (.lit (.int 1) pos) pos⟩
  have hids : p.ids.Nodup := by decide
  have he : (p.compile { memorySize := 10 }).errors = [] := by decide +kernel
  have hall : (p.compile { memorySize := 10 }).listing?.all fun l =>
      x.During t l (Machine.fresh 10) 0 2 ∧ left.During t l (Machine.fresh 10) 2 3 ∧
      right.During t l (Machine.fresh 10) 0 1 ∧
      openCalls l.code.toArray (Machine.fresh 10) 2 = [] := by decide +kernel
  refine ⟨hids, he, p.bodySite_mem t, ?_, by decide +kernel⟩
  obtain ⟨listing, -, hl, -⟩ := p.compiled { memorySize := 10 } hids he
  rw [hl, Option.all_some, decide_eq_true_iff] at hall
  obtain ⟨hx, hleft, hright, hopen⟩ := hall
  refine ⟨listing, left, right, pos, hl, rfl, rfl, fun hturns => ?_⟩
  have hlt := hturns.order 0 3 1 ⟨2, hx, hopen, hleft⟩ ⟨0, hx.at_first, rfl, hright⟩
  omega

/-- A function prints its argument. The right operand of the body is the difference of two
calls. -/
def orderedProgram : Program :=
  let pos := Position.ofLine 1
  { classes := [], pos
    decls := [.fn 0 "f" [⟨1, "x", .int pos, pos⟩] (.int pos) [] (.print (.name 2 "x" pos) pos) pos]
    body := .binary .greaterEqual (.print (.lit (.int 0) pos) pos)
      (.binary .sub (.call 3 "f" [.lit (.int 1) pos] pos) (.call 4 "f" [.lit (.int 2) pos] pos)
        pos) pos }

def orderedTarget : Target := ⟨orderedProgram.resolve.bindings, 30⟩

/-- The difference, which is first in the code of the body. -/
def orderedDifference : Site :=
  ⟨(orderedProgram.bodySite orderedTarget).scope, (orderedProgram.bodySite orderedTarget).start,
    .binary .sub (.call 3 "f" [.lit (.int 1) (Position.ofLine 1)] (Position.ofLine 1))
      (.call 4 "f" [.lit (.int 2) (Position.ofLine 1)] (Position.ofLine 1)) (Position.ofLine 1)⟩

theorem orderedDifference_mem : orderedDifference ∈ orderedProgram.sites orderedTarget :=
  Program.inner_of_site (orderedProgram.bodySite_mem orderedTarget)
    (Site.mem_inner_child List.mem_cons_self)

/-- Evaluations of the difference and of the body begin after two instructions. -/
theorem orderedProgram_moments : orderedProgram.ids.Nodup ∧
    (orderedProgram.compile { memorySize := 30 }).errors = [] ∧
    (orderedProgram.compile { memorySize := 30 }).listing?.all fun l =>
      l.code.length < Word.limit ∧
      (Progress.advance l.code.toArray 60 { machine := Machine.fresh 30 }).1.output = #[1, 2, 0] ∧
      orderedDifference.During orderedTarget l (Machine.fresh 30) 2 43 ∧
      (orderedProgram.bodySite orderedTarget).During orderedTarget l (Machine.fresh 30) 2 54 := by
  refine ⟨?_, ?_, ?_⟩ <;> decide +kernel

/-- The difference prints 1 and then 2, and the body prints 0 after that. -/
theorem orderedProgram_order : ∃ listing,
    (orderedProgram.compile { memorySize := 30 }).listing? = some listing ∧
    (Progress.advance listing.code.toArray 60 { machine := Machine.fresh 30 }).1.output =
      #[1, 2, 0] ∧
    orderedDifference.During orderedTarget listing (Machine.fresh 30) 2 43 ∧
    (orderedProgram.bodySite orderedTarget).During orderedTarget listing (Machine.fresh 30) 2 54 ∧
    (∃ left right, orderedDifference.children orderedTarget = [left, right] ∧
      orderedDifference.TakesTurns orderedTarget listing (Machine.fresh 30) left right) ∧
    ∃ left right, (orderedProgram.bodySite orderedTarget).children orderedTarget = [right, left] ∧
      (orderedProgram.bodySite orderedTarget).TakesTurns orderedTarget listing (Machine.fresh 30)
        right left := by
  obtain ⟨hids, he, hall⟩ := orderedProgram_moments
  obtain ⟨listing, t, hl, -⟩ := orderedProgram.compiled { memorySize := 30 } hids he
  rw [hl, Option.all_some, decide_eq_true_iff] at hall
  obtain ⟨hlen, houtput, hdifference, hbody⟩ := hall
  obtain ⟨-, -, -, hturns, -⟩ :=
    orderedProgram.operands_in_order { memorySize := 30 } hids he hl hlen
  obtain ⟨left, right, -, -, hc, hinner⟩ :=
    hturns orderedDifference orderedDifference_mem .sub _ _ _ rfl
  obtain ⟨left', right', -, -, hc', houter⟩ :=
    hturns _ (orderedProgram.bodySite_mem orderedTarget) .greaterEqual _ _ _ rfl
  exact ⟨listing, hl, houtput, hdifference, hbody, ⟨left, right, hc, hinner⟩,
    left', right', hc', houter⟩

end Classlet
