import Classlet.Proofs.Activations
import Classlet.Proofs.Endings
import Classlet.Proofs.MemberNames
import Classlet.Proofs.Uninhabited

/-!
Function values. There are names of functions, but no expression has a function as its
value: a run comes to the end of an expression only by way of other ends. It comes there
from the last instruction of the expression, from the end of a branch, or by a return from
the code of a function, whose body has come to its end. So an expression whose type has no
values could only come to its end after another one had. Nor is a value ever called: every
call that is made is one of a function or method that is declared.
-/

namespace Classlet

open Machine (after?)

/-! How a run comes to a place. -/

/-- Among its first `n` instructions the run has come to the place. -/
def Listing.Visits (L : Listing) (start : Machine) (n place : Nat) : Prop :=
  ∃ k ≤ n, ∃ m, after? L.code.toArray start k = some m ∧ m.ip = Int64.ofNat place

theorem RunsTo.visits {L : Listing} {M : Nat} {start : Machine} {k n : Nat} {s : Snapshot}
    (h : RunsTo L M start k s) (hle : k ≤ n) : L.Visits start n s.ip := by
  obtain ⟨m, hm, hmirrors⟩ := h.after?
  exact ⟨k, hle, m, hm, hmirrors.ip⟩

/-- The places that a run can come to from those where it has been. -/
inductive Setting.Comes (S : Setting) (visited : Nat → Prop) : Nat → Prop
  | next {place : Nat} {i : Instr} (hv : visited place) (hi : S.listing.Has place [.instr i])
    (hne : i ≠ .plain .call) : Comes S visited (place + i.size)
  | jump {place : Nat} {test : JumpTest} {l : Label} (hv : visited place)
    (hi : S.listing.Has place [.instr (.jump test l)]) : Comes S visited (S.listing.position l)
  | call {back place stop : Nat} (h : S.Leads back place stop) : Comes S visited place
  | leave {back place stop : Nat} (h : S.Leads back place stop) (hv : visited stop) :
    Comes S visited back

section

variable {S : Setting} {start : Machine} {n : Nat}

theorem Tracks.comes {s s' : Snapshot} {i : Instr}
    (h : Tracks S.listing S.size S.route start n s) (hi : S.listing.Has s.ip [.instr i])
    (hd : Does S.listing S.size S.route i s s') : S.Comes (S.listing.Visits start n) s'.ip := by
  have hv : S.listing.Visits start n s.ip := h.runs.visits (Nat.le_refl n)
  cases hd with
  | call hcall => exact .call hcall.leads
  | @leave _ a calls v hleave =>
    have hcalls := h.calls
    rw [hleave.calls] at hcalls
    obtain ⟨_, _, ⟨-, s₀, _, _, _, -, hcall, -, hback⟩, -⟩ := List.forall₂_cons_left_iff.mp hcalls
    obtain ⟨_, hmark⟩ := hleave.result
    obtain ⟨k, hk, s₁, hruns, hip, -⟩ := h.marks _ hmark
    have hleads := hcall.leads
    rw [← hback] at hleads
    have hstop := hruns.visits hk
    rw [hip] at hstop
    exact .leave hleads hstop
  | jump l => exact .jump hv hi
  | @jumpEqual _ x y a b rest l _ _ _ =>
    show S.Comes _ (if a = b then S.listing.position l else s.ip + 2)
    split
    · exact .jump hv hi
    · exact .next hv hi nofun
  | @jumpLessEqual _ a b rest l _ =>
    show S.Comes _ (if a ≤ b then S.listing.position l else s.ip + 2)
    split
    · exact .jump hv hi
    · exact .next hv hi nofun
  | _ => exact .next hv hi nofun

variable {t : Ty} (hS : S.Valid t)

include hS

theorem Setting.Valid.stop_le {x : Site} (hx : x ∈ S.sites) :
    x.stop S.target ≤ S.listing.code.length := by
  obtain ⟨lines, hcode, hlines⟩ := hS.listing.stands hx
  have hle := hlines.end_le
  rwa [hcode.sizes] at hle

theorem Setting.Comes.le {visited : Nat → Prop} {place : Nat} (h : S.Comes visited place) :
    place ≤ S.listing.code.length := by
  cases h with
  | next _ hi _ =>
    have hle := hi.end_le
    simpa [Line.size] using hle
  | jump _ _ => exact S.listing.position_le _
  | call h =>
    obtain ⟨_, _, -, ⟨k, b, hk, rfl, -, -⟩, -⟩ := h
    rw [← (hS.listing.block hk).1]
    exact S.listing.position_le _
  | leave h _ =>
    obtain ⟨_, _, ⟨x, hx, rfl, -⟩, -⟩ := h
    exact hS.stop_le hx

variable (hL : S.listing.code.length < Word.limit)
  (hs : RunsTo S.listing S.size start 0 .initial)

include hL hs

theorem Setting.Valid.comes {m : Machine}
    (hm : after? S.listing.code.toArray start (n + 1) = some m) :
    ∃ place, m.ip = Int64.ofNat place ∧ S.Comes (S.listing.Visits start n) place := by
  have hgoes : after? S.listing.code.toArray start (n + 1) ≠ none := by
    rw [hm]
    exact nofun
  obtain ⟨s, i, s', htracks, hi, hd, hruns⟩ := hS.moves hL hs hgoes
  obtain ⟨m', hm', hmirrors⟩ := hruns.after?
  obtain rfl : m = m' := Option.some.inj (hm.symm.trans hm')
  exact ⟨s'.ip, hmirrors.ip, htracks.comes hi hd⟩

end

/-! The end of a call. -/

/-- The expression calls a function or a method. -/
def Expr.isCall : Expr → Bool
  | .call .. | .send .. => true
  | _ => false

theorem Expr.isCond_of_isCall {e : Expr} (h : e.isCall = true) : e.isCond = false := by
  cases e with
  | cond => cases h
  | lit | name | binary | not | print | call | send | new => rfl

theorem CodeOf.js {t : Target} {e : Expr} {lines : List Line} (h : CodeOf t e lines)
    (hcall : e.isCall = true) :
    ∃ front, lines = front ++ Code.instrs [.plain .load, .plain .call] := by
  have hlast : ∀ (front : List Line) (is js : List Instr) (offset : Int),
      ∃ front', front ++ Code.instrs (is ++ (js ++ Code.loadAt offset ++ [.plain .call])) =
        front' ++ Code.instrs [.plain .load, .plain .call] := by
    intro front is js offset
    refine ⟨front ++
      Code.instrs (is ++ js ++ [.push (Int64.ofInt offset), .plain (.arith .add)]), ?_⟩
    simp [Code.instrs, Code.loadAt]
  cases h with
  | call => exact hlast _ _ _ _
  | send => exact hlast _ _ _ _
  | _ => cases hcall

theorem Site.Stands.js {t : Target} {L : Listing} {x : Site} (h : x.Stands t L)
    (hcall : x.expr.isCall = true) :
    ∃ before, before + 2 = x.stop t ∧ L.Has before (Code.instrs [.plain .load, .plain .call]) := by
  obtain ⟨lines, hcode, hlines⟩ := h
  obtain ⟨front, rfl⟩ := hcode.js hcall
  refine ⟨x.start + Line.sizes front, ?_, hlines.right⟩
  rw [Site.stop, ← hcode.sizes, Line.sizes_append, ← Nat.add_assoc]
  rfl

/-! Expressions without a value. -/

namespace Setting

variable {S : Setting}

/-- The type of the expression has no values. -/
def VoidAt (S : Setting) (x : Site) : Prop := ∃ ty, S.context.HasType x.expr ty ∧ ty.Void

theorem voidAt_iff {x : Site} {ty : Ty} (h : S.context.HasType x.expr ty) :
    S.VoidAt x ↔ ty.Void := by
  refine ⟨fun ⟨ty', h', hvoid⟩ => ?_, fun hvoid => ⟨ty, h, hvoid⟩⟩
  rwa [h.unique h']

theorem Invokes.isCall {x : Site} (h : S.Invokes x) : x.expr.isCall = true := by
  unfold Invokes at h
  cases he : x.expr with
  | call | send => rfl
  | lit | name | binary | not | cond | print | new =>
    rw [he] at h
    exact h.elim

/-- Two expressions that are no conditionals do not end at the same place. -/
theorem site_unique {x y : Site} (hx : x ∈ S.sites) (hy : y ∈ S.sites)
    (hxc : x.expr.isCond = false) (hyc : y.expr.isCond = false)
    (hend : x.stop S.target = y.stop S.target) : x = y :=
  (Program.ordered_sites S.target S.program).unique hx hy hxc hyc hend

theorem child_mem {x y : Site} (hx : x ∈ S.sites) (hy : y ∈ x.children S.target) : y ∈ S.sites :=
  Program.inner_of_site hx (Site.mem_inner_child hy)

variable {t : Ty} (hS : S.Valid t)

include hS

/-- A conditional has a value if its branches have, and ends where the second one ends. -/
theorem Valid.branches {x : Site} (hx : x ∈ S.sites) {test yes no : Expr} {pos : Position}
    (hcond : x.expr = .cond test yes no pos) :
    ∃ a ∈ x.children S.target, ∃ b ∈ x.children S.target,
      a.stop S.target = x.start + test.width S.target + 4 + no.width S.target ∧
      b.stop S.target = x.stop S.target ∧
      (S.VoidAt a ↔ S.VoidAt x) ∧ (S.VoidAt b ↔ S.VoidAt x) := by
  obtain ⟨ty, hty⟩ := hS.typed.part _ (Program.mem_parts hx)
  obtain ⟨Γ, start, e⟩ := x
  obtain rfl : e = _ := hcond
  cases hty with
  | cond ht hsub hy hn hj =>
    obtain ⟨hyes, hno⟩ := Ty.void_of_join? hj
    refine ⟨_, List.mem_cons_of_mem _ List.mem_cons_self, _,
      List.mem_cons_of_mem _ (List.mem_cons_of_mem _ List.mem_cons_self), rfl, ?_, ?_, ?_⟩
    · simp only [Site.stop, Expr.width]
      omega
    · rw [voidAt_iff hn, voidAt_iff (.cond ht hsub hy hn hj), hno]
    · rw [voidAt_iff hy, voidAt_iff (.cond ht hsub hy hn hj), hyes]

/-- Where an expression ends, there ends one that is not a conditional and that has a value
if the expression has. -/
theorem Valid.exists_last (x : Site) : x ∈ S.sites → ∃ y ∈ S.sites,
    y.stop S.target = x.stop S.target ∧ y.expr.isCond = false ∧ (S.VoidAt y ↔ S.VoidAt x) := by
  induction x using Site.induction S.target with
  | h x ih =>
    intro hx
    cases he : x.expr with
    | cond test yes no pos =>
      obtain ⟨-, -, b, hb, -, hstop, -, hvoid⟩ := hS.branches hx he
      obtain ⟨y, hy, hend, hcond, hyb⟩ := ih b hb (child_mem hx hb)
      exact ⟨y, hy, hend.trans hstop, hcond, hyb.trans hvoid⟩
    | lit | name | binary | not | print | call | send | new =>
      exact ⟨x, hx, rfl, by rw [he]; rfl, Iff.rfl⟩

/-- An expression without a value ends with a `js`, or it prints another one. -/
theorem Valid.last_instr {x : Site} (hx : x ∈ S.sites) (hcond : x.expr.isCond = false)
    (hvoid : S.VoidAt x) : ∃ place op, S.listing.Has place [.instr (.plain op)] ∧
      place + 1 = x.stop S.target ∧
      (op = .call ∨ ∃ y ∈ S.sites, S.VoidAt y ∧ y.stop S.target = place) := by
  have hcalls : x.expr.isCall = true → ∃ place op, S.listing.Has place [.instr (.plain op)] ∧
      place + 1 = x.stop S.target ∧
      (op = .call ∨ ∃ y ∈ S.sites, S.VoidAt y ∧ y.stop S.target = place) := by
    intro hcall
    obtain ⟨before, hbefore, hlast⟩ := (hS.listing.stands hx).js hcall
    exact ⟨before + 1, .call, Listing.Has.right (a := [.instr (.plain .load)]) hlast, hbefore,
      Or.inl rfl⟩
  obtain ⟨ty, hty, hvoid⟩ := hvoid
  obtain ⟨lines, hcode, hlines⟩ := hS.listing.stands hx
  obtain ⟨Γ, start, e⟩ := x
  cases hty with
  | @lit value pos => cases value <;> cases hvoid
  | name _ hkind =>
    rw [Ty.Void, hkind] at hvoid
    cases hvoid
  | binary _ _ ht => exact absurd hvoid (BinOp.not_void ht)
  | not _ _ => cases hvoid
  | cond => cases hcond
  | @print operand pos _ ho =>
    cases hcode with
    | print ha =>
      have hprint := hlines.right
      rw [ha.sizes] at hprint
      exact ⟨start + operand.width S.target, .print, hprint, rfl,
        Or.inr ⟨⟨Γ, start, operand⟩, child_mem hx List.mem_cons_self, ⟨_, ho, hvoid⟩, rfl⟩⟩
  | call => exact hcalls rfl
  | send => exact hcalls rfl
  | new => cases hvoid

/-- A run does not come to the end of an expression without a value before it has been at
the end of another one. -/
theorem Valid.not_comes {visited : Nat → Prop}
    (hv : ∀ x ∈ S.sites, S.VoidAt x → ¬ visited (x.stop S.target)) {x : Site} (hx : x ∈ S.sites)
    (hvoid : S.VoidAt x) : ¬ S.Comes visited (x.stop S.target) := by
  obtain ⟨y, hy, hend, hcond, hxy⟩ := hS.exists_last x hx
  obtain ⟨place, op, hop, hplace, hlast⟩ := hS.last_instr hy hcond (hxy.mpr hvoid)
  intro hcomes
  rw [← hend, ← hplace] at hcomes
  generalize hback : place + 1 = back at hcomes
  cases hcomes with
  | next hvisited hi hne =>
    obtain ⟨rfl, rfl⟩ := hi.eq_of_end hop hback.symm
    rcases hlast with rfl | ⟨z, hz, hzvoid, hzstop⟩
    · exact hne rfl
    · exact hv z hz hzvoid (hzstop ▸ hvisited)
  | jump hvisited hi =>
    rcases hS.listing.jump_leads hi with ⟨before, i, hbefore, hsize, hpair⟩ |
      ⟨c, hc, test, yes, no, pos, he, hfrom, hstop⟩
    · obtain ⟨rfl, rfl⟩ := hbefore.eq_of_end hop (by rw [hsize, ← hpair, ← hback]; rfl)
      cases hsize
    · -- The conditional has no value either, so the jump came from the end of one without.
      obtain ⟨y', hy', hend', hcond', hcy'⟩ := hS.exists_last c hc
      obtain rfl : y' = y := site_unique hy' hy hcond' hcond (by
        rw [hend', ← hstop, ← hback, hplace])
      obtain ⟨a, ha, -, -, hastop, -, hac, -⟩ := hS.branches hc he
      refine hv a (child_mem hc ha) (hac.mpr (hcy'.mp (hxy.mpr hvoid))) ?_
      rw [hastop]
      exact hfrom ▸ hvisited
  | call h =>
    obtain ⟨_, _, -, ⟨k, b, hk, hstart, -⟩, -⟩ := h
    exact Program.stop_ne_blockStart hy hk (by rw [← hplace, hback, hstart])
  | leave h hvisited =>
    obtain ⟨ty, ty', ⟨z, hz, hzstop, hinvokes, hty⟩, ⟨k, b, hk, rfl, rfl, hbody⟩, hembeds⟩ := h
    obtain rfl : z = y := site_unique hz hy (Expr.isCond_of_isCall hinvokes.isCall) hcond (by
      rw [hzstop, ← hback, hplace])
    have hvoid' := ((voidAt_iff hty).mp (hxy.mpr hvoid)).of_embeds hembeds
    obtain ⟨w, hw, hwstop, hwbody⟩ := Program.body_site S.target hk
    exact hv w hw ⟨ty', hwbody ▸ hbody, hvoid'⟩ (hwstop ▸ hvisited)

variable {start : Machine} (hL : S.listing.code.length < Word.limit)
  (hs : RunsTo S.listing S.size start 0 .initial)

include hL hs

/-- No run comes to the end of an expression without a value. -/
theorem Valid.not_visits (n : Nat) : ∀ x ∈ S.sites, S.VoidAt x →
    ¬ S.listing.Visits start n (x.stop S.target) := by
  induction n with
  | zero =>
    rintro x hx - ⟨k, hk, m, hm, hip⟩
    obtain rfl : k = 0 := by omega
    obtain ⟨m', hm', hmirrors⟩ := hs.after?
    obtain rfl : m = m' := Option.some.inj (hm.symm.trans hm')
    have hle := hS.stop_le hx
    have hpos := ((Program.ordered_sites S.target S.program).within x hx).1
    have hzero := Word.ofNat_inj (by omega) (Nat.zero_lt_of_lt hL) (hip.symm.trans hmirrors.ip)
    omega
  | succ n ih =>
    rintro x hx hvoid ⟨k, hk, m, hm, hip⟩
    by_cases hle : k ≤ n
    · exact ih x hx hvoid ⟨k, hle, m, hm, hip⟩
    · obtain rfl : k = n + 1 := by omega
      obtain ⟨place, hplace, hcomes⟩ := hS.comes hL hs hm
      have hxle := hS.stop_le hx
      have hcle := hcomes.le hS
      obtain rfl := Word.ofNat_inj (by omega) (by omega) (hplace.symm.trans hip)
      exact hS.not_comes ih hx hvoid hcomes

/-- A call whose `js` is executed is one of a function or a method. -/
theorem Valid.invokes {n : Nat} {m : Machine}
    (hm : after? S.listing.code.toArray start n = some m) {x : Site} (hx : x ∈ S.sites)
    (hcall : x.expr.isCall = true) {place : Nat} (hplace : place + 1 = x.stop S.target)
    (hip : m.ip = Int64.ofNat place) : S.Invokes x := by
  obtain ⟨before, hbefore, hlast⟩ := (hS.listing.stands hx).js hcall
  have hjs : S.listing.Has (before + 1) [.instr (.plain .call)] :=
    Listing.Has.right (a := [.instr (.plain .load)]) hlast
  obtain ⟨s, htracks, hnext⟩ := hS.next hL hs (by rw [hm]; exact nofun)
  obtain ⟨m', hm', hmirrors⟩ := htracks.runs.after?
  obtain rfl : m = m' := Option.some.inj (hm.symm.trans hm')
  have hat : ∀ i, S.listing.Has s.ip [.instr i] → s.ip = before + 1 ∧ i = .plain .call := by
    intro i hi
    have hle := hi.end_le
    have hxle := hS.stop_le hx
    have heq : s.ip = before + 1 := by
      have hip' := Word.ofNat_inj (by omega) (by omega) (hmirrors.ip.symm.trans hip)
      omega
    rw [heq] at hi
    exact ⟨heq, hi.eq_of_start hjs⟩
  cases hnext with
  | halts hi _ => cases (hat _ hi).2
  | fails hi hf => cases hf <;> cases (hat _ hi).2
  | does hi hd =>
    cases hd with
    | call hcalls =>
      obtain ⟨_, _, ⟨z, hz, hzstop, hinvokes, -⟩, -⟩ := hcalls.leads
      obtain rfl : z = x := site_unique hz hx (Expr.isCond_of_isCall hinvokes.isCall)
        (Expr.isCond_of_isCall hcall) (by rw [hzstop, (hat _ hi).1, ← hbefore])
      exact hinvokes
    | leave hleave =>
      -- Before a return the return address is pushed, before a call an address is loaded.
      obtain ⟨before', hbefore', hcode⟩ := hleave.code
      obtain rfl : before' = before := by
        have heq := (hat _ hi).1
        omega
      cases Listing.Has.eq_of_start (Listing.Has.left (a := [.instr (.plain (.pushReg .ra))]) hcode)
        (Listing.Has.left (a := [.instr (.plain .load)]) hlast)
    | _ => cases (hat _ hi).2

end Setting

/-! Calls of variables, parameters and fields. -/

/-- The entry that a call is bound to. -/
def Expr.callee? (b : Bindings) : Expr → Option EntryId
  | .call id _ _ _ => (b.uses[id]?).map Use.entry
  | .send id _ _ _ _ => (b.sends[id]?).map SendUse.method
  | _ => none

theorem Expr.isCall_of_callee? {b : Bindings} {e : Expr} {i : EntryId} (h : e.callee? b = some i) :
    e.isCall = true := by
  cases e with
  | call | send => rfl
  | lit | name | binary | not | cond | print | new => cases h

namespace Program

variable {p : Program}

/-- The expression calls a variable, a parameter or a field. -/
def CallsValue (p : Program) (e : Expr) : Prop :=
  ∃ v ∈ p.values, ∃ i, p.resolve.bindings.declarations[v]? = some i ∧
    e.callee? p.resolve.bindings = some i

/-- The methods of a class are declared by methods. -/
theorem Resolved.method_node {b : Bindings} {h : Ancestry} (hp : p.Resolved b h) {cls x : String}
    (hcls : cls ∈ p.classes.map ClassDecl.name) {m : Member}
    (hm : membersOf p.classes.reverse cls x = some m) (hkind : m.isMethod = true) :
    m.node ∈ p.nonValues := by
  obtain ⟨c, earlier, hc⟩ := class?_isSome.mpr (by
    rwa [List.map_reverse, List.mem_reverse])
  obtain ⟨l, hlaid⟩ := hp.classes cls c earlier hc
  have hstands := stands_membersOf hp.distinct ((layout?_eq hc).trans hlaid.layout) hm
  rw [Member.Stands, hkind] at hstands
  obtain ⟨d, hd, hnode⟩ := List.mem_flatMap.mp hstands.2
  exact List.mem_append_left _
    (List.mem_flatMap.mpr ⟨d, List.mem_reverse.mp hd, List.mem_cons_of_mem _ hnode⟩)

/-- The member that a method call is bound to is one of the class of its receiver. -/
theorem Filed.member (hf : p.Filed) {errors : List BindingError} {node : NodeId}
    {receiver method : String} {pos : Position} {declaration? : Option NodeId}
    (h : ReceiverSettled p.resolve.bindings errors node receiver method pos declaration?)
    {u : SendUse} (hu : p.resolve.bindings.sends[node]? = some u) :
    ∃ cls record m e, p.resolve.bindings.record? cls = some record ∧
      membersOf p.classes.reverse cls method = some m ∧
      p.resolve.bindings.declarations[m.node]? = some u.method ∧
      p.resolve.bindings.entry? u.method = some e ∧ e.isMethod = m.isMethod := by
  cases declaration? with
  | none => cases hu.symm.trans h
  | some n =>
    obtain ⟨id, entry, -, -, h⟩ := h
    split at h
    · cases hu.symm.trans h.1
    · rename_i cls _
      split at h
      · cases hu.symm.trans h
      · rename_i record hrecord
        split at h
        · cases hu.symm.trans h.1
        · rename_i i hi
          obtain ⟨u', hu', -, rfl⟩ := h
          obtain rfl : u = u' := Option.some.inj (hu.symm.trans hu')
          have henrols := hf.members cls record hrecord method
          cases hm : membersOf p.classes.reverse cls method with
          | none =>
            rw [hm] at henrols
            cases hi.symm.trans henrols
          | some m =>
            rw [hm] at henrols
            obtain ⟨i', e, hi', hdecl, he, hkind⟩ := henrols
            obtain rfl := Option.some.inj (hi.symm.trans hi')
            exact ⟨cls, record, m, e, hrecord, hm, hdecl, he, hkind⟩

/-- What calls a function or a method calls no value. -/
theorem Filed.not_callsValue (hf : p.Filed) (hn : p.ids.Nodup)
    (hp : p.Resolved p.resolve.bindings p.resolve.ancestry) {listing : Listing} {size : Word}
    {x : Site} (hx : (x.scope, x.expr) ∈ p.places) (hinvokes : (p.setting listing size).Invokes x) :
    ¬ p.CallsValue x.expr := by
  rintro ⟨v, hv, i, hdecl, hcallee⟩
  have hvalue := isValue_of_mem hv
  have hsettled := hf.settled _ hx
  obtain ⟨Γ, start, e⟩ := x
  unfold Setting.Invokes at hinvokes
  cases e with
  | call id callee args pos =>
    obtain ⟨n, hselect, hnot⟩ := hinvokes
    obtain ⟨u, hu, rfl⟩ := Option.map_eq_some_iff.mp hcallee
    rw [Expr.Settled, hselect] at hsettled
    obtain ⟨u', hu', hdecl'⟩ := hsettled
    obtain rfl := Option.some.inj (hu.symm.trans hu')
    rw [hf.separate.distinct v n _ hdecl hdecl'] at hvalue
    cases hvalue.symm.trans hnot
  | send id receiver method args pos =>
    obtain ⟨u, m, hu, hm, hkind⟩ := hinvokes
    obtain ⟨u', hu', rfl⟩ := Option.map_eq_some_iff.mp hcallee
    obtain rfl := Option.some.inj (hu.symm.trans hu')
    obtain ⟨cls, record, member, e, hrecord, hmember, hdecl', he, hsame⟩ := hf.member hsettled hu
    obtain rfl := Option.some.inj (hm.symm.trans he)
    have hnode := hp.method_node (hp.records cls record hrecord) hmember (hsame ▸ hkind)
    rw [hf.separate.distinct v _ _ hdecl hdecl', isValue_of_nonValue hn hnode] at hvalue
    cases hvalue
  | lit | name | binary | not | cond | print | new => exact hinvokes

/-- In every run of a program that compiles without an error, the machine never comes to
the end of an expression of an arrow type, and it never comes to the `js` of a call of a
variable, a parameter or a field. -/
theorem function_values_unreached (p : Program) (o : Options) (hn : p.ids.Nodup)
    (he : (p.compile o).errors = []) {listing : Listing}
    (hl : (p.compile o).listing? = some listing) (hlen : listing.code.length < Word.limit) :
    let t : Target := ⟨p.resolve.bindings, o.memorySize⟩
    (∀ q, q ∈ p.places ↔ ∃ x ∈ p.sites t, (x.scope, x.expr) = q) ∧
    ∀ x ∈ p.sites t, x.Stands t listing ∧
      (∀ log sig log', (p.typingContext.typeOf x.expr).result log = (.ok (.arrow sig), log') →
        ∀ n m, after? listing.code.toArray (Machine.fresh o.memorySize) n = some m →
          m.ip ≠ Int64.ofNat (x.stop t)) ∧
      (p.CallsValue x.expr → ∃ js, js + 1 = x.stop t ∧ listing.Has js [.instr (.plain .call)] ∧
        ∀ n m, after? listing.code.toArray (Machine.fresh o.memorySize) n = some m →
          m.ip ≠ Int64.ofNat js) := by
  intro t
  obtain ⟨listing', ty, hp, ht, hl', -, hlisting⟩ := p.clean o hn he
  obtain rfl : listing = listing' := Option.some.inj (hl.symm.trans hl')
  let S := p.setting listing o.memorySize
  -- Without memory there is no moment of the run.
  have hmoment : ∀ n m, after? listing.code.toArray (Machine.fresh o.memorySize) n = some m →
      RunsTo S.listing S.size (Machine.fresh o.memorySize) 0 .initial ∧ S.Valid ty ∧
        S.target = t := by
    intro n m hm
    rcases runsTo_initial listing o.memorySize with hstart | ⟨output, sp, hp, hends⟩
    · have hpos := hstart.size_nonneg
      exact ⟨hstart, setting_valid hn hp ht hlisting hpos, p.setting_target listing hpos⟩
    · exact absurd (hm.symm.trans (hends.after? (Nat.zero_le n))) nofun
  refine ⟨fun q => mem_places_iff t, fun x hx => ⟨hlisting.stands hx, ?_, ?_⟩⟩
  · intro log sig log' htype n m hm hip
    obtain ⟨hstart, hS, htarget⟩ := hmoment n m hm
    have hvoid : S.VoidAt x :=
      ⟨.arrow sig, (TypingContext.derives_typeOf _ _ log _ log' htype).1, rfl⟩
    rw [← htarget] at hx hip
    exact hS.not_visits hlen hstart n x hx hvoid ⟨n, Nat.le_refl n, m, hm, hip⟩
  · intro hvalue
    have hplace : (x.scope, x.expr) ∈ p.places := (mem_places_iff t).mpr ⟨x, hx, rfl⟩
    have hcall : x.expr.isCall = true := by
      obtain ⟨_, _, _, _, hcallee⟩ := hvalue
      exact Expr.isCall_of_callee? hcallee
    obtain ⟨before, hbefore, hlast⟩ := (hlisting.stands hx).js hcall
    have hend : before + 1 + 1 = x.stop t := hbefore
    refine ⟨before + 1, hend, Listing.Has.right (a := [.instr (.plain .load)]) hlast, ?_⟩
    intro n m hm hip
    obtain ⟨hstart, hS, htarget⟩ := hmoment n m hm
    rw [← htarget] at hx hend
    have hinvokes := hS.invokes hlen hstart hm hx hcall hend hip
    exact (p.filed hn).not_callsValue hn hp hplace hinvokes hvalue

end Program

/-- A program in which `find` would have a function as its result. The method `run` calls the
field `f`, and `apply` calls its parameter `g` and the field `f` of its parameter `b`. -/
def endlessProgram : Program :=
  let pos := Position.ofLine 1
  let arrow := WrittenType.arrow ⟨[.int pos], .int pos⟩ pos
  { classes := [
      { id := 0, name := "Box", parent? := none, pos
        fields := [⟨1, "f", arrow, pos⟩]
        methods := [{ id := 2, name := "run", params := [], ret := .int pos, decls := []
                      body := .call 3 "f" [.lit (.int 1) pos] pos, pos }] }]
    decls := [
      .fn 4 "find" [] arrow [] (.call 5 "find" [] pos) pos,
      .fn 6 "apply" [⟨7, "g", arrow, pos⟩, ⟨8, "b", .named "Box" pos, pos⟩] (.int pos) []
        (.binary .add (.call 9 "g" [.lit (.int 1) pos] pos)
          (.send 10 "b" "f" [.lit (.int 2) pos] pos) pos) pos]
    body := .call 11 "apply" [.call 12 "find" [] pos, .lit .null pos] pos
    pos }

/-- The expressions of the program, with their places in the code for a small memory. -/
def endlessSites : List Site := endlessProgram.sites ⟨endlessProgram.resolve.bindings, 60⟩

/-- A moment of a run in a small memory: `find` begins for the third time. -/
theorem endlessProgram_moments : endlessProgram.ids.Nodup ∧
    (endlessProgram.compile { memorySize := 60 }).errors = [] ∧
    (endlessProgram.compile { memorySize := 60 }).listing?.all fun l =>
      l.code.length < Word.limit ∧
      (after? l.code.toArray (Machine.fresh 60) 46).map Machine.ip = some 61 := by
  refine ⟨?_, ?_, ?_⟩ <;> decide +kernel

/-- In the body is `find ()`, which would have a function as its value, and elsewhere the
calls of the field and of the parameter. -/
theorem endlessProgram_sites :
    (endlessSites[1]?.any fun x => x.stop ⟨endlessProgram.resolve.bindings, 60⟩ = 29 ∧
      ((endlessProgram.typingContext.typeOf x.expr).result {}).1.toOption =
        some (.arrow ⟨[.int], .int⟩)) ∧
    ([(4, 53, 0), (7, 94, 5), (9, 111, 0)].all fun (i, js, callee) => endlessSites[i]?.any fun x =>
      x.stop ⟨endlessProgram.resolve.bindings, 60⟩ = js + 1 ∧
        x.expr.callee? endlessProgram.resolve.bindings = some callee) ∧
    [1, 7].map (endlessProgram.resolve.bindings.declarations[·]?) = [some 0, some 5] := by
  refine ⟨?_, ?_, ?_⟩ <;> decide +kernel

/-- The machine comes neither to the end of `find ()` in the body nor to the `js` of `f (1)`,
`g (1)` and `b.f (2)`. -/
theorem endlessProgram_unreached : ∃ listing,
    (endlessProgram.compile { memorySize := 60 }).listing? = some listing ∧
    (∃ m, after? listing.code.toArray (Machine.fresh 60) 46 = some m) ∧
    ∀ n m, after? listing.code.toArray (Machine.fresh 60) n = some m →
      m.ip ≠ 29 ∧ m.ip ≠ 53 ∧ m.ip ≠ 94 ∧ m.ip ≠ 111 := by
  obtain ⟨hids, he, hall⟩ := endlessProgram_moments
  obtain ⟨listing, t, hl, -⟩ := endlessProgram.compiled { memorySize := 60 } hids he
  rw [hl, Option.all_some, decide_eq_true_iff] at hall
  obtain ⟨hlen, hgoes⟩ := hall
  obtain ⟨m, hm, -⟩ := Option.map_eq_some_iff.mp hgoes
  obtain ⟨-, hsites⟩ :=
    endlessProgram.function_values_unreached { memorySize := 60 } hids he hl hlen
  obtain ⟨harrow, hcalls, hdeclared⟩ := endlessProgram_sites
  have hnever : ∀ v ∈ endlessProgram.values, ∀ i js callee,
      (i, js, callee) ∈ [(4, 53, 0), (7, 94, 5), (9, 111, 0)] →
      endlessProgram.resolve.bindings.declarations[v]? = some callee →
      ∀ n m, after? listing.code.toArray (Machine.fresh 60) n = some m → m.ip ≠ Int64.ofNat js := by
    intro v hv i js callee hi hdecl n m hm
    obtain ⟨x, hx, hcall⟩ := (Option.any_eq_true _ _).mp (List.all_eq_true.mp hcalls _ hi)
    rw [decide_eq_true_iff] at hcall
    obtain ⟨js', hjs, -, hnot⟩ :=
      (hsites x (List.mem_of_getElem? hx)).2.2 ⟨v, hv, callee, hdecl, hcall.2⟩
    obtain rfl : js' = js := Nat.succ.inj (hjs.trans hcall.1)
    exact hnot n m hm
  rw [List.map_cons, List.map_singleton, List.cons.injEq, List.cons.injEq] at hdeclared
  have hf := hnever 1 (by decide)
  have hg := hnever 7 (by decide)
  refine ⟨listing, hl, ⟨m, hm⟩, fun n m hm => ⟨?_, hf 4 53 0 ?_ hdeclared.1 n m hm,
    hg 7 94 5 ?_ hdeclared.2.1 n m hm, hf 9 111 0 ?_ hdeclared.1 n m hm⟩⟩
  · obtain ⟨x, hx, hfind⟩ := (Option.any_eq_true _ _).mp harrow
    rw [decide_eq_true_iff] at hfind
    obtain ⟨hstop, htype⟩ := hfind
    rcases hr : (endlessProgram.typingContext.typeOf x.expr).result {} with ⟨_ | ty, log⟩
    · rw [hr] at htype
      cases htype
    · rw [hr] at htype
      obtain rfl := Option.some.inj htype
      have hnot := (hsites x (List.mem_of_getElem? hx)).2.1 _ _ log hr n m hm
      rwa [hstop] at hnot
  all_goals simp

end Classlet
