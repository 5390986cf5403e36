import Classlet.Proofs.Kinds
import Classlet.Proofs.Locations
import Classlet.Proofs.Sequences
import Classlet.Proofs.Soundness

/-!
How the state of an evaluation is kept in the memory of the machine. A word stands
for itself and an object for its address: the word at that address is the address
of the dispatch table of its class, and the fields are below it. A name stands for
the word at the offset of its entry from its frame, and the frames are chained by
access links. All of this stays true when more is put on the stack and the heap.
-/

namespace Classlet

/-- What is run: the listing of a program, in a memory of a size. -/
structure Setting where
  program : Program
  context : TypingContext
  listing : Listing
  size : Nat

/-- The word that a value is kept as, given the addresses of the objects. -/
def Value.Encodes (addresses : List Nat) : Value → Word → Prop
  | .word x, w => w = x
  | .object i, w => ∃ a, addresses[i]? = some a ∧ w = Int64.ofNat a

theorem Value.Encodes.mono {addresses addresses' : List Nat} {v : Value} {w : Word}
    (h : v.Encodes addresses w) (hp : addresses <+: addresses') : v.Encodes addresses' w := by
  cases v with
  | word x => exact h
  | object i =>
    obtain ⟨a, ha, hw⟩ := h
    exact ⟨a, getElem?_of_prefix hp ha, hw⟩

/-- What a value is kept as in memory: the address of an object is a place in the heap. -/
def Value.Kept (addresses : List Nat) : Value → Cell → Prop
  | .word x, c => c = .word x
  | .object i, c => ∃ a : Nat, addresses[i]? = some a ∧ c = .place (.heap a)

theorem Value.Kept.mono {addresses addresses' : List Nat} {v : Value} {c : Cell}
    (h : v.Kept addresses c) (hp : addresses <+: addresses') : v.Kept addresses' c := by
  cases v with
  | word x => exact h
  | object i =>
    obtain ⟨a, ha, hc⟩ := h
    exact ⟨a, getElem?_of_prefix hp ha, hc⟩

/-- A value is kept as the same word whatever the size of the memory. -/
theorem Value.Kept.encodes {addresses : List Nat} {v : Value} {c : Cell}
    (h : v.Kept addresses c) : ∃ w, c.fixed? = some w ∧ v.Encodes addresses w := by
  cases v with
  | word x =>
    obtain rfl : c = .word x := h
    exact ⟨x, rfl, rfl⟩
  | object i =>
    obtain ⟨a, ha, rfl⟩ := h
    exact ⟨_, rfl, a, ha, Int64.ofInt_eq_ofNat⟩

/-- What follows the arguments in the code of a call, and where the call finds its access
link: for a method call on an object that is the object. -/
inductive CallTail (t : Target) : Expr → List Expr → LinkSource → List Instr → Prop
  | call {id : NodeId} {callee : String} {args : List Expr} {pos : Position} {u : Use} {e : Entry}
    (hu : t.bindings.used? id = some (u, e)) :
    CallTail t (.call id callee args pos) args ⟨u.distance e, none⟩
      (Code.pushFrame (u.distance e) ++ Code.callAt e)
  | send {id : NodeId} {receiver method : String} {args : List Expr} {pos : Position}
    {u : SendUse} {r m : Entry} (hu : t.bindings.sends[id]? = some u)
    (hr : t.bindings.entry? u.receiver.entry = some r)
    (hm : t.bindings.entry? u.method = some m) :
    CallTail t (.send id receiver method args pos) args
      ⟨u.receiver.distance r, some r.offset⟩
      (Code.pushFrame (u.receiver.distance r) ++ Code.loadAt r.offset ++ Code.callMethod m)

/-- The code of a call, from that of its arguments. -/
def callLines (codes : List (List Line)) (tail : List Instr) : List Line :=
  Code.instrs [.plain (.pushReg .fp)] ++ codes.reverse.flatten ++ Code.instrs tail

/-- Where the arguments of a call have been computed. The last one is the first to be
computed. -/
def argEnds (start : Nat) : List (List Line) → List Nat
  | [] => []
  | code :: codes => (start + Line.sizes (code :: codes).reverse.flatten) :: argEnds start codes

theorem length_argEnds (start : Nat) (codes : List (List Line)) :
    (argEnds start codes).length = codes.length := by
  induction codes with
  | nil => rfl
  | cons code codes ih => rw [argEnds, List.length_cons, List.length_cons, ih]

namespace Setting

variable (S : Setting)

def target : Target := { bindings := S.context.bindings, memorySize := Int64.ofNat S.size }

abbrev classes : List ClassDecl := S.program.classes.reverse

/-- All expressions of the program where their code stands. -/
abbrev sites : List Site := S.program.sites S.target

/-- A label is that of a function or method of the program which sees the frames of an
environment and has computed its result at the place `stop`. -/
def Routine (l : Label) (env : Env) (params : List Binder) (decls : List Decl) (body : Expr)
    (stop : Nat) : Prop :=
  ∃ k Γ, l = .function k ∧ S.program.blocks[k]? = some ⟨Γ, params, decls, body⟩ ∧
    ScopeFits S.program Γ env ∧
    stop = S.program.blockStart S.target k + Block.bodyWidth S.target ⟨Γ, params, decls, body⟩

/-- The listing has the code of a function or method of the program, which has computed
its result at the place `stop`. -/
def RoutineUntil (l : Label) (params : List Binder) (decls : List Decl) (body : Expr)
    (stop : Nat) : Prop :=
  (params, decls, body) ∈ S.program.routines ∧ ∃ ds bs,
    DeclsCode S.target S.listing S.program decls ds ∧ CodeOf S.target body bs ∧
    (∀ x ∈ body.parts, x ∈ S.program.parts) ∧
    S.listing.Has (S.listing.position l) (routineLines params.length decls.length ds bs) ∧
    stop = S.listing.position l +
      Line.sizes (Code.instrs [.plain .setFrame, .plain (.pushReg .ra)] ++ ds ++ bs)

theorem Routine.until (hl : ListingOf S.program S.target S.listing) {l : Label} {env : Env}
    {params : List Binder} {decls : List Decl} {body : Expr} {stop : Nat}
    (h : S.Routine l env params decls body stop) : S.RoutineUntil l params decls body stop := by
  obtain ⟨k, Γ, rfl, hk, -, rfl⟩ := h
  obtain ⟨hposition, ds, bs, hds, hbs, hlines⟩ := hl.block hk
  obtain ⟨hplaces, hmem⟩ := Program.blocks_places (List.mem_of_getElem? hk)
  rw [routinePlaces, List.append_subset] at hplaces
  refine ⟨hmem, ds, bs, hl.declsCode.2 _ _ _ _ hds hplaces.1, hbs,
    fun x hx => Program.mem_parts_of_places hplaces.2 hx, hposition ▸ hlines, ?_⟩
  rw [hposition, Line.sizes_append, Line.sizes_append, hds.sizes, hbs.sizes]
  rfl

/-- A place of the listing is the `js` of a call in the program. -/
def CallAt (place : Nat) (ends : List Nat) (source : LinkSource) : Prop :=
  ∃ x args codes tail start, x ∈ S.program.parts ∧ CallTail S.target x args source tail ∧
    List.Forall₂ (CodeOf S.target) args codes ∧
    S.listing.Has start (callLines codes tail) ∧
    place + 1 = start + Line.sizes (callLines codes tail) ∧ ends = argEnds (start + 1) codes

/-- The calls of the program, and the code of its functions and methods. -/
def landmarks : Landmarks where
  call := S.CallAt
  block place n stop := ∃ l params decls body, S.RoutineUntil l params decls body stop ∧
    place = S.listing.position l ∧ n = params.length

/-- A call of the program that is not one of a value. -/
def Invokes (x : Site) : Prop :=
  match x.expr with
  | .call _ callee _ _ =>
    ∃ n, Naming.select? x.scope callee = some n ∧ S.program.isValue n = false
  | .send id _ _ _ _ => ∃ u m, S.context.bindings.sends[id]? = some u ∧
      S.context.bindings.entry? u.method = some m ∧ m.isMethod = true
  | _ => False

/-- A call of the program with a result of a type ends at a place. -/
def CallEnds (ty : Ty) (back : Nat) : Prop :=
  ∃ x ∈ S.sites, x.stop S.target = back ∧ S.Invokes x ∧ S.context.HasType x.expr ty

/-- The code of a function or method of the program begins at a place, and its body with a
value of a type ends at `stop`. -/
def BodyEnds (ty : Ty) (place stop : Nat) : Prop :=
  ∃ k b, S.program.blocks[k]? = some b ∧ place = S.program.blockStart S.target k ∧
    stop = place + b.bodyWidth S.target ∧ S.context.HasType b.body ty

/-- Where a call ends, and where the code that it calls begins and its body ends: every
value of the body is one that the call can have. -/
def Leads (back place stop : Nat) : Prop :=
  ∃ ty ty', S.CallEnds ty back ∧ S.BodyEnds ty' place stop ∧ ty'.Embeds S.context.ancestry ty

def route : Route where
  toLandmarks := S.landmarks
  leads := S.Leads

theorem Routine.leads (hl : ListingOf S.program S.target S.listing) {l : Label} {env : Env}
    {params : List Binder} {decls : List Decl} {body : Expr} {stop back : Nat}
    (h : S.Routine l env params decls body stop)
    {ret : WrittenType} (hbody : S.context.BodyTyped ret body) {ty : Ty}
    (hcall : S.CallEnds ty back) (hret : ret.lower.Embeds S.context.ancestry ty) :
    S.Leads back (S.listing.position l) stop := by
  obtain ⟨k, Γ, rfl, hk, -, rfl⟩ := h
  obtain ⟨ty', hty, hsub⟩ := hbody
  have hposition := (hl.block hk).1
  exact ⟨ty, ty', hcall, ⟨k, _, hk, hposition, by rw [hposition], hty⟩,
    (Ty.embeds_of_subtypeOf hsub).trans hret⟩

/-- The heap has the dispatch table of a class at an address. -/
def Table (heap : List Cell) (cls : String) (table : Nat) : Prop :=
  ∀ (l : Layout) (j : Nat) x m, layout? S.classes cls = some l → l.methods[j]? = some (x, m) →
    ∃ q, heap[table + j]? = some (.word (S.listing.address q)) ∧
      ∃ Γ, S.program.MethodScope m.owner Γ ∧ S.program.MethodAt Γ m.decl q

/-- The end of the code of `new`: the store that makes the object, and what
follows it. -/
def lastStore : List Line :=
  .instr (.plain .store) :: Code.instrs (.plain (.pushReg .hp) :: Code.growHeap)

/-- At a place of the listing is the store that makes the object of a `new` of
the program for a class. -/
def Allocates (cls : String) (place : Nat) : Prop :=
  ∃ id args pos lines start, Expr.new id cls args pos ∈ S.program.parts ∧
    CodeOf S.target (.new id cls args pos) (lines ++ lastStore) ∧
    S.listing.Has start (lines ++ lastStore) ∧ place = start + Line.sizes lines

/-- An object is kept at an address. -/
structure ObjectAt (s : Snapshot) (addresses : List Nat) (o : Object) (a : Nat) : Prop where
  table : ∃ table : Nat, s.heap[a]? = some (.place (.heap table)) ∧
    S.Table s.heap o.cls table
  fields : ∀ (k : Nat) v, o.fields[k]? = some v →
    ∃ i c, i + k + 1 = a ∧ s.heap[i]? = some c ∧ v.Kept addresses c
  stored : ∃ place, (place, a) ∈ s.stores ∧ S.Allocates o.cls place

/-- Each class has its dispatch table, whose address is in the slot of the class. -/
def ClassesAt (s : Snapshot) : Prop :=
  ∀ cls d earlier, class? S.classes cls = some (d, earlier) → ∃ table : Nat,
    s.Holds (.stack (-2 - earlier.length)) (.place (.heap table)) ∧ S.Table s.heap cls table

/-- The objects and the output of an evaluation, as the machine has them. -/
structure StoreAt (st : Store) (s : Snapshot) (addresses : List Nat) : Prop where
  count : addresses.length = st.objects.length
  increasing : addresses.Pairwise (· < ·)
  below : ∀ a ∈ addresses, a < s.heap.length
  objects : ∀ (i : Nat) o a, st.objects[i]? = some o → addresses[i]? = some a →
    S.ObjectAt s addresses o a
  output : List.Forall₂ (Value.Encodes addresses) st.output s.output
  pending : s.pending = none
  classes : S.ClassesAt s

end Setting

/-- What a name stands for is kept in its frame. The frames below `lowest` have
classes only. -/
def Denotation.At (S : Setting) (s : Snapshot) (addresses : List Nat) (frames : Nat → Place)
    (lowest : Nat) (Γ : Nest Entry) (env : Env) (_ : String) (e : Entry) : Denotation → Prop
  | .value v => e.level = Γ.level ∧ lowest ≤ e.level ∧
      ∃ c, v.Kept addresses c ∧ s.Holds ((frames e.level).shift e.offset) c
  | .function params decls body => e.level = Γ.level ∧ lowest ≤ e.level ∧
      ∃ l stop, s.Holds ((frames e.level).shift e.offset) (.word (S.listing.address l)) ∧
        S.Routine l env params decls body stop
  | .method self => e.level = Γ.level ∧ lowest ≤ e.level ∧
      ∃ a : Nat, addresses[self]? = some a ∧ frames e.level = .heap a
  | .cls => True

/-- The frames of an evaluation, as the machine has them. -/
structure EnvAt (S : Setting) (s : Snapshot) (addresses : List Nat) (frames : Nat → Place)
    (lowest : Nat) (Γ : Nest Entry) (env : Env) : Prop where
  items : Nest.Agree ( Denotation.At S s addresses frames lowest) Γ env
  low : lowest < Γ.length
  links : ∀ n, lowest < n → n < Γ.length →
    s.Holds (frames n) (.place (frames (n - 1)))

/-- The machine has gone on from one snapshot to another, with more on the stack
and the heap, and has the state of the evaluation there. -/
structure Advanced (S : Setting) (s : Snapshot) (addresses : List Nat) (st : Store)
    (s' : Snapshot) (addresses' : List Nat) : Prop where
  fp : s'.fp = s.fp
  calls : s'.calls = s.calls
  marks : s.marks <+: s'.marks
  stack : s.stack <:+ s'.stack
  heap : s.heap <+: s'.heap
  addresses : addresses <+: addresses'
  store : S.StoreAt st s' addresses'

/-- The machine is where an expression can be evaluated in some frames. -/
structure Ready (S : Setting) (st : Store) (s : Snapshot) (addresses : List Nat)
    (frames : Nat → Place) (lowest : Nat) (Γ : Nest Entry) (env : Env) : Prop where
  envTyped : EnvTyped S.program S.context st.objects Γ env
  storeTyped : StoreTyped S.program S.context st.objects
  fp : s.fp = .place (frames Γ.level)
  env : EnvAt S s addresses frames lowest Γ env
  store : S.StoreAt st s addresses

section

variable {S : Setting} {s s' : Snapshot} {addresses addresses' : List Nat}

theorem Setting.Table.mono {heap heap' : List Cell} {cls : String} {table : Nat}
    (h : S.Table heap cls table) (hp : heap <+: heap') : S.Table heap' cls table := by
  intro l j x m hl hj
  obtain ⟨q, hq, hroutine⟩ := h l j x m hl hj
  exact ⟨q, getElem?_of_prefix hp hq, hroutine⟩

theorem Setting.ObjectAt.mono {o : Object} {a : Nat} (h : S.ObjectAt s addresses o a)
    (hheap : s.heap <+: s'.heap) (hstores : s.stores <+: s'.stores)
    (haddr : addresses <+: addresses') : S.ObjectAt s' addresses' o a := by
  obtain ⟨table, htable, hmethods⟩ := h.table
  obtain ⟨place, hmem, hplace⟩ := h.stored
  refine ⟨⟨table, getElem?_of_prefix hheap htable, hmethods.mono hheap⟩, ?_,
    place, hstores.subset hmem, hplace⟩
  intro k v hv
  obtain ⟨i, c, hi, hc, hkept⟩ := h.fields k v hv
  exact ⟨i, c, hi, getElem?_of_prefix hheap hc, hkept.mono haddr⟩

theorem Setting.ClassesAt.mono (h : S.ClassesAt s) (hs : s.Extends s') : S.ClassesAt s' := by
  intro cls d earlier hc
  obtain ⟨table, hslot, htable⟩ := h cls d earlier hc
  exact ⟨table, hslot.mono hs, htable.mono hs.heap⟩

theorem Denotation.At.mono {frames : Nat → Place} {lowest : Nat} {Γ : Nest Entry} {env : Env}
    {x : String} {e : Entry} {d : Denotation} (h : d.At S s addresses frames lowest Γ env x e)
    (hs : s.Extends s') (haddr : addresses <+: addresses') :
    d.At S s' addresses' frames lowest Γ env x e := by
  cases d with
  | value v =>
    obtain ⟨hlevel, hlow, c, hkept, hc⟩ := h
    exact ⟨hlevel, hlow, c, hkept.mono haddr, hc.mono hs⟩
  | function params decls body =>
    obtain ⟨hlevel, hlow, l, stop, hl, hroutine⟩ := h
    exact ⟨hlevel, hlow, l, stop, hl.mono hs, hroutine⟩
  | method self =>
    obtain ⟨hlevel, hlow, a, ha, hframe⟩ := h
    exact ⟨hlevel, hlow, a, getElem?_of_prefix haddr ha, hframe⟩
  | cls => trivial

theorem EnvAt.mono {frames : Nat → Place} {lowest : Nat} {Γ : Nest Entry} {env : Env}
    (h : EnvAt S s addresses frames lowest Γ env) (hs : s.Extends s')
    (haddr : addresses <+: addresses') : EnvAt S s' addresses' frames lowest Γ env :=
  ⟨h.items.mono fun _ _ _ _ _ hd => hd.mono hs haddr, h.low,
    fun n hn hn' => (h.links n hn hn').mono hs⟩

/-- The same state with other things on the stack and in registers, with other calls
under way, and elsewhere. -/
theorem Setting.StoreAt.moved {st : Store} (h : S.StoreAt st s addresses) {ip made : Nat}
    {stack : List Cell} {ra : Word} {fp tm : Cell} {calls : List Activation} {marks : List Mark}
    (hc : S.ClassesAt { s with ip, stack, fp, ra, tm, calls, made, marks }) :
    S.StoreAt st { s with ip, stack, fp, ra, tm, calls, made, marks } addresses := by
  refine ⟨h.count, h.increasing, h.below, fun i o a ho ha => ?_, h.output, h.pending, hc⟩
  exact (h.objects i o a ho ha).mono (List.prefix_refl _) (List.prefix_refl _) (List.prefix_refl _)

theorem Advanced.extends {st : Store} (h : Advanced S s addresses st s' addresses') :
    s.Extends s' := ⟨h.stack, h.heap⟩

theorem Advanced.refl {st : Store} (h : S.StoreAt st s addresses) :
    Advanced S s addresses st s addresses :=
  ⟨rfl, rfl, List.prefix_refl _, List.suffix_refl _, List.prefix_refl _, List.prefix_refl _, h⟩

theorem Advanced.trans {st st' : Store} {s'' : Snapshot} {addresses'' : List Nat}
    (h : Advanced S s addresses st s' addresses')
    (h' : Advanced S s' addresses' st' s'' addresses'') :
    Advanced S s addresses st' s'' addresses'' :=
  ⟨h'.fp.trans h.fp, h'.calls.trans h.calls, h.marks.trans h'.marks, h.stack.trans h'.stack,
    h.heap.trans h'.heap, h.addresses.trans h'.addresses, h'.store⟩

theorem Advanced.marked {st : Store} (h : Advanced S s addresses st s' addresses')
    {marks : List Mark} (hmarks : s'.marks <+: marks) :
    Advanced S s addresses st { s' with marks } addresses' :=
  ⟨h.fp, h.calls, h.marks.trans hmarks, h.stack, h.heap, h.addresses,
    h.store.moved (h.store.classes.mono ⟨List.suffix_refl _, List.prefix_refl _⟩)⟩

/-- The machine is ready again after an evaluation. -/
theorem Ready.advance {st st' : Store} {frames : Nat → Place} {lowest : Nat} {Γ : Nest Entry}
    {env : Env} (h : Ready S st s addresses frames lowest Γ env)
    (hsound : Sound S.program S.context st.objects st')
    (hadv : Advanced S s addresses st' s' addresses') :
    Ready S st' s' addresses' frames lowest Γ env :=
  ⟨h.envTyped.mono hsound.grows, hsound.store, hadv.fp.trans h.fp,
    h.env.mono hadv.extends hadv.addresses, hadv.store⟩

/-- Going on without a change to the heap and the frame pointer, with all that was
on the stack at first still there. -/
theorem Advanced.settle {st : Store} (h : Advanced S s addresses st s' addresses')
    (hc : S.ClassesAt s) {ip : Nat} {stack : List Cell} {ra : Word} {tm : Cell}
    (hstack : s.stack <:+ stack) :
    Advanced S s addresses st { s' with ip, stack, ra, tm } addresses' :=
  ⟨h.fp, h.calls, h.marks, hstack, h.heap, h.addresses,
    h.store.moved (hc.mono ⟨hstack, h.heap⟩)⟩

end

end Classlet
