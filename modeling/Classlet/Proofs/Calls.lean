import Classlet.Proofs.Simulation

/-!
The code of calls and of `new`. A call leaves the frame pointer and the arguments on
the stack, the first argument topmost, and over them the frame that the callee sees;
for a method this is the object, whose dispatch table has the address of the code.
`new` moves the values of the fields to the heap, the last one first, and puts the
address of the dispatch table behind them.
-/

namespace Classlet

open Code

section

variable {S : Setting} {Γ : Nest Entry} {env : Env} {st : Store} {s : Snapshot}
  {addresses : List Nat} {frames : Nat → Place} {lowest : Nat}

/-- The frames that a function sees are among those of the call. -/
theorem EnvAt.seen (h : EnvAt S s addresses frames lowest Γ env) {x : String} {e : Entry}
    {seen : Nest Entry} {seen' : Env} (hx : Γ.find? x = some (e, seen))
    (hseen : Nest.Agree ( Denotation.At S s addresses frames lowest) seen seen')
    (hlow : lowest ≤ seen.level) : EnvAt S s addresses frames lowest seen seen' := by
  obtain ⟨hpos, hle⟩ := Nest.length_of_find? hx
  refine ⟨hseen, ?_, fun n hn hn' => h.links n hn (by omega)⟩
  have hlevel : seen.level = seen.length - 1 := rfl
  omega

/-- A method sees the members of its class in the object, which is its outer
frame. -/
theorem envAt_members {p : Program} {c : TypingContext} {t : Ty} {listing : Listing} {size : Nat}
    (hp : p.Resolved c.bindings c.ancestry) (ht : c.ProgramTyped p t)
    (hs : StoreTyped p c st.objects) {self a : Nat} {o : Object}
    (ho : st.objects[self]? = some o) (ha : addresses[self]? = some a)
    (hat : Setting.ObjectAt ⟨p, c, listing, size⟩ s addresses o a) {owner : String} {l : Layout}
    (hb : c.ancestry.Below o.cls owner) (hl : layout? p.classes.reverse owner = some l) :
    EnvAt ⟨p, c, listing, size⟩ s addresses (fun _ => .heap a) 1 (l.frames p.classes.reverse)
      [l.members self o.fields, classFrame p.classes.reverse] := by
  refine ⟨.cons ?_ (.cons (frameAgree_classes (fun _ _ _ _ _ => trivial) _) .nil),
    Nat.lt_succ_self 1, fun n hn hn' => absurd hn' (Nat.not_lt.mpr hn)⟩
  refine frameAgree_fields (frameAgree_methods l.methods 0 ?_) l.fields o.fields 0 ?_
  · intro n x m _ frame frame'
    exact ⟨rfl, Nat.le_refl 1, a, ha, rfl⟩
  · intro n x ty hn
    obtain ⟨v, hv, -⟩ := field_value hp ht hs ho hb hl hn
    obtain ⟨i, w, hi, hw, henc⟩ := hat.fields n v hv
    refine ⟨v, hv, fun _ _ => ⟨rfl, Nat.le_refl 1, w, henc, Or.inr ⟨i, ?_, hw⟩⟩⟩
    simp only [Layout.fieldEntry, Place.shift]
    congr 1
    omega

/-- The arguments of a call are on the stack, and `tail` is the code of the call that is
left up to `back`. -/
structure Setting.Prepared (S : Setting) (s : Snapshot) (source : LinkSource) (tail : List Instr)
    (back : Nat) (ws rest : List Cell) : Prop where
  code : S.listing.Has s.ip (instrs tail)
  stack : s.stack = ws ++ s.fp :: rest
  stop : s.ip + Line.sizes (instrs tail) = back
  site : ∃ place ends, place + 1 = back ∧ S.CallAt place ends source ∧
    ends.length = ws.length ∧ s.ComputedAt (ws ++ s.fp :: rest) ends

/-- The access link is on the stack as well. -/
structure Setting.Linked (S : Setting) (s : Snapshot) (tail : List Instr) (back : Nat) (link : Cell)
    (ws rest : List Cell) : Prop where
  code : S.listing.Has s.ip (instrs tail)
  stack : s.stack = link :: (ws ++ s.fp :: rest)
  stop : s.ip + Line.sizes (instrs tail) = back
  site : ∃ place ends source, place + 1 = back ∧ S.CallAt place ends source ∧
    ends.length = ws.length ∧ s.FindsLink source link ∧ s.ComputedAt (ws ++ s.fp :: rest) ends

/-- A call that gets its access link by some instructions. -/
theorem Setting.Prepared.returns {source : LinkSource} {is tail : List Instr} {back : Nat}
    {ws rest : List Cell} (h : S.Prepared s source (is ++ tail) back ws rest) {ip depth : Nat}
    {link : Cell}
    (hl : Straight S.listing S.size S.route is s { s with ip, stack := link :: s.stack })
    (hlink : s.FindsLink source link) {r : Except Abort (Value × Store)}
    (hr : S.Linked { s with ip, stack := link :: s.stack } tail back link ws rest →
      Follows S depth r { s with ip, stack := link :: s.stack }
        (Returns S s addresses back s.fp rest s.calls)) :
    Follows S depth r s (Returns S s addresses back s.fp rest s.calls) := by
  have hcode := h.code
  have hstop := h.stop
  have hip : ip = s.ip + Line.sizes (instrs is) := hl.ip
  rw [instrs_append] at hcode hstop
  rw [Line.sizes_append, ← Nat.add_assoc, ← hip] at hstop
  obtain ⟨place, ends, hplace, hcall, hlen, hends⟩ := h.site
  refine .steps (hl.steps hcode.left) (hr ⟨hip ▸ hcode.right, ?_, hstop, place, ends, source,
    hplace, hcall, hlen, ?_, hends⟩)
  · rw [h.stack]
  · exact hlink.mono ⟨List.suffix_cons _ _, List.prefix_refl _⟩ rfl

/-- The snapshot after a call of the code at a place. -/
def Snapshot.called (s : Snapshot) (place : Nat) (tm : Cell) (stop back : Nat) (rest : List Cell) :
    Snapshot :=
  { s with
    ip := place, tm, ra := Int64.ofNat back
    calls := ⟨s.made, stop, back, s.fp, rest⟩ :: s.calls, made := s.made + 1 }

theorem Snapshot.extends_called (s : Snapshot) (place : Nat) (tm : Cell) (stop back : Nat)
    (rest : List Cell) : s.Extends (s.called place tm stop back rest) :=
  ⟨List.suffix_refl _, List.prefix_refl _⟩

/-- The code of a function or method is entered, after some instructions that find its
address. -/
theorem Setting.Linked.steps {is : List Instr} {link : Cell} {ws rest : List Cell} {back : Nat}
    (h : S.Linked s (is ++ [.plain .load, .plain .call]) back link ws rest) {ip : Nat} {tm : Cell}
    {l : Label} {params : List Binder} {decls : List Decl} {body : Expr} {stop : Nat}
    (hl : Straight S.listing S.size S.route (is ++ [.plain .load]) s
      { s with ip, stack := .word (S.listing.address l) :: s.stack, tm })
    (hr : S.RoutineUntil l params decls body stop)
    (hleads : S.Leads back (S.listing.position l) stop) (hlen : params.length = ws.length) :
    ∃ n, Steps S.listing S.size S.route n s
      (s.called (S.listing.position l) tm stop back rest) := by
  obtain ⟨before, hbefore, hlast⟩ := has_last_two h.code rfl
  have hip : ip = s.ip + Line.sizes (instrs (is ++ [.plain .load])) := hl.ip
  have hcode := h.code
  have hback := h.stop
  rw [List.append_cons, instrs_append] at hback hcode
  rw [Line.sizes_append, ← Nat.add_assoc, ← hip] at hback
  have hcall := hcode.right
  rw [← hip] at hcall hbefore
  obtain ⟨place, ends, source, hplace, hsite, hends, hlink, hcomputed⟩ := h.site
  obtain rfl : ip + 1 = back := hback
  obtain rfl : place = ip := Nat.succ.inj hplace
  have hstack : .word (S.listing.address l) :: s.stack =
      .word (Int64.ofNat (S.listing.position l)) :: link :: (ws ++ s.fp :: rest) := by
    rw [h.stack]
    rfl
  have hcalls : CallsAt S.listing S.route
      { s with ip := place, stack := .word (S.listing.address l) :: s.stack, tm }
      (S.listing.position l) stop link ws rest :=
    ⟨⟨before, hbefore, hlast⟩, hstack, ⟨l, params, decls, body, hr, rfl, hlen.symm⟩, hleads,
      ends, source, hsite, hends, hlink.mono ⟨List.suffix_cons _ _, List.prefix_refl _⟩ rfl,
      hcomputed⟩
  have hsteps := (hl.steps hcode.left).trans (.single hcall (.call hcalls))
  rw [← h.stack] at hsteps
  exact ⟨_, hsteps⟩

/-- A call of the program ends behind its code. -/
theorem Coded.callEnds {e : Expr} {ty : Ty} {start : Nat} {lines : List Line}
    (h : Coded S Γ env start e ty lines)
    (hcall : ∀ Δ, ScopeFits S.program Δ env → S.Invokes ⟨Δ, start, e⟩) :
    S.CallEnds ty (start + Line.sizes lines) := by
  obtain ⟨Δ, hfits, hsite⟩ := h.placed.site
  exact ⟨_, hsite, by rw [Site.stop, h.code.sizes], hcall Δ hfits, h.typed⟩

/-- The place of the last store in the code of `new`. -/
theorem Setting.allocates {id : NodeId} {cls : String} {args : List Expr} {pos : Position}
    (hpart : Expr.new id cls args pos ∈ S.program.parts) {a : List Line} {n : Nat} {slot : Word}
    (hcode : CodeOf S.target (.new id cls args pos) (a ++ instrs (allocate n slot))) {start : Nat}
    (hhas : S.listing.Has start (a ++ instrs (allocate n slot))) :
    S.Allocates cls (start + Line.sizes a + 7 * n + 4) := by
  have hsplit : a ++ instrs (allocate n slot) =
      a ++ instrs ((List.replicate n moveToHeap).flatten ++
        [.push slot, .plain .load, .plain (.pushReg .hp)]) ++ lastStore := by
    simp [allocate, lastStore, instrs]
  rw [hsplit] at hcode hhas
  refine ⟨id, args, pos, _, start, hpart, hcode, hhas, ?_⟩
  rw [Line.sizes_append, instrs_append, Line.sizes_append, sizes_moves, Nat.add_assoc,
    Nat.add_assoc]
  rfl

/-- A new object at the end of the heap. -/
theorem Setting.StoreAt.allocated (h : S.StoreAt st s addresses) {cls : String} {vs : List Value}
    {ws : List Cell} (hvs : List.Forall₂ (Value.Kept addresses) vs ws) {table place : Nat}
    (htable : S.Table s.heap cls table) (hplace : S.Allocates cls place) {s' : Snapshot}
    (hheap : s'.heap = s.heap ++ ws.reverse ++ [.place (.heap table)]) {more : List (Nat × Nat)}
    (hstores : s'.stores = s.stores ++ more ++ [(place, (s.heap ++ ws.reverse).length)])
    (hout : s'.output = s.output) (hpending : s'.pending = none) (hclasses : S.ClassesAt s') :
    S.StoreAt { st with objects := st.objects ++ [⟨cls, vs⟩] } s'
      (addresses ++ [(s.heap ++ ws.reverse).length]) := by
  have hprefix : s.heap <+: s'.heap := by
    rw [hheap, List.append_assoc]
    exact List.prefix_append _ _
  have hstored : s.stores <+: s'.stores := by
    rw [hstores, List.append_assoc]
    exact List.prefix_append _ _
  have haddr : addresses <+: addresses ++ [(s.heap ++ ws.reverse).length] := List.prefix_append _ _
  have hlength : s'.heap.length = (s.heap ++ ws.reverse).length + 1 :=
    (congrArg List.length hheap).trans List.length_append
  have hold : ∀ a ∈ addresses, a < (s.heap ++ ws.reverse).length := by
    intro a ha
    have hlt := h.below a ha
    rw [List.length_append]
    omega
  refine ⟨by simp [h.count], ?_, ?_, ?_, ?_, hpending, hclasses⟩
  · refine List.pairwise_append.mpr ⟨h.increasing, List.pairwise_singleton _ _, ?_⟩
    intro a ha b hb
    rw [List.mem_singleton.mp hb]
    exact hold a ha
  · intro a ha
    rcases List.mem_append.mp ha with ha | ha
    · have hlt := hold a ha
      omega
    · rw [List.mem_singleton.mp ha]
      omega
  · intro i o a ho ha
    by_cases hi : i < st.objects.length
    · rw [List.getElem?_append_left hi] at ho
      rw [List.getElem?_append_left (h.count ▸ hi)] at ha
      exact (h.objects i o a ho ha).mono hprefix hstored haddr
    · rw [List.getElem?_append_right (Nat.not_lt.mp hi), List.getElem?_singleton] at ho
      rw [List.getElem?_append_right (h.count ▸ Nat.not_lt.mp hi), List.getElem?_singleton] at ha
      obtain ⟨-, ho⟩ := Option.ite_none_right_eq_some.mp ho
      obtain ⟨-, ha⟩ := Option.ite_none_right_eq_some.mp ha
      cases ho
      cases ha
      refine ⟨⟨table, by rw [hheap]; simp, htable.mono hprefix⟩, ?_, place,
        by simp [hstores], hplace⟩
      intro k v hv
      obtain ⟨w, hw, henc⟩ := forall₂_getElem? hvs hv
      have hk : k < ws.length := (List.getElem?_eq_some_iff.mp hw).1
      refine ⟨s.heap.length + (ws.length - 1 - k), w, ?_, ?_, henc.mono haddr⟩
      · rw [List.length_append, List.length_reverse]
        omega
      · rw [hheap, List.append_assoc, List.getElem?_append_right (Nat.le_add_right _ _),
          Nat.add_sub_cancel_left, List.getElem?_append_left (by rw [List.length_reverse]; omega),
          List.getElem?_reverse (by omega)]
        rw [← hw]
        congr 1
        omega
  · rw [hout]
    exact h.output.imp fun _ _ hv => hv.mono haddr

variable {depth : Nat} {call : Closure → List Value → Eval Value} {t : Ty}

/-- A call of a function, with the frame it sees on the stack. -/
theorem follows_function (hcall : CallFollows S depth call) {f : Closure} {args : List Value}
    {ret : WrittenType} {l : Label} {stop : Nat}
    (hlisting : ListingOf S.program S.target S.listing)
    (hroutine : S.Routine l f.env f.params f.decls f.body stop)
    (hbound : RoutineBound S.context.bindings Γ f.params f.decls f.body)
    (hdecls : S.context.DeclsTyped f.decls) (hbody : S.context.BodyTyped ret f.body)
    (hargs : ValuesTyped S.context st.objects args (f.params.map fun q => q.type.lower))
    (henv : EnvTyped S.program S.context st.objects Γ f.env)
    (hs : StoreTyped S.program S.context st.objects)
    (hat : EnvAt S s addresses frames lowest Γ f.env) (hst : S.StoreAt st s addresses)
    {ws rest : List Cell} (hws : List.Forall₂ (Value.Kept addresses) args ws)
    (hclasses : S.ClassesAt { s with stack := rest }) {e : Entry} (he : e.isMethod = false)
    (hl : s.Holds ((frames Γ.level).shift e.offset) (.word (S.listing.address l))) {back : Nat}
    (hends : S.CallEnds ret.lower back)
    (hlinked : S.Linked s (callAt e) back (.place (frames Γ.level)) ws rest) :
    Follows S depth ((call f args).run st) s (Returns S s addresses back s.fp rest s.calls) := by
  have hleads := hroutine.leads S hlisting hbody hends (.refl _ _)
  have hcode : callAt e = duplicate ++ [.push (Int64.ofInt e.offset), .plain (.arith .add)] ++
      [.plain .load, .plain .call] := by
    simp [callAt, he, loadAt]
  have hlen : f.params.length = ws.length := by
    rw [← hws.length_eq, List.Forall₂.length_eq hargs, List.length_map]
  rw [hcode] at hlinked
  obtain ⟨n, hsteps⟩ := hlinked.steps (straight_callAt hlinked.stack hl)
    (hroutine.until S hlisting) hleads hlen
  have hext := s.extends_called (S.listing.position l) (.place (frames Γ.level)) stop back rest
  exact .steps hsteps (hcall f args Γ ret st _ addresses frames lowest l ws
    ⟨s.made, stop, _, s.fp, rest⟩ s.calls hroutine hbound hdecls hbody henv hs hargs
    (hat.mono hext (List.prefix_refl _)) (hst.moved (hst.classes.mono hext)) hclasses rfl rfl rfl
    hlinked.stack hws)

variable (hS : S.Valid t)

include hS

/-- The code of a method, for the object that it is called on. -/
theorem Setting.Valid.routine_method (hs : StoreTyped S.program S.context st.objects) {self : Nat}
    {o : Object} (ho : st.objects[self]? = some o) {k : Implementation}
    (hb : S.context.ancestry.Below o.cls k.owner) {l : Layout}
    (hl : layout? S.classes k.owner = some l) {Δ : List Naming}
    (hscope : S.program.MethodScope k.owner Δ) {q : Label} (hq : S.program.MethodAt Δ k.decl q) :
    ∃ stop, S.Routine q [l.members self o.fields, classFrame S.classes] k.decl.params k.decl.decls
      k.decl.body stop := by
  obtain ⟨n, rfl, hn⟩ := hq
  obtain ⟨before, c, after, hsplit, hname, rfl⟩ := hscope
  have hlen : l.fields.length ≤ o.fields.length := by
    by_contra hlt
    have hfield := List.getElem?_eq_getElem (Nat.not_le.mp hlt)
    obtain ⟨v, hv, -⟩ := field_value hS.resolved hS.typed hs ho hb hl hfield
    simp at hv
  rw [← hname] at hl
  exact ⟨_, n, _, rfl, hn, .cons (hS.resolved.fits_members hS.ids hsplit hl self hlen)
    (.cons (Naming.fits_classes hS.ids) .nil), rfl⟩

/-- A method call finds the code of the method that the object answers with. -/
theorem follows_dispatch (hcall : CallFollows S depth call)
    (hs : StoreTyped S.program S.context st.objects) (hst : S.StoreAt st s addresses)
    {self a : Nat} {o : Object} (ho : st.objects[self]? = some o)
    (ha : addresses[self]? = some a) {owner : String} (hb : S.context.ancestry.Below o.cls owner)
    {l : Layout} (hl : layout? S.classes owner = some l) {j : Nat} {x : String}
    {m : Implementation} (hj : l.methods[j]? = some (x, m)) {args : List Value}
    (hargs : ValuesTyped S.context st.objects args m.decl.signature.params) {ws rest : List Cell}
    (hws : List.Forall₂ (Value.Kept addresses) args ws)
    (hclasses : S.ClassesAt { s with stack := rest }) {e : Entry} (he : e.offset = j) {back : Nat}
    (hends : S.CallEnds m.decl.signature.ret back)
    (hlinked : S.Linked s (callMethod e) back (.place (.heap a)) ws rest) :
    Follows S depth ((dispatch S.classes call self x args).run st) s
      (Returns S s addresses back s.fp rest s.calls) := by
  obtain ⟨lo, k, lk, hlo, hk, hnear, hlk, hbelow, hsig, hbound, hdecls, hbody⟩ :=
    answers hS.resolved hS.typed hs ho hb hl hj
  have hat := hst.objects self o a ho ha
  obtain ⟨table, htable, hmethods⟩ := hat.table
  obtain ⟨q, hq, Δ, hscope, hmethod⟩ := hmethods lo j x k hlo hk
  obtain ⟨stop, hroutine⟩ := hS.routine_method hs ho hbelow hlk hscope hmethod
  have hleads := hroutine.leads S hS.listing hbody hends hsig.ret
  have hslot : s.Holds (Place.shift (.heap table) e.offset) (.word (S.listing.address q)) :=
    Or.inr ⟨table + j, by rw [he]; rfl, hq⟩
  have hobject : s.Holds (.heap a) (.place (.heap table)) := Or.inr ⟨a, rfl, htable⟩
  have hparams := forall₂_params hargs hsig.params
  have hlen : k.decl.params.length = ws.length := by
    rw [← hws.length_eq, List.Forall₂.length_eq hparams]
    exact (List.length_map _).symm
  have hcode : S.Linked s (duplicate ++ [.plain .load, .push (Int64.ofInt e.offset),
      .plain (.arith .add)] ++ [.plain .load, .plain .call]) back (.place (.heap a)) ws rest :=
    hlinked
  obtain ⟨n, hsteps⟩ := hcode.steps (straight_callMethod hlinked.stack hobject hslot)
    (hroutine.until S hS.listing) hleads hlen
  have hext := s.extends_called (S.listing.position q) (.place (.heap a)) stop back rest
  have henv := envAt_members hS.resolved hS.typed hs ho ha hat hbelow hlk
  refine .steps hsteps ?_
  rw [run_dispatch ho hnear hlk]
  exact hcall ⟨k.decl.params, k.decl.decls, k.decl.body, _⟩ args (lk.frames S.classes) k.decl.ret st
    _ addresses (fun _ => .heap a) 1 q ws ⟨s.made, stop, _, s.fp, rest⟩ s.calls hroutine hbound
    hdecls hbody (envTyped_members hS.resolved hS.typed hs ho hbelow hlk) hs hparams
    (henv.mono hext (List.prefix_refl _)) (hst.moved (hst.classes.mono hext)) hclasses rfl rfl rfl
    hlinked.stack hws

variable (hsafe : InvokeSafe S.program S.context call)

include hsafe

/-- A call: the frame pointer, the arguments and then what is done with them, which
puts the word of a result in their place. -/
theorem follows_with_args {x : Expr} {args : List Expr}
    (h : ∀ a ∈ args, ExprFollows S depth call a) {ss : List Ty} {codes : List (List Line)}
    {source : LinkSource} {tail : List Instr} (hx : x ∈ S.program.parts)
    (htail : CallTail S.target x args source tail)
    (hb : Expr.ArgsBound S.context.bindings Γ args) (hf : S.context.Fits args ss)
    (hcodes : List.Forall₂ (CodeOf S.target) args codes)
    (hplaced : S.PlacedBackwards env (s.ip + 1) args)
    (hhas : S.listing.Has s.ip (callLines codes tail))
    (hr : Ready S st s addresses frames lowest Γ env) {k : List Value → Eval Value}
    (hk : ∀ vs st' s' addresses' ws, Ready S st' s' addresses' frames lowest Γ env →
      ValuesTyped S.context st'.objects vs ss → List.Forall₂ (Value.Kept addresses') vs ws →
      S.Prepared s' source tail (s.ip + Line.sizes (callLines codes tail)) ws s.stack →
      S.ClassesAt { s' with stack := s.stack } →
      Follows S depth ((k vs).run st') s' (Returns S s' addresses'
        (s.ip + Line.sizes (callLines codes tail)) s'.fp s.stack s'.calls)) :
    Follows S depth
      ((do k (← Expr.evalArgsBackwards S.classes call env args) : Eval Value).run st) s
      (Pushes S s addresses (s.ip + Line.sizes (callLines codes tail))) := by
  have hadv : Advanced S s addresses st
      { s with ip := s.ip + 1, stack := s.fp :: s.stack } addresses :=
    (Advanced.refl hr.store).settle hr.store.classes (List.suffix_cons _ _)
  have hr₁ := hr.advance (.refl hr.storeTyped) hadv
  have hlines := hhas
  rw [callLines] at hlines
  refine .steps (.single hlines.left.left (.pushReg .fp)) ?_
  refine ((follows_argsBackwards hS hsafe h hb hf hcodes hplaced hlines.left.right hr₁).and_safe
    (evalArgsBackwards_safe (fun a _ => exprSafe hS.resolved hS.typed hsafe a) hb hf hr₁.envTyped
      hr₁.storeTyped)).bind ?_
  rintro vs st₂ s₂ ⟨⟨hvs, hsound⟩, hip, hends, addresses₂, ws, hadv₂, hstack, hws⟩
  have hall := hadv.trans hadv₂
  have hone : Line.sizes (instrs [.plain (.pushReg .fp)]) = 1 := rfl
  replace hip : s₂.ip = s.ip + 1 + Line.sizes codes.reverse.flatten := hip
  have hend : s₂.ip + Line.sizes (instrs tail) = s.ip + Line.sizes (callLines codes tail) := by
    rw [hip, callLines, Line.sizes_append, Line.sizes_append, hone, ← Nat.add_assoc,
      ← Nat.add_assoc]
  have hcount : (argEnds (s.ip + 1) codes).length = ws.length := by
    rw [length_argEnds, ← hws.length_eq, List.Forall₂.length_eq hvs, hf.length_eq, hcodes.length_eq]
  have hplace : s.ip + Line.sizes (callLines codes tail) - 1 + 1 =
      s.ip + Line.sizes (callLines codes tail) := by
    omega
  have hstack₂ : s₂.stack = ws ++ s₂.fp :: s.stack := by rw [hstack, hall.fp]
  have hprepared : S.Prepared s₂ source tail (s.ip + Line.sizes (callLines codes tail)) ws
      s.stack := by
    refine ⟨?_, hstack₂, hend, s.ip + Line.sizes (callLines codes tail) - 1, _, hplace,
      ⟨x, args, codes, tail, s.ip, hx, htail, hcodes, hhas, hplace, rfl⟩, hcount,
      hstack₂ ▸ hends⟩
    have hright := hlines.right
    rwa [Line.sizes_append, hone, ← Nat.add_assoc, ← hip] at hright
  have hclasses : S.ClassesAt { s₂ with stack := s.stack } :=
    hr.store.classes.mono ⟨List.suffix_refl _, hall.heap⟩
  refine (hk vs st₂ s₂ addresses₂ ws (hr₁.advance hsound hadv₂) hvs hws hprepared hclasses).mono ?_
  rintro v st' s' ⟨hip', hfp, hcalls, hmarks, addresses', w, hstack', hheap, haddr, hst, hv⟩
  refine ⟨hip', addresses', w, ⟨hfp.trans hall.fp, hcalls.trans hall.calls,
    hall.marks.trans hmarks, ?_, hall.heap.trans hheap, hall.addresses.trans haddr, hst⟩,
    hstack', hv⟩
  rw [hstack']
  exact List.suffix_cons _ _

theorem follows_new (id : NodeId) (cls : String) {args : List Expr} (pos : Position)
    (h : ∀ a ∈ args, ExprFollows S depth call a) :
    ExprFollows S depth call (.new id cls args pos) := by
  intro Γ ty env st s addresses frames lowest lines hc hhas hr
  have hpart := hc.placed.mem_parts
  have hcode := hc.code
  obtain ⟨⟨⟨e, hreg, u, hu, -⟩, hb⟩, hty, hcode', hplaced⟩ := hc
  cases hty with
  | new hu₁ hshape hfits =>
    cases hcode' with
    | @new _ _ _ _ _ _ codes hu₂ hcodes =>
      obtain ⟨rfl, rfl⟩ : _ ∧ _ := by simpa using hu.symm.trans hu₁
      obtain ⟨rfl, rfl⟩ : _ ∧ _ := by simpa using hu.symm.trans hu₂
      obtain ⟨d, earlier, l, hfound, hl, rfl⟩ := hS.resolved.class_entry hreg
      obtain ⟨table, hslot, htable⟩ := hr.store.classes cls d earlier hfound
      unfold Expr.eval
      refine ((follows_args hS hsafe h hb hfits hcodes hplaced.new hhas.left hr).and_safe
        (evalArgs_safe (fun a _ => exprSafe hS.resolved hS.typed hsafe a) hb hfits hr.envTyped
          hr.storeTyped)).bind ?_
      rintro vs st₁ s₁ ⟨⟨hvs, hsound⟩, hip, addresses₁, ws, hadv, hstack, hws⟩
      have hlen : args.length = ws.reverse.length := by
        rw [List.length_reverse, ← hws.length_eq, List.Forall₂.length_eq hvs, hfits.length_eq]
      have hword : S.target.memorySize + Int64.ofInt (-2 - earlier.length) =
          Int64.ofInt (S.size + (-2 - earlier.length)) := by
        rw [Setting.target, ← Int64.ofInt_eq_ofNat, ← Int64.ofInt_add]
      simp only [hlen, hword] at hhas hcode ⊢
      have hplace := S.allocates hpart hcode hhas
      have hslot₁ : { s₁ with stack := s.stack }.Holds _ _ :=
        hslot.mono ⟨List.suffix_refl _, hadv.heap⟩
      obtain ⟨more, hmake⟩ := straight_allocate (K := S.route) (hip ▸ hhas.right) hstack
        hadv.store.pending hslot₁
      unfold instantiate
      rw [Eval.run_require_bind hl]
      split
      · refine .ok (hmake.steps (hip ▸ hhas.right)) ⟨?_,
          addresses₁ ++ [(s₁.heap ++ ws.reverse).length], _, ?_, rfl, ?_⟩
        · rw [hmake.ip, hip, Line.sizes_append, Nat.add_assoc]
        · have hheap : s.heap <+: s₁.heap ++ ws.reverse ++ [.place (.heap table)] := by
            rw [List.append_assoc]
            exact hadv.heap.trans (List.prefix_append _ _)
          refine ⟨hadv.fp, hadv.calls, hadv.marks, List.suffix_cons _ _, hheap,
            hadv.addresses.trans (List.prefix_append _ _), ?_⟩
          exact hadv.store.allocated hws (htable.mono hadv.heap) hplace rfl (by rw [hip]) rfl
            hadv.store.pending (hr.store.classes.mono ⟨List.suffix_cons _ _, hheap⟩)
        · refine ⟨_, ?_, rfl⟩
          rw [List.getElem?_append_right (Nat.le_of_eq hadv.store.count), hadv.store.count]
          simp
      · exact trivial

variable (hcall : CallFollows S depth call)

include hcall

theorem follows_call (id : NodeId) (callee : String) {args : List Expr} (pos : Position)
    (h : ∀ a ∈ args, ExprFollows S depth call a) :
    ExprFollows S depth call (.call id callee args pos) := by
  intro Γ ty env st s addresses frames lowest lines hc hhas hr
  have hcoded := hc
  obtain ⟨⟨⟨e, seen, hx, u, hu, hlevel⟩, hb⟩, hty, hcode, hplaced⟩ := hc
  cases hty with
  | call hu₁ hsig hfits =>
    cases hcode with
    | call hu₂ hcodes =>
      obtain ⟨rfl, rfl⟩ : _ ∧ _ := by simpa using hu.symm.trans hu₁
      obtain ⟨rfl, rfl⟩ : _ ∧ _ := by simpa using hu.symm.trans hu₂
      unfold Expr.eval
      refine follows_with_args hS hsafe h hplaced.mem_parts (.call hu₂) hb hfits hcodes
        hplaced.call hhas hr ?_
      intro vs st₁ s₁ addresses₁ ws hr₁ hvs hws hprepared hclasses
      have hr₂ := hr₁.pushed (s₁.ip + (1 + u.distance e)) (.place (frames e.level))
      obtain ⟨d, seen', hfind, hat, hseen⟩ := hr₂.env.items.find? hx
      obtain ⟨d', seen'', hfind', hd, hseen'⟩ := Nest.Agree.find? hr₂.envTyped hx
      obtain ⟨rfl, rfl⟩ : d = d' ∧ seen' = seen'' := by simpa using hfind.symm.trans hfind'
      simp only [callName, hfind]
      have hends : d.isValue = false → S.CallEnds _ _ := fun hd =>
        hcoded.callEnds fun Δ hfits => by
          have hselect := hfits.select? callee
          rw [hfind, Option.map_some, hd] at hselect
          exact Option.map_eq_some_iff.mp hselect
      cases d with
      | value v => exact trivial
      | cls => exact trivial
      | function params decls body =>
        obtain ⟨ret, htype, hbound, hdecls, hbody⟩ := hd
        obtain ⟨he, hlow, l, stop, hl, hroutine⟩ := hat
        rw [htype] at hsig
        cases hsig
        refine hprepared.returns (hr₁.straight_frame hx he hlow hlevel)
          ⟨_, _, hr₁.fp, hr₁.climbs hx he hlow hlevel, rfl⟩ fun hlinked => ?_
        exact follows_function hcall (f := ⟨params, decls, body, seen'⟩) hS.listing hroutine hbound
          hdecls hbody hvs hseen' hr₂.storeTyped (hr₂.env.seen hx hseen (he ▸ hlow)) hr₂.store hws
          hclasses (e := e) (by rw [Entry.isMethod, htype]; rfl) (he ▸ hl) (hends rfl)
          (he ▸ hlinked)
      | method self =>
        obtain ⟨o, owner, l, j, m, ho, hbelow, hl, hj, rfl⟩ := hd
        obtain ⟨he, hlow, a, ha, hframe⟩ := hat
        cases hsig
        refine hprepared.returns (hr₁.straight_frame hx he hlow hlevel)
          ⟨_, _, hr₁.fp, hr₁.climbs hx he hlow hlevel, rfl⟩ fun hlinked => ?_
        exact follows_dispatch hS hcall hr₂.storeTyped hr₂.store ho ha hbelow hl hj hvs hws hclasses
          (e := Layout.methodEntry j m) rfl (hends rfl) (hframe ▸ hlinked)

theorem follows_send (id : NodeId) (receiver method : String) {args : List Expr} (pos : Position)
    (h : ∀ a ∈ args, ExprFollows S depth call a) :
    ExprFollows S depth call (.send id receiver method args pos) := by
  intro Γ ty env st s addresses frames lowest lines hc hhas hr
  have hcoded := hc
  obtain ⟨⟨⟨e, seen, cls, m, hx, htype, hm, u, hu, hlevel, hue, hum⟩, hb⟩, hty, hcode,
    hplaced⟩ := hc
  cases hty with
  | send hu₁ hm₁ hsig hfits =>
    cases hcode with
    | send hu₂ hr₂ hm₂ hcodes =>
      obtain rfl : u = _ := Option.some.inj (hu.symm.trans hu₁)
      obtain rfl : u = _ := Option.some.inj (hu.symm.trans hu₂)
      obtain rfl : m = _ := Option.some.inj (hum.symm.trans hm₁)
      obtain rfl : m = _ := Option.some.inj (hum.symm.trans hm₂)
      obtain rfl : e = _ := Option.some.inj (hue.symm.trans hr₂)
      unfold Expr.eval
      refine follows_with_args hS hsafe h hplaced.mem_parts (.send hu₂ hr₂ hm₂) hb hfits hcodes
        hplaced.send hhas hr ?_
      intro vs st₁ s₁ addresses₁ ws hr₁ hvs hws hprepared hclasses
      obtain ⟨d, seen', hfind, hat, -⟩ := hr₁.env.items.find? hx
      obtain ⟨d', seen'', hfind', hd, -⟩ := Nest.Agree.find? hr₁.envTyped hx
      obtain ⟨rfl, rfl⟩ : d = d' ∧ seen' = seen'' := by simpa using hfind.symm.trans hfind'
      simp only [sendTo, hfind]
      cases d with
      | function params decls body => exact trivial
      | method self => exact trivial
      | cls => exact trivial
      | value v =>
        obtain ⟨he, hlow, w, hv, hw⟩ := hat
        have hload := (hr₁.straight_frame hx he hlow hlevel).append (straight_loadAt rfl hw)
        have hr₂ := hr₁.pushed (s₁.ip + (1 + u.receiver.distance e) + 4) w
        have hty : v.OfType S.context.ancestry st₁.objects (.ref cls) := htype ▸ hd
        cases v with
        | object self =>
          obtain ⟨o, ho, hbelow⟩ := hty
          obtain ⟨l, j, k, hl, hj, rfl⟩ :=
            sent_method hS.resolved hS.typed hr₁.storeTyped ho hbelow hm hsig
          obtain ⟨a, ha, rfl⟩ := hv
          cases hsig
          refine hprepared.returns hload ⟨_, _, hr₁.fp, hr₁.climbs hx he hlow hlevel, hw⟩
            fun hlinked => ?_
          exact follows_dispatch hS hcall hr₂.storeTyped hr₂.store ho ha hbelow hl hj hvs hws
            hclasses (e := Layout.methodEntry j k) rfl
            (hcoded.callEnds fun _ _ => ⟨u, _, hu, hum, rfl⟩) hlinked
        | word x =>
          obtain rfl : x = -1 := hty
          obtain rfl : w = .word (-1) := hv
          -- The code reads the dispatch table at the address of null.
          have htail := hprepared.code
          rw [instrs_append] at htail
          have hread := htail.right
          rw [← hload.ip, callMethod, List.append_assoc, List.append_assoc, instrs_append] at hread
          have hdup := straight_duplicate (L := S.listing) (M := S.size) (K := S.route)
            (s := { s₁ with ip := s₁.ip + (1 + u.receiver.distance e) + 4
                            stack := .word (-1) :: s₁.stack }) rfl
          refine Follows.steps ((hload.steps htail.left).trans (hdup.steps hread.left)) ?_
          have hlast := Listing.Has.left (a := instrs [.plain (.pushReg .tm), .plain .load])
            (b := instrs (loadAt m.offset ++ [.plain .call]))
            (Listing.Has.right (a := instrs [.plain (.popReg .tm), .plain (.pushReg .tm)]) hread)
          refine Setting.Reaches.here ⟨.plain .load, ?_, .null rfl rfl hlast⟩
          rw [hdup.ip]
          exact Listing.Has.left (a := [.instr (.plain .load)]) hread.right

end

end Classlet
