import Classlet.Proofs.Calls

/-!
The code of functions and methods. It makes a frame above the access link: the
return address first, then the local declarations, one word each. When it returns,
all of the frame and of the arguments is gone, and the word of the result stands in
their place. As the code of a call does at least one instruction before it calls
anything else, calls nest no deeper than the number of instructions.
-/

namespace Classlet

open Code

section

variable {S : Setting} {Γ : Nest Entry} {env : Env} {st : Store} {s : Snapshot}
  {addresses : List Nat} {frames : Nat → Place} {lowest : Nat}

/-- One more name in the innermost frame. -/
theorem Ready.declare {frame : List (String × Entry)} {outer : Nest Entry}
    (hr : Ready S st s addresses frames lowest (frame :: outer) env) {x : String} {e : Entry}
    {d : Denotation}
    (hd : d.OfEntry S.program S.context st.objects (((x, e) :: frame) :: outer) x e)
    (hat : d.At S s addresses frames lowest (((x, e) :: frame) :: outer) (env.declare x d) x e) :
    Ready S st s addresses frames lowest (((x, e) :: frame) :: outer) (env.declare x d) :=
  ⟨Nest.Agree.declare hr.envTyped hd, hr.storeTyped, hr.fp,
    ⟨hr.env.items.declare hat, hr.env.low, hr.env.links⟩, hr.store⟩

theorem Denotation.At.frames_congr {frames' : Nat → Place} {x : String} {e : Entry} {d : Denotation}
    (h : d.At S s addresses frames lowest Γ env x e) (hf : frames' Γ.level = frames Γ.level) :
    d.At S s addresses frames' lowest Γ env x e := by
  cases d with
  | value v =>
    obtain ⟨he, hlow, hw⟩ := h
    exact ⟨he, hlow, by rwa [he, hf, ← he]⟩
  | function params decls body =>
    obtain ⟨he, hlow, hl⟩ := h
    exact ⟨he, hlow, by rwa [he, hf, ← he]⟩
  | method self =>
    obtain ⟨he, hlow, ha⟩ := h
    exact ⟨he, hlow, by rwa [he, hf, ← he]⟩
  | cls => trivial

/-- The frame of a call: the arguments are above the access link. -/
theorem EnvAt.enter (h : EnvAt S s addresses frames lowest Γ env) {ws below : List Cell}
    (hs : s.stack = .place (frames Γ.level) :: (ws ++ below)) {params : List Binder}
    {args : List Value} (hlen : params.length = args.length)
    (hws : List.Forall₂ (Value.Kept addresses) args ws) :
    EnvAt S s addresses (Function.update frames Γ.length (.stack (-s.stack.length))) lowest
      (paramsOver Γ.length 1 params [] :: Γ) (paramFrame params args :: env) := by
  have hlow := h.low
  have hold : ∀ n, n < Γ.length →
      Function.update frames Γ.length (.stack (-s.stack.length)) n = frames n :=
    fun n hn => Function.update_of_ne (Nat.ne_of_lt hn) _ _
  refine ⟨.cons ?_ ?_, Nat.lt_succ_of_lt hlow, ?_⟩
  · have hparams : ∀ (n : Nat) (q : Binder) v, params[n]? = some q → args[n]? = some v →
        ∀ frame frame', Denotation.At S s addresses
          (Function.update frames Γ.length (.stack (-s.stack.length))) lowest (frame :: Γ)
          (frame' :: env) q.name ⟨Γ.length, q.type.lower, (1 + n : Nat)⟩ (.value v) := by
      intro n q v _ hv frame frame'
      obtain ⟨w, hw, henc⟩ := forall₂_getElem? hws hv
      refine ⟨rfl, Nat.le_of_lt hlow, w, henc, ?_⟩
      have hplace : Place.shift (.stack (-s.stack.length)) (1 + n : Nat) =
          .stack ((n + 1 : Nat) - s.stack.length) := by
        rw [Place.shift]
        congr 1
        omega
      rw [Function.update_self, hplace]
      apply Snapshot.holds_of_stack
      rw [hs, List.getElem?_cons_succ,
        List.getElem?_append_left (List.getElem?_eq_some_iff.mp hw).1, hw]
    simpa [paramFrame] using frameAgree_params Γ.length params 1 args [] [] hlen hparams .nil
  · refine h.items.mono_within fun Γ' _ x e d hpos hle hd => hd.frames_congr (hold _ ?_)
    have hlevel : Γ'.level = Γ'.length - 1 := rfl
    omega
  · intro n hn hn'
    rw [List.length_cons] at hn'
    by_cases hlast : n = Γ.length
    · subst hlast
      rw [Function.update_self, hold (Γ.length - 1) (by omega)]
      have hlink := Snapshot.holds_of_stack (s := s) (i := 0) (by rw [hs]; rfl)
      rwa [Int.natCast_zero, Int.zero_sub] at hlink
    · rw [hold n (by omega), hold (n - 1) (by omega)]
      exact h.links n hn (by omega)

/-- The snapshot after the first two instructions of a function. -/
def Snapshot.entered (s : Snapshot) : Snapshot :=
  { s with
    ip := s.ip + 2, fp := .place (.stack (-s.stack.length)), stack := .word s.ra :: s.stack }

/-- The machine is ready for the local declarations of a function. -/
theorem Setting.StoreAt.entered (h : S.StoreAt st s addresses)
    (henv : EnvTyped S.program S.context st.objects Γ env)
    (hs : StoreTyped S.program S.context st.objects) {params : List Binder} {args : List Value}
    (hargs : ValuesTyped S.context st.objects args (params.map fun q => q.type.lower))
    (hat : EnvAt S s addresses frames lowest Γ env) {ws below : List Cell}
    (hstack : s.stack = .place (frames Γ.level) :: (ws ++ below))
    (hws : List.Forall₂ (Value.Kept addresses) args ws) :
    Ready S st s.entered addresses
      (Function.update frames Γ.length (.stack (-s.stack.length))) lowest
      (paramsOver Γ.length 1 params [] :: Γ) (paramFrame params args :: env) := by
  have hlen : params.length = args.length := by
    simpa using (List.Forall₂.length_eq hargs).symm
  have hext : s.Extends s.entered := ⟨List.suffix_cons _ _, List.prefix_refl _⟩
  refine ⟨envTyped_params henv hargs, hs, ?_,
    (hat.enter hstack hlen hws).mono hext (List.prefix_refl _), h.moved (h.classes.mono hext)⟩
  have hlevel : Nest.level (paramsOver Γ.length 1 params [] :: Γ) = Γ.length := rfl
  rw [hlevel, Function.update_self]
  rfl

/-- Declarations of the program behind others of their frame, whose code begins at a place. -/
structure Setting.Declares (S : Setting) (Δ : List Naming) (before : List (String × NodeId))
    (ds : List Decl) (start : Nat) : Prop where
  distinct : (before.map Prod.fst ++ ds.map Decl.name).Nodup
  kinds : ∀ d ∈ ds, S.program.isValue d.id = d.valueId?.isSome
  roots : Decl.roots S.target Δ before ds start ⊆ S.program.roots S.target

namespace Setting.Declares

variable {Δ : List Naming} {before : List (String × NodeId)} {d : Decl} {ds : List Decl}
  {start : Nat}

theorem fresh (h : S.Declares Δ before (d :: ds) start) : d.name ∉ before.map Prod.fst :=
  fun hin => (List.nodup_append.mp h.distinct).2.2 _ hin d.name List.mem_cons_self rfl

theorem tail (h : S.Declares Δ before (d :: ds) start) {next : Nat}
    (hroots : Decl.roots S.target Δ (before ++ [d.named]) ds next ⊆
      Decl.roots S.target Δ before (d :: ds) start) :
    S.Declares Δ (before ++ [d.named]) ds next := by
  refine ⟨?_, fun d' hd' => h.kinds d' (List.mem_cons_of_mem _ hd'),
    List.Subset.trans hroots h.roots⟩
  simpa [Decl.named] using h.distinct

end Setting.Declares

/-- One more declaration in the innermost frame. -/
theorem ScopeFits.declare {p : Program} {Δ : List Naming} {before : List (String × NodeId)}
    (h : ScopeFits p (.ofList before :: Δ) env) {d : Decl} (hx : d.name ∉ before.map Prod.fst)
    {v : Denotation} (hv : p.isValue d.id = v.isValue) :
    ScopeFits p (.ofList (before ++ [d.named]) :: Δ) (env.declare d.name v) := by
  cases h with
  | cons hframe houter => exact .cons (hframe.snoc hx hv) houter

/-- The declarations of a function or method. -/
theorem Setting.declares_block (hn : S.program.ids.Nodup) {k : Nat} {b : Block}
    (hk : S.program.blocks[k]? = some b)
    (hdistinct : (b.params.map Binder.name ++ b.decls.map Decl.name).Nodup) :
    S.Declares b.scope (b.params.map Binder.named) b.decls
      (S.program.blockStart S.target k + 2) := by
  have hb := List.mem_of_getElem? hk
  refine ⟨?_, fun d hd => ?_, ?_⟩
  · simpa [Binder.named, Function.comp_def] using hdistinct
  · cases d with
    | var id x type init pos =>
      refine Program.isValue_of_mem (List.mem_append_right _ (List.mem_append_left _ ?_))
      exact List.mem_flatMap.mpr ⟨b, hb, List.mem_append_right _
        (List.mem_filterMap.mpr ⟨_, hd, rfl⟩)⟩
    | fn id f params ret decls body pos =>
      refine Program.isValue_of_nonValue hn (List.mem_append_right _ (List.mem_append_left _ ?_))
      exact List.mem_flatMap.mpr ⟨b, hb, List.mem_filterMap.mpr ⟨_, hd, rfl⟩⟩
  · exact List.Subset.trans (List.subset_append_left _ _) (Program.roots_of_block hk)

/-- The frame of a call has the names of the parameters. -/
theorem ScopeFits.enter {p : Program} {b : Block} (h : ScopeFits p b.scope env) (hb : b ∈ p.blocks)
    (hdistinct : (b.params.map Binder.name).Nodup) {args : List Value}
    (hlen : b.params.length = args.length) :
    ScopeFits p (.ofList (b.params.map Binder.named) :: b.scope)
      (paramFrame b.params args :: env) := by
  refine .cons (Naming.fits_params (fun q hq => ?_) hdistinct hlen) h
  refine Program.isValue_of_mem (List.mem_append_right _ (List.mem_append_left _ ?_))
  exact List.mem_flatMap.mpr ⟨b, hb, List.mem_append_left _ (List.mem_map_of_mem hq)⟩

variable {depth : Nat} {call : Closure → List Value → Eval Value} {t : Ty} (hS : S.Valid t)
  (hsafe : InvokeSafe S.program S.context call) (hcall : CallFollows S depth call)

include hS hsafe hcall

/-- The machine follows the evaluation of every expression, if it follows calls. -/
theorem exprFollows (e : Expr) : ExprFollows S depth call e := by
  induction e with
  | lit value pos => exact follows_lit value pos
  | name id x pos => exact follows_name id x pos
  | binary op left right pos ihl ihr => exact follows_binary hS hsafe op pos ihl ihr
  | not operand pos ih => exact follows_not hS hsafe pos ih
  | cond test yes no pos iht ihy ihn => exact follows_cond hS hsafe pos iht ihy ihn
  | print operand pos ih => exact follows_print hS hsafe pos ih
  | call id callee args pos ih => exact follows_call hS hsafe hcall id callee pos ih
  | send id receiver method args pos ih =>
    exact follows_send hS hsafe hcall id receiver method pos ih
  | new id cls args pos ih => exact follows_new hS hsafe id cls pos ih

/-- Declarations push one word each, at the place that their entry says. -/
theorem follows_evalAll {Δ : List Naming} (ds : List Decl) :
    ∀ (before : List (String × NodeId)) (frame : List (String × Entry)) (outer : Nest Entry)
      (k : Nat) (env : Env) (st : Store) (s : Snapshot) (addresses : List Nat) (lines : List Line),
      Decl.AllBound S.context.bindings ds frame outer k → S.context.DeclsTyped ds →
      S.Declares Δ before ds s.ip → DeclsAt S.program S.target Δ before ds lines →
      S.listing.Has s.ip lines → ScopeFits S.program (.ofList before :: Δ) env →
      Ready S st s addresses frames lowest (frame :: outer) env →
      (ds ≠ [] → frames outer.length = .stack (k + 1 - s.stack.length)) →
      Follows S depth ((Decl.evalAll S.classes call ds env).run st) s fun env' st' s' =>
        s'.ip = s.ip + Line.sizes lines ∧
        ScopeFits S.program (.ofList (before ++ ds.map Decl.named) :: Δ) env' ∧
        ∃ addresses' locals, locals.length = ds.length ∧
          s'.stack = locals ++ s.stack ∧ Advanced S s addresses st' s' addresses' ∧
          Ready S st' s' addresses' frames lowest (declsOver outer.length k ds frame :: outer)
            env' := by
  induction ds with
  | nil =>
    intro before frame outer k env st s addresses lines _ _ _ hcode _ hfits hr _
    cases hcode
    refine .ok (.refl s) ⟨rfl, ?_, addresses, [], rfl, rfl, .refl hr.store, hr⟩
    rwa [List.map_nil, List.append_nil]
  | cons d ds ih =>
    intro before frame outer k env st s addresses lines hb hty hplaced hcode hhas hfits hr hplace
    have hlow : lowest ≤ outer.length := Nat.le_of_lt_succ hr.env.low
    have hframe := hplace (List.cons_ne_nil _ _)
    have hkind := hplaced.kinds d List.mem_cons_self
    -- The place of a word that is pushed next.
    have hslot : ∀ (w : Cell) (s' : Snapshot), s'.stack = w :: s.stack →
        s'.Holds ((frames outer.length).shift (-2 - k)) w := by
      intro w s' hs'
      refine Or.inl ⟨[], s.stack, hs', ?_⟩
      rw [hframe, Place.shift]
      congr 1
      omega
    have hnames : before ++ (d :: ds).map Decl.named =
        before ++ [d.named] ++ ds.map Decl.named := by
      rw [List.map_cons, List.append_cons]
    rw [hnames]
    cases hcode with
    | @var _ id x type init pos _ a rest hinit hds =>
      obtain ⟨u, htinit, hsub⟩ := hty.1
      have hroot := Program.inner_subset (hplaced.roots List.mem_cons_self)
      unfold Decl.evalAll
      refine ((exprFollows hS hsafe hcall init).evaluates hS hsafe
        ⟨hb.1, htinit, hinit, _, hfits, hroot⟩ hhas.left hr).bind ?_
      rintro v st₁ s₁ ⟨⟨hv, hsound⟩, hip, addresses₁, w, hadv, hstack, hw⟩
      have hr₁ := (hr.advance hsound hadv).declare
        (x := x) (e := (Decl.var id x type init pos).entry outer.length k) (d := .value v)
        (Ty.embeds_of_subtypeOf hsub _ _ hv) ⟨rfl, hlow, w, hw, hslot w s₁ hstack⟩
      have htail : S.Declares Δ (before ++ [(x, id)]) ds s₁.ip := by
        rw [hip, hinit.sizes]
        exact hplaced.tail (List.subset_cons_self _ _)
      refine (ih _ _ outer (k + 1) _ st₁ s₁ addresses₁ rest hb.2 hty.2 htail hds
        (hip ▸ hhas.right) (hfits.declare (v := .value v) hplaced.fresh hkind) hr₁
        (fun _ => by rw [hframe, hstack, List.length_cons]; congr 1; omega)).mono ?_
      rintro env' st' s' ⟨hip', hfits', addresses', locals, hlen, hstack', hadv', hr'⟩
      refine ⟨?_, hfits', addresses', locals ++ [w], by simp [hlen], ?_, hadv.trans hadv', hr'⟩
      · rw [hip', hip, Line.sizes_append, Nat.add_assoc]
      · rw [hstack', hstack]
        simp
    | @fn _ id f params ret decls body pos _ n rest hn hds =>
      have hfits₁ := hfits.declare (v := .function params decls body) hplaced.fresh hkind
      have htail : S.Declares Δ (before ++ [(f, id)]) ds (s.ip + 2) := hplaced.tail fun _ hr => hr
      unfold Decl.evalAll
      have hstack : Steps S.listing S.size S.route 1 s
          { s with
            ip := s.ip + 2, stack := .word (S.listing.address (.function n)) :: s.stack } :=
        .single hhas.left (.pushLabel (.function n))
      have hr₁ := (hr.pushed (s.ip + 2) (.word (S.listing.address (.function n)))).declare
        (x := f) (e := (Decl.fn id f params ret decls body pos).entry outer.length k)
        (d := .function params decls body)
        ⟨ret, rfl, (Decl.bound_fn _ _ _ _ _ _ _ _ _ _ _).mp hb.1, hty.1⟩
        ⟨rfl, hlow, .function n, _, hslot _ _ rfl, n, _, rfl, hn, hfits₁, rfl⟩
      refine .steps hstack ((ih _ _ outer (k + 1) _ st _ addresses rest hb.2 hty.2
        htail hds hhas.right hfits₁ hr₁
        (fun _ => by rw [hframe, List.length_cons]; congr 1; omega)).mono ?_)
      rintro env' st' s' ⟨hip', hfits', addresses', locals, hlen, hstack', hadv', hr'⟩
      refine ⟨?_, hfits', addresses', locals ++ [.word (S.listing.address (.function n))],
        by simp [hlen], ?_, ?_, hr'⟩
      · rw [hip', Line.sizes_append, ← Nat.add_assoc]
        rfl
      · rw [hstack']
        simp
      · exact ⟨hadv'.fp, hadv'.calls, hadv'.marks, (List.suffix_cons _ _).trans hadv'.stack,
          hadv'.heap, hadv'.addresses, hadv'.store⟩

/-- The machine follows a call from the beginning of the code on, if it follows the
calls in it. -/
theorem follows_enter : CallFollows S (depth + 1) (Closure.enter S.classes call) := by
  intro f args Γ ret st s addresses frames lowest l ws a calls hroutine hbound hdecls hbody henv
    hs hargs hat hst hclasses hcalls hip hra hstack hws
  obtain ⟨params, decls, body, env⟩ := f
  obtain ⟨n, Δ, rfl, hn, hfits, hstop⟩ := hroutine
  obtain ⟨hposition, ds, bs, hds, hbs, hlines⟩ := hS.listing.block hn
  obtain ⟨ty, hty, hsub⟩ := hbody
  have hlen : params.length = args.length := by
    simpa using (List.Forall₂.length_eq hargs).symm
  have hblock := S.declares_block hS.ids hn hbound.2.2
  have hbodyRoot := Program.roots_of_block (t := S.target) hn
    (List.mem_append_right _ (List.mem_singleton_self _))
  rw [← hposition, ← hip] at hlines hstop hblock hbodyRoot
  rw [routineLines] at hlines
  have hstart : Straight S.listing S.size S.route [.plain .setFrame, .plain (.pushReg .ra)] s
      s.entered := ⟨_, .setFrame, rfl, _, .pushReg .ra, rfl, rfl⟩
  suffices hinner : Follows S depth ((Closure.enter S.classes call ⟨params, decls, body, env⟩
      args).run st) s.entered (Returns S s addresses a.back a.fp a.rest calls) from
    (hinner.after (hstart.steps hlines.left.left.left)).weaken (by
      rw [List.length_cons, List.length_singleton]
      omega)
  have hr := hst.entered henv hs hargs hat hstack hws
  have hparams := ScopeFits.enter (b := ⟨Δ, params, decls, body⟩) hfits (List.mem_of_getElem? hn)
    (List.nodup_append.mp hbound.2.2).1 hlen
  unfold Closure.enter
  rw [if_pos hlen]
  refine (follows_evalAll hS hsafe hcall decls _ _ Γ 0 _ st _ addresses ds hbound.1 hdecls hblock
    hds hlines.left.left.right hparams hr ?_).bind ?_
  · intro _
    rw [Function.update_self]
    simp only [Snapshot.entered, List.length_cons]
    congr 1
    omega
  rintro env' st₁ s₁ ⟨hip₁, hfits₁, addresses₁, locals, hlocals, hstack₁, hadv₁, hr₁⟩
  have hend₁ : s₁.ip = s.ip + Line.sizes
      (instrs [.plain .setFrame, .plain (.pushReg .ra)] ++ ds) := by
    rw [hip₁, hstart.ip, Line.sizes_append, Nat.add_assoc]
  have hplaced : S.Placed env' s₁.ip body := by
    refine ⟨_, hfits₁, ?_⟩
    rw [hip₁, hds.sizes]
    exact Program.inner_subset hbodyRoot
  refine Follows.finish (exprFollows hS hsafe hcall body _ ty env' st₁ s₁ addresses₁ _ lowest bs
    ⟨hbound.2.1, hty, hbs, hplaced⟩ (hend₁ ▸ hlines.left.right) hr₁) ?_
  rintro v st₂ s₂ ⟨hip₂, addresses₂, w, hadv₂, hstack₂, hv⟩
  have hend₂ : s₂.ip = a.stop := by
    rw [hstop, Block.bodyWidth, hip₂, hip₁, hds.sizes, hbs.sizes, ← Nat.add_assoc, ← Nat.add_assoc]
    rfl
  have hframe : s₂.stack = w :: (locals ++ .word (Int64.ofNat a.back) ::
      .place (frames Γ.level) :: (ws ++ a.fp :: a.rest)) := by
    rw [hstack₂, hstack₁, ← hra, ← hstack]
    rfl
  have hall := hadv₁.trans hadv₂
  have hreturn := hlines.right
  have hcount : params.length = ws.length := hlen.trans hws.length_eq
  rw [Line.sizes_append _ bs, ← Nat.add_assoc, ← hend₁, ← hip₂, ← hlocals, hcount] at hreturn
  obtain ⟨n, ra, hsteps⟩ := steps_returnCode (M := S.size) (K := S.route) hreturn
    (hall.calls.trans hcalls) hend₂ hframe
  have hheap : s.heap <+: s₂.heap := hall.heap
  exact ⟨n, _, hsteps, rfl, rfl, rfl, hall.marks.trans (List.prefix_append _ _), addresses₂, w, rfl,
    hheap, hall.addresses, hadv₂.store.moved (hclasses.mono ⟨List.suffix_cons _ _, hheap⟩), hv⟩

omit hsafe hcall in
/-- The machine follows calls at every depth. -/
theorem follows_invoke (depth : Nat) : CallFollows S depth (invoke S.classes depth) := by
  induction depth with
  | zero =>
    intro f args Γ ret st s addresses frames lowest l ws a calls
    intros
    exact Setting.Reaches.here (Nat.zero_le 0)
  | succ depth ih =>
    exact follows_enter hS (invoke_safe hS.resolved hS.typed depth) ih

end

end Classlet
