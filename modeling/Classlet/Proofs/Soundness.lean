import Classlet.Proofs.Conformance

/-!
Type soundness of evaluation. In a program without a fault every expression
evaluates to a value of its type, whatever the depth of calls: it may run into a
division or a call on null, but there is always a rule to go on by. The proof is
over the expressions, for any way to call functions that is sound itself, and then
over the depth of calls.
-/

namespace Classlet

namespace Eval

variable {α β : Type}

theorem Safe.mono {r : Except Abort α} {P Q : α → Prop} (h : Safe r P) (hPQ : ∀ a, P a → Q a) :
    Safe r Q := by
  cases r with
  | ok a => exact hPQ a h
  | error e => cases e <;> exact h

theorem Safe.bind {m : Eval α} {f : α → Eval β} {st : Store} {P : α × Store → Prop}
    {Q : β × Store → Prop} (hm : Safe (m.run st) P)
    (hf : ∀ a st', P (a, st') → Safe ((f a).run st') Q) : Safe ((m >>= f).run st) Q := by
  rw [StateT.run_bind]
  rcases hr : m.run st with e | ⟨a, st'⟩
  · rw [hr] at hm
    cases e <;> exact hm
  · rw [hr] at hm
    exact hf a st' hm

theorem run_require_bind {o : Option α} {a : α} (h : o = some a) (f : α → Eval β) (st : Store) :
    (require o >>= f).run st = (f a).run st := by
  rw [h]
  rfl

end Eval

/-- A method call on an object calls the method that its class answers with. -/
theorem run_dispatch {classes : List ClassDecl} {call : Closure → List Value → Eval Value}
    {st : Store} {self : ObjectId} {o : Object} {x : String} {k : Implementation} {l : Layout}
    (ho : st.objects[self]? = some o) (hk : nearest? classes o.cls x = some k)
    (hl : layout? classes k.owner = some l) (args : List Value) :
    (dispatch classes call self x args).run st =
      (call ⟨k.decl.params, k.decl.decls, k.decl.body,
        [l.members self o.fields, classFrame classes]⟩ args).run st := by
  unfold dispatch
  rw [StateT.run_bind, StateT.run_get, pure_bind]
  rw [Eval.run_require_bind ho, Eval.run_require_bind hk, Eval.run_require_bind hl]

/-- What a name stands for is what its entry says. -/
def Denotation.OfEntry (p : Program) (c : TypingContext) (objects : List Object) (Γ : Nest Entry)
    (x : String) (e : Entry) : Denotation → Prop
  | .value v => v.OfType c.ancestry objects e.type
  | .function params decls body => ∃ ret, e.type = .arrow (signatureOf params ret) ∧
      RoutineBound c.bindings Γ params decls body ∧ c.DeclsTyped decls ∧ c.BodyTyped ret body
  | .method self => ∃ o owner l j m, objects[self]? = some o ∧ c.ancestry.Below o.cls owner ∧
      layout? p.classes.reverse owner = some l ∧ l.methods[j]? = some (x, m) ∧
      e = Layout.methodEntry j m
  | .cls => ∃ s : ClassShape, e.type = s.toTy

/-- The frames of an evaluation are what the entries say. -/
def EnvTyped (p : Program) (c : TypingContext) (objects : List Object) : Nest Entry → Env → Prop :=
  Nest.Agree fun Γ _ => Denotation.OfEntry p c objects Γ

/-- The values have the types, one by one. -/
def ValuesTyped (c : TypingContext) (objects : List Object) : List Value → List Ty → Prop :=
  List.Forall₂ fun v s => v.OfType c.ancestry objects s

/-- Every object has the fields of its class. -/
def StoreTyped (p : Program) (c : TypingContext) (objects : List Object) : Prop :=
  ∀ (i : Nat) (o : Object), objects[i]? = some o → ∃ l, layout? p.classes.reverse o.cls = some l ∧
    ValuesTyped c objects o.fields (l.fields.map Prod.snd)

/-- An evaluation that started with `objects` and ended well. -/
structure Sound (p : Program) (c : TypingContext) (objects : List Object) (st : Store) : Prop where
  grows : objects <+: st.objects
  store : StoreTyped p c st.objects

section

variable {p : Program} {c : TypingContext} {objects objects' : List Object}

theorem Denotation.OfEntry.mono {Γ : Nest Entry} {x : String} {e : Entry} {d : Denotation}
    (hd : d.OfEntry p c objects Γ x e) (hp : objects <+: objects') :
    d.OfEntry p c objects' Γ x e := by
  cases d with
  | value v => exact Value.OfType.mono hd hp
  | function params decls body => exact hd
  | method self =>
    obtain ⟨o, owner, l, j, m, ho, hrest⟩ := hd
    exact ⟨o, owner, l, j, m, getElem?_of_prefix hp ho, hrest⟩
  | cls => exact hd

theorem EnvTyped.mono {Γ : Nest Entry} {env : Env} (h : EnvTyped p c objects Γ env)
    (hp : objects <+: objects') : EnvTyped p c objects' Γ env :=
  Nest.Agree.mono h fun _ _ _ _ _ hd => hd.mono hp

theorem Sound.refl {st : Store} (h : StoreTyped p c st.objects) : Sound p c st.objects st :=
  ⟨List.prefix_refl _, h⟩

theorem Sound.trans {st st' : Store} (h : Sound p c objects st) (h' : Sound p c st.objects st') :
    Sound p c objects st' := ⟨h.grows.trans h'.grows, h'.store⟩

theorem ValuesTyped.mono {vs : List Value} {ss : List Ty} (h : ValuesTyped c objects vs ss)
    (hp : objects <+: objects') : ValuesTyped c objects' vs ss :=
  List.Forall₂.imp (fun _ _ hv => Value.OfType.mono hv hp) h

end

/-- There are no values of function types and method types. -/
theorem not_ofType_of_signature {h : Ancestry} {objects : List Object} {v : Value} {s : Ty}
    {sig : Signature Ty} (hs : s.signature? = some sig) : ¬ v.OfType h objects s := by
  intro hv
  cases s <;> cases v <;> first | cases hs; exact hv | cases hs

/-- A way to call functions that gives results of the type they declare. -/
def InvokeSafe (p : Program) (c : TypingContext) (call : Closure → List Value → Eval Value) :
    Prop :=
  ∀ (f : Closure) (args : List Value) (Γ : Nest Entry) (ret : WrittenType) (st : Store),
    RoutineBound c.bindings Γ f.params f.decls f.body → c.DeclsTyped f.decls →
    c.BodyTyped ret f.body → EnvTyped p c st.objects Γ f.env → StoreTyped p c st.objects →
    ValuesTyped c st.objects args (f.params.map fun q => q.type.lower) →
    Eval.Safe ((call f args).run st) fun r =>
      r.1.OfType c.ancestry r.2.objects ret.lower ∧ Sound p c st.objects r.2

/-! Frames that are built from the members of a class or from parameters agree if
what they have one by one does. -/

section

variable {R : Nest Entry → Env → String → Entry → Denotation → Prop} {outer : Nest Entry}
  {outer' : Env}

theorem frameAgree_classes
    (hR : ∀ frame frame' x (e : Entry), (∃ s : ClassShape, e.type = s.toTy) →
      R [frame] [frame'] x e .cls)
    (classes : List ClassDecl) :
    Nest.FrameAgree R [] [] (classScope classes) (classFrame classes) := by
  induction classes with
  | nil => exact .nil
  | cons d earlier ih => exact .cons (hR _ _ _ _ ⟨_, rfl⟩) ih

theorem frameAgree_methods {self : ObjectId} (ms : List (String × Implementation)) :
    ∀ j, (∀ (n : Nat) x m, ms[n]? = some (x, m) →
        ∀ frame frame', R (frame :: outer) (frame' :: outer') x (Layout.methodEntry (j + n) m)
          (.method self)) →
      Nest.FrameAgree R outer outer' (entriesFrom Layout.methodEntry j ms)
        (ms.map fun m => (m.1, Denotation.method self)) := by
  induction ms with
  | nil => intro j _; exact .nil
  | cons m ms ih =>
    intro j h
    refine .cons (h 0 m.1 m.2 rfl _ _) (ih (j + 1) fun n x k hn => ?_)
    rw [Nat.add_assoc, Nat.add_comm 1 n]
    exact h (n + 1) x k hn

theorem frameAgree_fields {rest : List (String × Entry)} {rest' : List (String × Denotation)}
    (hrest : Nest.FrameAgree R outer outer' rest rest') (fs : List (String × Ty)) :
    ∀ (vs : List Value) (i : Nat),
      (∀ (n : Nat) x s, fs[n]? = some (x, s) → ∃ v, vs[n]? = some v ∧
        ∀ frame frame', R (frame :: outer) (frame' :: outer') x (Layout.fieldEntry (i + n) s)
          (.value v)) →
      Nest.FrameAgree R outer outer' (entriesFrom Layout.fieldEntry i fs ++ rest)
        ((fs.zip vs).map (fun (f, v) => (f.1, Denotation.value v)) ++ rest') := by
  induction fs with
  | nil => intro vs i _; simpa [entriesFrom] using hrest
  | cons f fs ih =>
    intro vs i h
    obtain ⟨v, hv, hR⟩ := h 0 f.1 f.2 rfl
    cases vs with
    | nil => simp at hv
    | cons w vs =>
      obtain rfl : w = v := by simpa using hv
      refine .cons (hR _ _) (ih vs (i + 1) fun n x s hn => ?_)
      rw [Nat.add_assoc, Nat.add_comm 1 n]
      exact h (n + 1) x s hn

theorem frameAgree_params (level : Nat) (params : List Binder) :
    ∀ (i : Nat) (args : List Value) (frame : List (String × Entry))
      (frame' : List (String × Denotation)), params.length = args.length →
      (∀ (n : Nat) (q : Binder) v, params[n]? = some q → args[n]? = some v → ∀ frame frame',
        R (frame :: outer) (frame' :: outer') q.name ⟨level, q.type.lower, (i + n : Nat)⟩
          (.value v)) →
      Nest.FrameAgree R outer outer' frame frame' →
      Nest.FrameAgree R outer outer' (paramsOver level i params frame)
        (((params.zip args).map fun (q, v) => (q.name, Denotation.value v)).reverse ++ frame') := by
  induction params with
  | nil =>
    intro i args frame frame' _ _ h
    simpa [paramsOver] using h
  | cons q params ih =>
    intro i args frame frame' hlen hargs h
    cases args with
    | nil => cases hlen
    | cons v args =>
      have hframe : Nest.FrameAgree R outer outer'
          ((q.name, ⟨level, q.type.lower, (i : Nat)⟩) :: frame) ((q.name, .value v) :: frame') :=
        .cons (hargs 0 q v rfl rfl _ _) h
      have hrest := ih (i + 1) args _ _ (Nat.succ.inj hlen) (fun n q' v' hn hn' => by
        rw [Nat.add_assoc, Nat.add_comm 1 n]
        exact hargs (n + 1) q' v' hn hn') hframe
      simpa [paramsOver] using hrest

end

/-- The frame of a call has arguments of the types that the parameters declare. -/
theorem envTyped_params {p : Program} {c : TypingContext} {objects : List Object} {Γ : Nest Entry}
    {env : Env} (henv : EnvTyped p c objects Γ env) {params : List Binder} {args : List Value}
    (hargs : ValuesTyped c objects args (params.map fun q => q.type.lower)) :
    EnvTyped p c objects (paramsOver Γ.length 1 params [] :: Γ)
      (paramFrame params args :: env) := by
  refine .cons ?_ henv
  have hlen : params.length = args.length := by
    simpa using (List.Forall₂.length_eq hargs).symm
  have hparams : ∀ (n : Nat) (q : Binder) v, params[n]? = some q → args[n]? = some v →
      v.OfType c.ancestry objects q.type.lower := by
    intro n q v hq hv
    obtain ⟨s, hs, hty⟩ := forall₂_getElem? hargs hv
    rw [List.getElem?_map, hq] at hs
    cases hs
    exact hty
  simpa [paramFrame] using frameAgree_params Γ.length params 1 args [] [] hlen
    (fun n q v hq hv _ _ => hparams n q v hq hv) .nil

section

variable {p : Program} {c : TypingContext} {t : Ty} (hp : p.Resolved c.bindings c.ancestry)
  (ht : c.ProgramTyped p t)

include hp ht in
/-- An object has values for the fields of every class above its own. -/
theorem field_value {objects : List Object} {self : ObjectId} {o : Object} {owner : String}
    {l : Layout} (hs : StoreTyped p c objects) (ho : objects[self]? = some o)
    (hb : c.ancestry.Below o.cls owner) (hl : layout? p.classes.reverse owner = some l) {i : Nat}
    {x : String} {s : Ty} (hi : l.fields[i]? = some (x, s)) :
    ∃ v, o.fields[i]? = some v ∧ v.OfType c.ancestry objects s := by
  obtain ⟨lo, hlo, hfields⟩ := hs self o ho
  obtain ⟨l', hl', hconf⟩ := Program.conforms_below hp ht hb hlo
  rw [hl] at hl'
  cases hl'
  obtain ⟨s', hs', hemb⟩ := hconf.fields i x s hi
  obtain ⟨hlt, hget⟩ := List.getElem?_eq_some_iff.mp hs'
  have hlen : o.fields.length = lo.fields.length := by simpa using hfields.length_eq
  refine ⟨o.fields[i], List.getElem?_eq_getElem (by omega), hemb _ _ ?_⟩
  have hv := hfields.get (i := i) (by omega) (by simpa using hlt)
  simpa [hget] using hv

include hp ht in
/-- A method sees the members of its class in every object of a class below. -/
theorem envTyped_members {objects : List Object} {self : ObjectId} {o : Object} {owner : String}
    {l : Layout} (hs : StoreTyped p c objects) (ho : objects[self]? = some o)
    (hb : c.ancestry.Below o.cls owner) (hl : layout? p.classes.reverse owner = some l) :
    EnvTyped p c objects (l.frames p.classes.reverse)
      [l.members self o.fields, classFrame p.classes.reverse] := by
  refine .cons ?_ (.cons (frameAgree_classes (fun _ _ _ _ h => h) _) .nil)
  have hmethods : Nest.FrameAgree (fun Γ _ => Denotation.OfEntry p c objects Γ)
      [classScope p.classes.reverse] [classFrame p.classes.reverse]
      (entriesFrom Layout.methodEntry 0 l.methods)
      (l.methods.map fun m => (m.1, Denotation.method self)) :=
    frameAgree_methods l.methods 0
      fun n x m hn _ _ => ⟨o, owner, l, n, m, ho, hb, hl, hn, by rw [Nat.zero_add]⟩
  refine frameAgree_fields hmethods l.fields o.fields 0 fun n x s hn => ?_
  obtain ⟨v, hv, hty⟩ := field_value hp ht hs ho hb hl hn
  exact ⟨v, hv, fun _ _ => hty⟩

theorem lookup_of_getElem? {α : Type} {l : List (String × α)} (hn : (l.map Prod.fst).Nodup)
    {j : Nat} {x : String} {a : α} (h : l[j]? = some (x, a)) : l.lookup x = some a := by
  induction l generalizing j with
  | nil => simp at h
  | cons q rest ih =>
    obtain ⟨y, b⟩ := q
    simp only [List.map_cons, List.nodup_cons] at hn
    cases j with
    | zero =>
      simp only [List.getElem?_cons_zero, Option.some.injEq, Prod.mk.injEq] at h
      simp [h]
    | succ j =>
      have hrest : rest[j]? = some (x, a) := by simpa using h
      have hne : x ≠ y := by
        rintro rfl
        exact hn.1 (List.mem_map.mpr ⟨(x, a), List.mem_of_getElem? hrest, rfl⟩)
      rw [lookup_cons_of_ne hne, ih hn.2 hrest]

include hp ht in
/-- The method that an object answers with, for a method that a class above its
own has. -/
theorem answers {objects : List Object} {self : ObjectId} {o : Object} {owner : String}
    {l : Layout} {j : Nat} {x : String} {m : Implementation} (hs : StoreTyped p c objects)
    (ho : objects[self]? = some o) (hb : c.ancestry.Below o.cls owner)
    (hl : layout? p.classes.reverse owner = some l) (hj : l.methods[j]? = some (x, m)) :
    ∃ lo k lk, layout? p.classes.reverse o.cls = some lo ∧ lo.methods[j]? = some (x, k) ∧
      nearest? p.classes.reverse o.cls x = some k ∧
      layout? p.classes.reverse k.owner = some lk ∧ c.ancestry.Below o.cls k.owner ∧
      k.decl.signature.Conforms c.ancestry m.decl.signature ∧
      RoutineBound c.bindings (lk.frames p.classes.reverse) k.decl.params k.decl.decls
        k.decl.body ∧
      c.DeclsTyped k.decl.decls ∧ c.BodyTyped k.decl.ret k.decl.body := by
  obtain ⟨lo, hlo, -⟩ := hs self o ho
  obtain ⟨l', hl', hconf⟩ := Program.conforms_below hp ht hb hlo
  rw [hl] at hl'
  cases hl'
  obtain ⟨k, hk, hsig⟩ := hconf.methods j x m hj
  obtain ⟨d, earlier, hfound, hd, hlaid⟩ := hp.laid hlo
  have hnear : nearest? p.classes.reverse o.cls x = some k := by
    rw [← hp.lookup_methods hlo]
    exact lookup_of_getElem? (List.nodup_append.mp hlaid.distinct).2.1 hk
  obtain ⟨hbelow, -, e, earlier', hfound', hmem⟩ :=
    nearest?_owner hp.distinct hp.parents (List.suffix_refl _) hnear
  have he : e ∈ p.classes :=
    List.mem_reverse.mp ((class?_suffix hfound').subset List.mem_cons_self)
  obtain ⟨lk, hlk, hbound⟩ := hp.methods e he
  rw [class?_name hfound'] at hlk
  obtain ⟨hdecls, hbody⟩ := ht.methods e he k.decl hmem
  exact ⟨lo, k, lk, hlo, hk, hnear, hlk, hbelow, hsig, hbound k.decl hmem, hdecls, hbody⟩

theorem forall₂_params {objects : List Object} {args : List Value} {params params' : List Ty}
    (hargs : ValuesTyped c objects args params')
    (hsig : List.Forall₂ (fun a a' => a'.Embeds c.ancestry a) params params') :
    ValuesTyped c objects args params := by
  induction hsig generalizing args with
  | nil =>
    cases hargs
    exact .nil
  | cons he _ ih =>
    cases hargs with
    | cons ha hrest => exact .cons (he _ _ ha) (ih hrest)

/-- The members of a class are those of its layout. -/
theorem Program.Resolved.member?_eq {p : Program} {b : Bindings} {h : Ancestry}
    (hp : p.Resolved b h) {cls : String} {l : Layout}
    (hl : layout? p.classes.reverse cls = some l) (x : String) :
    b.member? cls x = l.scope.lookup x := by
  obtain ⟨d, earlier, hfound, -, hlaid⟩ := hp.laid hl
  obtain ⟨record, hr, hlists, -⟩ := hlaid.record
  rw [class?_name hfound] at hr
  have hx := hlists x
  simp only [Bindings.member?, hr, Option.bind_eq_bind, Option.bind_some]
  cases hid : record.members[x]? with
  | none =>
    rw [hid] at hx
    cases hlookup : l.scope.lookup x with
    | none => rfl
    | some e => simp [hlookup] at hx
  | some i =>
    rw [hid, Option.map_some] at hx
    cases hlookup : l.scope.lookup x with
    | none => simp [hlookup] at hx
    | some e => simpa [hlookup] using hx

/-- What the member of a class stands for, as its entry. -/
theorem Program.Resolved.member_eq {p : Program} {b : Bindings} {h : Ancestry}
    (hp : p.Resolved b h) {cls x : String} {m : Entry}
    (hm : b.member? cls x = some m) :
    ∃ l, layout? p.classes.reverse cls = some l ∧ l.scope.lookup x = some m := by
  obtain ⟨record, id, hr, -⟩ := (Bindings.member?_eq_some _ _ _ _).mp hm
  have hin : cls ∈ p.classes.reverse.map ClassDecl.name := by
    simpa using hp.records cls record hr
  obtain ⟨d, earlier, hfound⟩ := class?_isSome.mpr hin
  obtain ⟨l, hlaid⟩ := hp.classes _ _ _ hfound
  have hl : layout? p.classes.reverse cls = some l := (layout?_eq hfound).trans hlaid.layout
  exact ⟨l, hl, (hp.member?_eq hl x).symm.trans hm⟩

include hp ht in
/-- The member of a class that is called on an object below it is a method. -/
theorem sent_method {objects : List Object} {self : ObjectId} {o : Object} {cls x : String}
    (hs : StoreTyped p c objects) (ho : objects[self]? = some o) (hb : c.ancestry.Below o.cls cls)
    {m : Entry} (hm : c.bindings.member? cls x = some m) {sig : Signature Ty}
    (hsig : m.type.signature? = some sig) :
    ∃ l j k, layout? p.classes.reverse cls = some l ∧ l.methods[j]? = some (x, k) ∧
      m = Layout.methodEntry j k := by
  obtain ⟨l, hl, hlookup⟩ := hp.member_eq hm
  rw [Layout.lookup_scope, Option.or_eq_some_iff] at hlookup
  rcases hlookup with hfield | ⟨-, hmethod⟩
  · -- A field of a function type would be a value of that type.
    obtain ⟨s, hs', rfl⟩ := Option.map_eq_some_iff.mp hfield
    obtain ⟨i, hi⟩ := List.getElem?_of_mem (mem_of_lookup hs')
    obtain ⟨v, -, hv⟩ := field_value hp ht hs ho hb hl hi
    exact absurd hv (not_ofType_of_signature hsig)
  · obtain ⟨k, hk, rfl⟩ := Option.map_eq_some_iff.mp hmethod
    exact ⟨l, _, k, hl, getElem?_idxOf_of_lookup hk, rfl⟩

/-- The entry of a class that is registered, with its layout. -/
theorem Program.Resolved.class_entry {p : Program} {b : Bindings} {h : Ancestry}
    (hp : p.Resolved b h) {cls : String} {e : Entry} (hc : b.registered? cls = some e) :
    ∃ d earlier l, class? p.classes.reverse cls = some (d, earlier) ∧
      layout? p.classes.reverse cls = some l ∧
      e = { level := 0, type := l.shape.toTy, offset := -2 - earlier.length } := by
  obtain ⟨record, hr, he⟩ := (Bindings.registered_eq_some b cls e).mp hc
  have hin : cls ∈ p.classes.reverse.map ClassDecl.name := by
    simpa using hp.records cls record hr
  obtain ⟨d, earlier, hfound⟩ := class?_isSome.mpr hin
  obtain ⟨l, hl⟩ := hp.classes _ _ _ hfound
  obtain ⟨record', hr', -, he', -⟩ := hl.record
  rw [class?_name hfound, hr] at hr'
  cases hr'
  rw [he] at he'
  exact ⟨d, earlier, l, hfound, (layout?_eq hfound).trans hl.layout, Option.some.inj he'⟩

section

variable {call : Closure → List Value → Eval Value}

/-- An expression evaluates to values of its type. -/
def ExprSafe (p : Program) (c : TypingContext) (call : Closure → List Value → Eval Value)
    (e : Expr) : Prop :=
  ∀ (Γ : Nest Entry) (s : Ty) (env : Env) (st : Store), e.Bound c.bindings Γ → c.HasType e s →
    EnvTyped p c st.objects Γ env → StoreTyped p c st.objects →
    Eval.Safe ((e.eval p.classes.reverse call env).run st) fun r =>
      r.1.OfType c.ancestry r.2.objects s ∧ Sound p c st.objects r.2

theorem evalArgs_safe {args : List Expr} (h : ∀ a ∈ args, ExprSafe p c call a) {Γ : Nest Entry}
    {env : Env} (hb : Expr.ArgsBound c.bindings Γ args) {ss : List Ty} (hf : c.Fits args ss)
    {st : Store} (he : EnvTyped p c st.objects Γ env) (hs : StoreTyped p c st.objects) :
    Eval.Safe ((Expr.evalArgs p.classes.reverse call env args).run st) fun r =>
      ValuesTyped c r.2.objects r.1 ss ∧ Sound p c st.objects r.2 := by
  induction args generalizing ss st with
  | nil =>
    cases hf
    exact ⟨.nil, .refl hs⟩
  | cons e es ih =>
    cases hf with
    | cons hty hsub hrest =>
      unfold Expr.evalArgs
      refine (h e (by simp) Γ _ env st hb.1 hty he hs).bind ?_
      rintro v st₁ ⟨hv, hsound⟩
      refine (ih (fun a ha => h a (List.mem_cons_of_mem _ ha)) hb.2 hrest (he.mono hsound.grows)
        hsound.store).bind ?_
      rintro vs st₂ ⟨hvs, hsound'⟩
      exact ⟨.cons (Ty.embeds_of_subtypeOf hsub _ _ (hv.mono hsound'.grows)) hvs,
        hsound.trans hsound'⟩

theorem evalArgsBackwards_safe {args : List Expr} (h : ∀ a ∈ args, ExprSafe p c call a)
    {Γ : Nest Entry} {env : Env} (hb : Expr.ArgsBound c.bindings Γ args) {ss : List Ty}
    (hf : c.Fits args ss) {st : Store} (he : EnvTyped p c st.objects Γ env)
    (hs : StoreTyped p c st.objects) :
    Eval.Safe ((Expr.evalArgsBackwards p.classes.reverse call env args).run st) fun r =>
      ValuesTyped c r.2.objects r.1 ss ∧ Sound p c st.objects r.2 := by
  induction args generalizing ss st with
  | nil =>
    cases hf
    exact ⟨.nil, .refl hs⟩
  | cons e es ih =>
    cases hf with
    | cons hty hsub hrest =>
      unfold Expr.evalArgsBackwards
      refine (ih (fun a ha => h a (List.mem_cons_of_mem _ ha)) hb.2 hrest he hs).bind ?_
      rintro vs st₁ ⟨hvs, hsound⟩
      refine (h e (by simp) Γ _ env st₁ hb.1 hty (he.mono hsound.grows) hsound.store).bind ?_
      rintro v st₂ ⟨hv, hsound'⟩
      exact ⟨.cons (Ty.embeds_of_subtypeOf hsub _ _ hv) (hvs.mono hsound'.grows),
        hsound.trans hsound'⟩

theorem operate_safe {op : BinOp} {left right : Expr} (hl : ExprSafe p c call left)
    (hr : ExprSafe p c call right) {Γ : Nest Entry} {env : Env} (hbl : left.Bound c.bindings Γ)
    (hbr : right.Bound c.bindings Γ) {l r s : Ty} (htl : c.HasType left l)
    (htr : c.HasType right r) (hop : op.resultType c.ancestry l r = .ok s) {st : Store}
    (he : EnvTyped p c st.objects Γ env) (hs : StoreTyped p c st.objects) :
    Eval.Safe ((Eval.operate op (left.eval p.classes.reverse call env)
        (right.eval p.classes.reverse call env)).run st) fun r =>
      r.1.OfType c.ancestry r.2.objects s ∧ Sound p c st.objects r.2 := by
  have last : ∀ (v w : Value) (st' : Store), v.OfType c.ancestry st'.objects l →
      w.OfType c.ancestry st'.objects r → Sound p c st.objects st' →
      Eval.Safe ((liftM (op.apply v w) : Eval Value).run st') fun r =>
        r.1.OfType c.ancestry r.2.objects s ∧ Sound p c st.objects r.2 := by
    intro v w st' hv hw hsound
    have hsafe := BinOp.apply_safe hop hv hw
    change Eval.Safe ((op.apply v w).bind fun a => Except.ok (a, st')) _
    cases hr : op.apply v w with
    | ok u =>
      rw [hr] at hsafe
      exact ⟨hsafe, hsound⟩
    | error a =>
      rw [hr] at hsafe
      cases a <;> exact hsafe
  unfold Eval.operate
  split
  · refine (hr Γ r env st hbr htr he hs).bind ?_
    rintro w st₁ ⟨hw, hsound⟩
    refine (hl Γ l env st₁ hbl htl (he.mono hsound.grows) hsound.store).bind ?_
    rintro v st₂ ⟨hv, hsound'⟩
    exact last v w st₂ hv (hw.mono hsound'.grows) (hsound.trans hsound')
  · refine (hl Γ l env st hbl htl he hs).bind ?_
    rintro v st₁ ⟨hv, hsound⟩
    refine (hr Γ r env st₁ hbr htr (he.mono hsound.grows) hsound.store).bind ?_
    rintro w st₂ ⟨hw, hsound'⟩
    exact last v w st₂ (hv.mono hsound'.grows) hw (hsound.trans hsound')

include hp in
/-- An object that is made of values of the field types is one of its class. -/
theorem instantiate_safe {cls : String} {e : Entry} (hc : c.bindings.registered? cls = some e)
    {shape : ClassShape} (hshape : e.type.shape? = some shape) {st : Store}
    (hs : StoreTyped p c st.objects) {args : List Value}
    (hargs : ValuesTyped c st.objects args shape.fields) :
    Eval.Safe ((instantiate p.classes.reverse cls args).run st) fun r =>
      r.1.OfType c.ancestry r.2.objects (.ref cls) ∧ Sound p c st.objects r.2 := by
  obtain ⟨d, earlier, l, -, hl, rfl⟩ := hp.class_entry hc
  cases hshape
  have hlen : l.fields.length = args.length := by
    simpa [Layout.shape] using (List.Forall₂.length_eq hargs).symm
  unfold instantiate
  rw [Eval.run_require_bind hl, if_pos hlen]
  have hgrows : st.objects <+: st.objects ++ [⟨cls, args⟩] := List.prefix_append _ _
  refine ⟨⟨⟨cls, args⟩, by simp, Relation.ReflTransGen.refl⟩, hgrows, ?_⟩
  intro i o ho
  rw [List.getElem?_append] at ho
  split at ho
  · obtain ⟨lo, hlo, hfields⟩ := hs i o ho
    exact ⟨lo, hlo, hfields.mono hgrows⟩
  · rw [List.getElem?_singleton] at ho
    split at ho
    · cases ho
      exact ⟨l, hl, hargs.mono hgrows⟩
    · cases ho

variable (hcall : InvokeSafe p c call)

include hp ht hcall

/-- A method call on an object has a result of the type that the class above it
declares. -/
theorem dispatch_safe {st : Store} {self : ObjectId} {o : Object} {owner : String} {l : Layout}
    {j : Nat} {x : String} {m : Implementation} (hs : StoreTyped p c st.objects)
    (ho : st.objects[self]? = some o) (hb : c.ancestry.Below o.cls owner)
    (hl : layout? p.classes.reverse owner = some l) (hj : l.methods[j]? = some (x, m))
    {args : List Value}
    (hargs : ValuesTyped c st.objects args m.decl.signature.params) :
    Eval.Safe ((dispatch p.classes.reverse call self x args).run st) fun r =>
      r.1.OfType c.ancestry r.2.objects m.decl.signature.ret ∧ Sound p c st.objects r.2 := by
  obtain ⟨lo, k, lk, -, -, hnear, hlk, hbelow, hsig, hbound, hdecls, hbody⟩ :=
    answers hp ht hs ho hb hl hj
  rw [run_dispatch ho hnear hlk]
  have henv := envTyped_members hp ht hs ho hbelow hlk
  refine (hcall ⟨k.decl.params, k.decl.decls, k.decl.body, _⟩ args _ k.decl.ret st hbound hdecls
    hbody henv hs (forall₂_params hargs hsig.params)).mono ?_
  rintro r ⟨hv, hsound⟩
  exact ⟨hsig.ret _ _ hv, hsound⟩

/-- A call of a name has a result of the type that its entry declares. -/
theorem callName_safe {Γ seen : Nest Entry} {env : Env} {f : String} {e : Entry}
    (hf : Γ.find? f = some (e, seen)) {sig : Signature Ty} (hsig : e.type.signature? = some sig)
    {st : Store} (he : EnvTyped p c st.objects Γ env) (hs : StoreTyped p c st.objects)
    {args : List Value} (hargs : ValuesTyped c st.objects args sig.params) :
    Eval.Safe ((callName p.classes.reverse call env f args).run st) fun r =>
      r.1.OfType c.ancestry r.2.objects sig.ret ∧ Sound p c st.objects r.2 := by
  obtain ⟨d, seen', hfind, hd, hseen⟩ := Nest.Agree.find? he hf
  simp only [callName, hfind]
  cases d with
  | value v =>
    exact absurd hd (not_ofType_of_signature hsig)
  | function params decls body =>
    obtain ⟨ret, htype, hbound, hdecls, hbody⟩ := hd
    rw [htype] at hsig
    cases hsig
    exact hcall ⟨params, decls, body, seen'⟩ args seen ret st hbound hdecls hbody hseen hs hargs
  | method self =>
    obtain ⟨o, owner, l, j, m, ho, hb, hl, hj, rfl⟩ := hd
    cases hsig
    exact dispatch_safe hp ht hcall hs ho hb hl hj hargs
  | cls =>
    obtain ⟨s, htype⟩ := hd
    rw [htype] at hsig
    cases hsig

/-- A call on a receiver of a class has a result of the type that the member of
the class declares. -/
theorem sendTo_safe {Γ seen : Nest Entry} {env : Env} {x method cls : String} {e m : Entry}
    (hx : Γ.find? x = some (e, seen)) (htype : e.type = .ref cls)
    (hm : c.bindings.member? cls method = some m) {sig : Signature Ty}
    (hsig : m.type.signature? = some sig) {st : Store} (he : EnvTyped p c st.objects Γ env)
    (hs : StoreTyped p c st.objects) {args : List Value}
    (hargs : ValuesTyped c st.objects args sig.params) :
    Eval.Safe ((sendTo p.classes.reverse call env x method args).run st) fun r =>
      r.1.OfType c.ancestry r.2.objects sig.ret ∧ Sound p c st.objects r.2 := by
  obtain ⟨d, seen', hfind, hd, -⟩ := Nest.Agree.find? he hx
  simp only [sendTo, hfind]
  cases d with
  | value v =>
    have hv : v.OfType c.ancestry st.objects (.ref cls) := htype ▸ hd
    cases v with
    | word w =>
      have hw : w = -1 := hv
      simp only [hw, if_true]
      exact trivial
    | object self =>
      obtain ⟨o, ho, hb⟩ := hv
      obtain ⟨l, j, k, hl, hj, rfl⟩ := sent_method hp ht hs ho hb hm hsig
      cases hsig
      exact dispatch_safe hp ht hcall hs ho hb hl hj hargs
  | function params decls body =>
    obtain ⟨ret, harrow, -⟩ := hd
    rw [htype] at harrow
    cases harrow
  | method self =>
    obtain ⟨o, owner, l, j, k, -, -, -, -, rfl⟩ := hd
    cases htype
  | cls =>
    obtain ⟨s, hshape⟩ := hd
    rw [htype] at hshape
    cases hshape

/-- If calls are sound then so is every expression. -/
theorem exprSafe (e : Expr) : ExprSafe p c call e := by
  induction e with
  | lit value pos =>
    intro Γ s env st hb hty he hs
    cases hty
    exact ⟨Value.ofType_literal value, .refl hs⟩
  | name id x pos =>
    intro Γ s env st hb hty he hs
    obtain ⟨e, seen, hx, u, hu, -⟩ := hb
    cases hty with
    | name hu' hk =>
      rw [hu] at hu'
      cases hu'
      obtain ⟨d, seen', hfind, hd, -⟩ := Nest.Agree.find? he hx
      simp only [Expr.eval, hfind]
      -- Only a value has a type that a name alone may have.
      cases d with
      | value v => exact ⟨hd, .refl hs⟩
      | function params decls body =>
        obtain ⟨ret, harrow, -⟩ := hd
        rw [harrow] at hk
        cases hk
      | method self =>
        obtain ⟨o, owner, l, j, k, -, -, -, -, rfl⟩ := hd
        cases hk
      | cls =>
        obtain ⟨shape, hshape⟩ := hd
        rw [hshape] at hk
        cases hk
  | binary op left right pos ihl ihr =>
    intro Γ s env st hb hty he hs
    cases hty with
    | binary htl htr hop => exact operate_safe ihl ihr hb.1 hb.2 htl htr hop he hs
  | not operand pos ih =>
    intro Γ s env st hb hty he hs
    cases hty with
    | not hty hsub =>
      unfold Expr.eval
      refine (ih Γ _ env st hb hty he hs).bind ?_
      rintro v st₁ ⟨hv, hsound⟩
      obtain ⟨b, rfl⟩ := Value.ofType_bool (Ty.embeds_of_subtypeOf hsub _ _ hv)
      rw [Eval.run_require_bind (Value.bool?_ofBool b)]
      exact ⟨Value.ofBool_ofType _ _ _, hsound⟩
  | cond test yes no pos iht ihy ihn =>
    intro Γ s env st hb hty he hs
    cases hty with
    | cond htest hsub hyes hno hjoin =>
      unfold Expr.eval
      refine (iht Γ _ env st hb.1 htest he hs).bind ?_
      rintro v st₁ ⟨hv, hsound⟩
      obtain ⟨b, rfl⟩ := Value.ofType_bool (Ty.embeds_of_subtypeOf hsub _ _ hv)
      rw [Eval.run_require_bind (Value.bool?_ofBool b)]
      obtain ⟨hembyes, hembno⟩ := Ty.embeds_of_join? hjoin
      have he₁ := he.mono hsound.grows
      cases b with
      | true =>
        refine (ihy Γ _ env st₁ hb.2.1 hyes he₁ hsound.store).mono ?_
        rintro r ⟨hr, hsound'⟩
        exact ⟨hembyes _ _ hr, hsound.trans hsound'⟩
      | false =>
        refine (ihn Γ _ env st₁ hb.2.2 hno he₁ hsound.store).mono ?_
        rintro r ⟨hr, hsound'⟩
        exact ⟨hembno _ _ hr, hsound.trans hsound'⟩
  | print operand pos ih =>
    intro Γ s env st hb hty he hs
    cases hty with
    | print hty =>
      unfold Expr.eval
      refine (ih Γ _ env st hb hty he hs).bind ?_
      rintro v st₁ ⟨hv, hsound⟩
      exact ⟨hv, hsound.grows, hsound.store⟩
  | call id callee args pos ih =>
    intro Γ s env st hb hty he hs
    obtain ⟨⟨e, seen, hx, u, hu, -⟩, hargs⟩ := hb
    cases hty with
    | call hu' hsig hfits =>
      rw [hu] at hu'
      cases hu'
      unfold Expr.eval
      refine (evalArgsBackwards_safe ih hargs hfits he hs).bind ?_
      rintro vs st₁ ⟨hvs, hsound⟩
      refine (callName_safe hp ht hcall hx hsig (he.mono hsound.grows) hsound.store hvs).mono ?_
      rintro r ⟨hr, hsound'⟩
      exact ⟨hr, hsound.trans hsound'⟩
  | send id receiver method args pos ih =>
    intro Γ s env st hb hty he hs
    obtain ⟨⟨e, seen, cls, m, hx, htype, hm, u, hu, -, -, hum⟩, hargs⟩ := hb
    cases hty with
    | send hu' hm' hsig hfits =>
      rw [hu] at hu'
      cases hu'
      rw [hum] at hm'
      cases hm'
      unfold Expr.eval
      refine (evalArgsBackwards_safe ih hargs hfits he hs).bind ?_
      rintro vs st₁ ⟨hvs, hsound⟩
      refine (sendTo_safe hp ht hcall hx htype hm hsig (he.mono hsound.grows) hsound.store
        hvs).mono ?_
      rintro r ⟨hr, hsound'⟩
      exact ⟨hr, hsound.trans hsound'⟩
  | new id cls args pos ih =>
    intro Γ s env st hb hty he hs
    obtain ⟨⟨e, hc, u, hu, -⟩, hargs⟩ := hb
    cases hty with
    | new hu' hshape hfits =>
      rw [hu] at hu'
      cases hu'
      unfold Expr.eval
      refine (evalArgs_safe ih hargs hfits he hs).bind ?_
      rintro vs st₁ ⟨hvs, hsound⟩
      refine (instantiate_safe hp hc hshape hsound.store hvs).mono ?_
      rintro r ⟨hr, hsound'⟩
      exact ⟨hr, hsound.trans hsound'⟩

/-- Declarations extend the frame by what their entries say. -/
theorem evalAll_safe (ds : List Decl) :
    ∀ (frame : List (String × Entry)) (outer : Nest Entry) (k : Nat) (env : Env) (st : Store),
      Decl.AllBound c.bindings ds frame outer k → c.DeclsTyped ds →
      EnvTyped p c st.objects (frame :: outer) env → StoreTyped p c st.objects →
      Eval.Safe ((Decl.evalAll p.classes.reverse call ds env).run st) fun r =>
        EnvTyped p c r.2.objects (declsOver outer.length k ds frame :: outer) r.1 ∧
          Sound p c st.objects r.2 := by
  induction ds with
  | nil =>
    intro frame outer k env st _ _ he hs
    exact ⟨he, .refl hs⟩
  | cons d ds ih =>
    intro frame outer k env st hb hty he hs
    cases d with
    | var id x type init pos =>
      obtain ⟨s, hinit, hsub⟩ := hty.1
      unfold Decl.evalAll
      refine (exprSafe hp ht hcall init _ s env st hb.1 hinit he hs).bind ?_
      rintro v st₁ ⟨hv, hsound⟩
      refine (ih _ outer (k + 1) _ st₁ hb.2 hty.2 (Nest.Agree.declare (b := .value v)
        (he.mono hsound.grows) (Ty.embeds_of_subtypeOf hsub _ _ hv)) hsound.store).mono ?_
      rintro r ⟨hr, hsound'⟩
      exact ⟨hr, hsound.trans hsound'⟩
    | fn id f params ret decls body pos =>
      unfold Decl.evalAll
      exact ih _ outer (k + 1) _ st hb.2 hty.2 (Nest.Agree.declare he
        ⟨ret, rfl, (Decl.bound_fn _ _ _ _ _ _ _ _ _ _ _).mp hb.1, hty.1⟩) hs

/-- A function that is entered has a result of the type it declares. -/
theorem enter_safe : InvokeSafe p c (Closure.enter p.classes.reverse call) := by
  intro f args Γ ret st hbound hdecls hbody henv hs hargs
  obtain ⟨s, hty, hsub⟩ := hbody
  have hlen : f.params.length = args.length := by
    simpa using (List.Forall₂.length_eq hargs).symm
  unfold Closure.enter
  rw [if_pos hlen]
  have hframe := envTyped_params henv hargs
  refine (evalAll_safe hp ht hcall f.decls _ Γ 0 _ st hbound.1 hdecls hframe hs).bind ?_
  rintro env st₁ ⟨henv', hsound⟩
  refine (exprSafe hp ht hcall f.body _ s env st₁ hbound.2.1 hty henv' hsound.store).mono ?_
  rintro r ⟨hr, hsound'⟩
  exact ⟨Ty.embeds_of_subtypeOf hsub _ _ hr, hsound.trans hsound'⟩

end

include hp ht

/-- Calls are sound at every depth. -/
theorem invoke_safe (depth : Nat) : InvokeSafe p c (invoke p.classes.reverse depth) := by
  induction depth with
  | zero => exact fun _ _ _ _ _ _ _ _ _ _ _ => trivial
  | succ depth ih => exact enter_safe hp ht ih

/-- A program without a fault has a value of the type of its body, unless it
divides or calls a method on null where there is nothing to divide by or no
object, or its calls nest too deeply. -/
theorem Program.eval_safe (depth : Nat) : Eval.Safe (p.eval depth) fun r =>
    r.1.OfType c.ancestry r.2.objects t ∧ StoreTyped p c r.2.objects := by
  have hcall := invoke_safe hp ht depth
  have hstart : EnvTyped p c [] [classScope p.classes.reverse] [classFrame p.classes.reverse] :=
    .cons (frameAgree_classes (fun _ _ _ _ h => h) _) .nil
  have hempty : StoreTyped p c [] := by
    intro i o ho
    simp at ho
  refine (evalAll_safe hp ht hcall p.decls _ [] p.classes.length _ {} hp.decls ht.decls hstart
    hempty).bind ?_
  rintro env st ⟨henv, hsound⟩
  refine (exprSafe hp ht hcall p.body _ t env st hp.body ht.body henv hsound.store).mono ?_
  rintro r ⟨hr, hsound'⟩
  exact ⟨hr, hsound'.store⟩

end

end Classlet
