import Classlet.Proofs.Completeness
import Classlet.Proofs.MemberNames

/-!
The static chain of a method ends at its object. The frames around the inside of a
method are its own frame and those of the functions in it, then the members of its
class, and outermost the classes of the program; the declarations of the program are
not among them. A class is no value, so a name, a function that is called and the
receiver of a method call are never found in the outermost frame. Hence the access
links that are followed for them lead to the frame that declares the name, which is at
most as far out as the object, and at the object exactly for the members of the class.
The code is stated in full, so no other link is followed.
-/

namespace Classlet

namespace Expr

/-- The name that an expression itself looks up in the frames around it: a name, the
function of a call, or the receiver of a method call. -/
def name? : Expr → Option String
  | .name _ x _ => some x
  | .call _ callee _ _ => some callee
  | .send _ receiver _ _ _ => some receiver
  | _ => none

/-- What is filed for the name that an expression looks up. -/
def link? (b : Bindings) : Expr → Option (Use × Entry)
  | .name id _ _ | .call id _ _ _ => b.used? id
  | .send id _ _ _ _ => do
    let u ← b.sends[id]?
    return (u.receiver, ← b.entry? u.receiver.entry)
  | _ => none

/-- The arguments of a call or a method call. -/
def callArgs : Expr → List Expr
  | .call _ _ args _ | .send _ _ _ args _ => args
  | _ => []

/-- What stands before the arguments: a call keeps the frame of its caller. -/
def controlLink : Expr → List Instr
  | .call .. | .send .. => [.plain (.pushReg .fp)]
  | _ => []

/-- What an expression does once the frame that declares its name is on top. A name is
read from its place. A call keeps the frame as access link and jumps to the code whose
address is at the place, which for a method is a place of the dispatch table. A method call
reads the receiver from its place, keeps it as access link and jumps through its dispatch
table. -/
inductive Landing (b : Bindings) (entry : Entry) : Expr → List Instr → Prop
  | name {id : NodeId} {x : String} {pos : Position} :
    Landing b entry (.name id x pos)
      [.push (Int64.ofInt entry.offset), .plain (.arith .add), .plain .load]
  | function {id : NodeId} {callee : String} {args : List Expr} {pos : Position} :
    entry.isMethod = false →
    Landing b entry (.call id callee args pos)
      [.plain (.popReg .tm), .plain (.pushReg .tm), .plain (.pushReg .tm),
        .push (Int64.ofInt entry.offset), .plain (.arith .add), .plain .load, .plain .call]
  | method {id : NodeId} {callee : String} {args : List Expr} {pos : Position} :
    entry.isMethod = true →
    Landing b entry (.call id callee args pos)
      [.plain (.popReg .tm), .plain (.pushReg .tm), .plain (.pushReg .tm), .plain .load,
        .push (Int64.ofInt entry.offset), .plain (.arith .add), .plain .load, .plain .call]
  | send {id : NodeId} {receiver method : String} {args : List Expr} {pos : Position}
      {u : SendUse} {m : Entry} :
    b.sends[id]? = some u → b.entry? u.method = some m →
    Landing b entry (.send id receiver method args pos)
      [.push (Int64.ofInt entry.offset), .plain (.arith .add), .plain .load,
        .plain (.popReg .tm), .plain (.pushReg .tm), .plain (.pushReg .tm), .plain .load,
        .push (Int64.ofInt m.offset), .plain (.arith .add), .plain .load, .plain .call]

/-- The whole code of an expression, from that of its arguments: it starts at the frame
pointer and follows exactly `links` access links, one load for each, to the frame of the
entry. -/
def FollowsLinks (b : Bindings) (links : Nat) (entry : Entry) (e : Expr) : Prop :=
  ∃ landing, e.Landing b entry landing ∧ ∀ memorySize,
    Code.ofExpr ⟨b, memorySize⟩ e =
      (fun args => Code.instrs e.controlLink ++ args ++ Code.instrs
        (.plain (.pushReg .fp) :: List.replicate links (.plain .load) ++ landing)) <$>
      Code.ofArgsBackwards ⟨b, memorySize⟩ e.callArgs

variable {b : Bindings} {id : NodeId} {u : Use} {entry : Entry} {args : List Expr} {pos : Position}

theorem followsLinks_name {x : String} (hu : b.used? id = some (u, entry)) :
    (name id x pos).FollowsLinks b (u.distance entry) entry := by
  refine ⟨_, .name, fun memorySize => ?_⟩
  rw [Code.ofExpr, hu]
  rfl

theorem landing_callAt {callee : String} :
    (call id callee args pos).Landing b entry (Code.callAt entry) := by
  rw [Code.callAt]
  cases hm : entry.isMethod with
  | false => exact .function hm
  | true => exact .method hm

theorem followsLinks_call {callee : String} (hu : b.used? id = some (u, entry)) :
    (call id callee args pos).FollowsLinks b (u.distance entry) entry := by
  refine ⟨_, landing_callAt, fun memorySize => ?_⟩
  rw [Code.ofExpr, hu]
  rfl

theorem followsLinks_send {receiver method : String} {v : SendUse} {m : Entry}
    (hv : b.sends[id]? = some v) (hr : b.entry? v.receiver.entry = some entry)
    (hm : b.entry? v.method = some m) :
    (send id receiver method args pos).FollowsLinks b (v.receiver.distance entry) entry := by
  refine ⟨_, .send hv hm, fun memorySize => ?_⟩
  simp only [Code.ofExpr, hv, hr, hm, Gen.require, pure_bind, List.append_assoc]
  rfl

end Expr

/-! Frames of the text and frames of entries. -/

theorem Naming.isSome_ofList (l : List (String × NodeId)) (x : String) :
    (Naming.ofList l x).isSome ↔ x ∈ l.map Prod.fst := by
  rw [← not_iff_not, ← lookup_eq_none, Option.not_isSome_iff_eq_none, Naming.ofList]

/-- A frame of declarations and a frame of entries have the same names, and the entries
are of the given level. -/
structure FrameTally (names : List (String × NodeId)) (frame : List (String × Entry))
    (level : Nat) : Prop where
  names : ∀ x, x ∈ names.map Prod.fst ↔ x ∈ frame.map Prod.fst
  level : ∀ q ∈ frame, q.2.level = level

/-- Frames inside given ones, of the text and of entries, that go together. -/
inductive Tally (Γ₀ : List Naming) (Δ₀ : Nest Entry) : List Naming → Nest Entry → Prop
  | base : Tally Γ₀ Δ₀ Γ₀ Δ₀
  | cons {names : List (String × NodeId)} {frame : List (String × Entry)} {Γ : List Naming}
      {Δ : Nest Entry} :
    FrameTally names frame Δ.length → Tally Γ₀ Δ₀ Γ Δ →
    Tally Γ₀ Δ₀ (.ofList names :: Γ) (frame :: Δ)

namespace FrameTally

variable {names : List (String × NodeId)} {frame : List (String × Entry)} {level : Nat}

theorem nil (level : Nat) : FrameTally [] [] level := ⟨by simp, by simp⟩

theorem snoc (h : FrameTally names frame level) (x : String) (n : NodeId) {e : Entry}
    (he : e.level = level) : FrameTally (names ++ [(x, n)]) ((x, e) :: frame) level := by
  constructor
  · intro y
    rw [List.map_append, List.mem_append, h.names, List.map_cons, List.mem_cons, or_comm]
    simp
  · intro q hq
    rcases List.mem_cons.mp hq with rfl | hq
    · exact he
    · exact h.level q hq

theorem params (ps : List Binder) (i : Nat) (h : FrameTally names frame level) :
    FrameTally (names ++ ps.map Binder.named) (paramsOver level i ps frame) level := by
  induction ps generalizing i names frame with
  | nil => simpa [paramsOver] using h
  | cons p ps ih =>
    rw [List.map_cons, ← List.singleton_append, ← List.append_assoc]
    exact ih (i + 1) (h.snoc p.name p.id rfl)

theorem decls (ds : List Decl) (k : Nat) (h : FrameTally names frame level) :
    FrameTally (names ++ ds.map Decl.named) (declsOver level k ds frame) level := by
  induction ds generalizing k names frame with
  | nil => simpa [declsOver] using h
  | cons d ds ih =>
    rw [List.map_cons, ← List.singleton_append, ← List.append_assoc]
    exact ih (k + 1) (h.snoc d.name d.id rfl)

theorem routine (params : List Binder) (decls : List Decl) (level : Nat) :
    FrameTally (params.map Binder.named ++ decls.map Decl.named)
      (declsOver level 0 decls (paramsOver level 1 params [])) level :=
  ((FrameTally.nil level).params params 1).decls decls 0

theorem isSome_ofList (h : FrameTally names frame level) (x : String) :
    (Naming.ofList names x).isSome ↔ x ∈ frame.map Prod.fst := by
  rw [Naming.isSome_ofList, h.names]

end FrameTally

/-! Every expression of a routine is bound in frames that go with those of its place,
and has a type. -/

namespace TypingContext

variable {c : TypingContext} {Γ₀ : List Naming} {Δ₀ : Nest Entry}

theorem Fits.typed {args : List Expr} {ss : List Ty} (h : c.Fits args ss) :
    ∀ a ∈ args, ∃ t, c.HasType a t := by
  induction args generalizing ss with
  | nil => simp
  | cons e es ih =>
    cases h with
    | cons he _ hrest =>
      intro a ha
      rcases List.mem_cons.mp ha with rfl | ha
      · exact ⟨_, he⟩
      · exact ih hrest a ha

/-- All parts of an expression with a type have types. -/
theorem HasType.part {e : Expr} {t : Ty} (h : c.HasType e t) :
    ∀ x ∈ e.parts, ∃ s, c.HasType x s := by
  have hereditary : Expr.Hereditary fun e => ∃ t, c.HasType e t := by
    constructor
    · rintro op left right pos ⟨t, ht⟩
      cases ht with
      | binary hl hr _ => exact ⟨⟨_, hl⟩, _, hr⟩
    · rintro operand pos ⟨t, ht⟩
      cases ht with
      | not ho _ => exact ⟨_, ho⟩
    · rintro operand pos ⟨t, ht⟩
      cases ht with
      | print ho => exact ⟨_, ho⟩
    · rintro test yes no pos ⟨t, ht⟩
      cases ht with
      | cond hs _ hy hn _ => exact ⟨⟨_, hs⟩, ⟨_, hy⟩, _, hn⟩
    · rintro id callee args pos ⟨t, ht⟩
      cases ht with
      | call _ _ hargs => exact hargs.typed
    · rintro id receiver method args pos ⟨t, ht⟩
      cases ht with
      | send _ _ _ hargs => exact hargs.typed
    · rintro id cls args pos ⟨t, ht⟩
      cases ht with
      | new _ _ hargs => exact hargs.typed
  exact hereditary.part ⟨t, h⟩

/-- An expression at a place, with frames of entries that go with the place. -/
def Placed (c : TypingContext) (Γ₀ : List Naming) (Δ₀ : Nest Entry) (q : List Naming × Expr) :
    Prop :=
  ∃ Δ t, Tally Γ₀ Δ₀ q.1 Δ ∧ q.2.Bound c.bindings Δ ∧ c.HasType q.2 t

theorem placed_expr {Γ : List Naming} {Δ : Nest Entry} {e : Expr} {t : Ty}
    (h : Tally Γ₀ Δ₀ Γ Δ) (hb : e.Bound c.bindings Δ) (ht : c.HasType e t) :
    ∀ q ∈ e.places Γ, c.Placed Γ₀ Δ₀ q := by
  intro q hq
  obtain ⟨x, hx, rfl⟩ := List.mem_map.mp hq
  obtain ⟨s, hs⟩ := ht.part x hx
  exact ⟨Δ, s, h, hb.part x hx, hs⟩

theorem placed_decls :
    (∀ (d : Decl) (Γ : List Naming) (Δ : Nest Entry) (names : List (String × NodeId))
      (frame : List (String × Entry)) (k : Nat), Tally Γ₀ Δ₀ Γ Δ →
      FrameTally names frame Δ.length → d.Bound c.bindings frame Δ k → c.DeclTyped d →
      ∀ q ∈ d.places Γ names, c.Placed Γ₀ Δ₀ q) ∧
    ∀ (ds : List Decl) (Γ : List Naming) (Δ : Nest Entry) (names : List (String × NodeId))
      (frame : List (String × Entry)) (k : Nat), Tally Γ₀ Δ₀ Γ Δ →
      FrameTally names frame Δ.length → Decl.AllBound c.bindings ds frame Δ k →
      c.DeclsTyped ds → ∀ q ∈ Decl.placesOfAll Γ names ds, c.Placed Γ₀ Δ₀ q := by
  apply Decl.induction
  · intro id name type init pos Γ Δ names frame k h hf hb ht
    obtain ⟨t, hinit, -⟩ := ht
    exact placed_expr (.cons hf h) hb hinit
  · intro id name params ret decls body pos ih Γ Δ names frame k h hf hb ht q hq
    obtain ⟨t, hbody, -⟩ := ht.2
    -- The function is visible inside itself.
    have hself : Tally Γ₀ Δ₀ (.ofList (names ++ [(name, id)]) :: Γ)
        (((name, (Decl.fn id name params ret decls body pos).entry Δ.length k) :: frame) :: Δ) :=
      .cons (hf.snoc name id rfl) h
    rw [Decl.bound_fn] at hb
    rcases List.mem_append.mp hq with hq | hq
    · have hparams := (FrameTally.nil (Δ.length + 1)).params params 1
      exact ih _ _ _ _ _ hself hparams hb.1 ht.1 q hq
    · exact placed_expr (.cons (FrameTally.routine params decls (Δ.length + 1)) hself) hb.2.1 hbody
        q hq
  · intro Γ Δ names frame k _ _ _ _ q hq
    cases hq
  · intro d ds ihd ihs Γ Δ names frame k h hf hb ht q hq
    rcases List.mem_append.mp hq with hq | hq
    · exact ihd Γ Δ names frame k h hf hb.1 ht.1 q hq
    · exact ihs Γ Δ _ _ _ h (hf.snoc d.name d.id rfl) hb.2 ht.2 q hq

theorem placed_routine {params : List Binder} {decls : List Decl} {body : Expr}
    {ret : WrittenType} (hb : RoutineBound c.bindings Δ₀ params decls body)
    (hd : c.DeclsTyped decls) (ht : c.BodyTyped ret body) :
    ∀ q ∈ routinePlaces Γ₀ params decls body, c.Placed Γ₀ Δ₀ q := by
  intro q hq
  obtain ⟨t, hbody, -⟩ := ht
  rcases List.mem_append.mp hq with hq | hq
  · exact placed_decls.2 decls Γ₀ Δ₀ _ _ 0 .base ((FrameTally.nil Δ₀.length).params params 1) hb.1
      hd q hq
  · exact placed_expr (.cons (FrameTally.routine params decls Δ₀.length) .base) hb.2.1 hbody q hq

/-- The name of an expression with a type is found in the frames around it, what it stands
for is no class, and the code follows the access links to it. -/
theorem HasType.link {e : Expr} {t : Ty} (ht : c.HasType e t) {Δ : Nest Entry}
    (hb : e.Bound c.bindings Δ) {x : String} (hx : e.name? = some x) :
    ∃ u entry seen, e.link? c.bindings = some (u, entry) ∧ u.level = Δ.level ∧
      Δ.find? x = some (entry, seen) ∧ entry.type.shape? = none ∧
      e.FollowsLinks c.bindings (u.distance entry) entry := by
  cases ht with
  | @name _ _ _ u entry hu hk =>
    cases hx
    obtain ⟨_, seen, hfind, _, hu', hlevel⟩ := hb
    obtain ⟨rfl, rfl⟩ : u = _ ∧ entry = _ := by simpa using hu.symm.trans hu'
    refine ⟨u, entry, seen, hu, hlevel, hfind, ?_, Expr.followsLinks_name hu⟩
    cases htype : entry.type <;> simp_all [Ty.nameKind?, Ty.shape?]
  | @call _ _ _ _ u entry _ hu hsig _ =>
    cases hx
    obtain ⟨⟨_, seen, hfind, _, hu', hlevel⟩, -⟩ := hb
    obtain ⟨rfl, rfl⟩ : u = _ ∧ entry = _ := by simpa using hu.symm.trans hu'
    refine ⟨u, entry, seen, hu, hlevel, hfind, ?_, Expr.followsLinks_call hu⟩
    cases htype : entry.type <;> simp_all [Ty.signature?, Ty.shape?]
  | send hu _ _ _ =>
    cases hx
    obtain ⟨⟨entry, seen, cls, m, hfind, href, -, u, hu', hlevel, hentry, hmethod⟩, -⟩ := hb
    exact ⟨u.receiver, entry, seen, by simp [Expr.link?, hu', hentry], hlevel, hfind,
      by rw [href]; rfl, Expr.followsLinks_send hu' hentry hmethod⟩
  | lit | binary | not | cond | print | new => cases hx

end TypingContext

namespace Tally

variable {Γ₀ Γ : List Naming} {Δ₀ Δ : Nest Entry}

theorem split (h : Tally Γ₀ Δ₀ Γ Δ) :
    ∃ locals, Γ = locals ++ Γ₀ ∧ Δ.length = locals.length + Δ₀.length := by
  induction h with
  | base => exact ⟨[], rfl, by simp⟩
  | @cons names frame Γ Δ _ _ ih =>
    obtain ⟨locals, rfl, hlen⟩ := ih
    exact ⟨.ofList names :: locals, rfl, by simp [hlen, Nat.add_right_comm]⟩

/-- Where a name is found that is not one of the outermost frame: in a frame inside the
members, or among the members if no such frame has it. -/
theorem find? {γ classes : Naming} {members outermost : List (String × Entry)}
    (h : Tally [γ, classes] [members, outermost] Γ Δ)
    (hγ : ∀ x, (γ x).isSome ↔ x ∈ members.map Prod.fst) (hlevel : ∀ q ∈ members, q.2.level = 1)
    {x : String} {e : Entry} {seen : Nest Entry} (hx : Δ.find? x = some (e, seen))
    (hout : (x, e) ∉ outermost) :
    ∃ locals, Γ = locals ++ [γ, classes] ∧ Δ.length = locals.length + 2 ∧ 1 ≤ e.level ∧
      e.level ≤ locals.length + 1 ∧
      (e.level = 1 ↔ Naming.select? locals x = none ∧ (γ x).isSome) := by
  induction h with
  | base =>
    refine ⟨[], rfl, rfl, ?_⟩
    cases hc : Nest.cut? x members with
    | none =>
      simp only [Nest.find?, hc] at hx
      cases hc' : Nest.cut? x outermost with
      | none => simp [hc'] at hx
      | some q =>
        obtain ⟨a, rest⟩ := q
        simp only [hc', Option.some.injEq, Prod.mk.injEq] at hx
        exact absurd (hx.1 ▸ Nest.mem_of_cut? hc') hout
    | some q =>
      obtain ⟨a, rest⟩ := q
      simp only [Nest.find?, hc, Option.some.injEq, Prod.mk.injEq] at hx
      have hmem : (x, e) ∈ members := hx.1 ▸ Nest.mem_of_cut? hc
      have hone : e.level = 1 := hlevel _ hmem
      have hsome : (γ x).isSome := (hγ x).mpr (List.mem_map_of_mem hmem)
      exact ⟨by omega, by simp [hone], by simp [hone, hsome, Naming.select?]⟩
  | @cons names frame Γ Δ hf h ih =>
    cases hc : Nest.cut? x frame with
    | none =>
      simp only [Nest.find?, hc] at hx
      obtain ⟨locals, rfl, hlen, hpos, hle, hiff⟩ := ih hx
      have hnot : x ∉ frame.map Prod.fst := by
        rw [← lookup_eq_none, Nest.lookup_eq_cut?, hc]
        rfl
      have hnone : Naming.ofList names x = none := by
        rw [← Option.not_isSome_iff_eq_none, hf.isSome_ofList]
        exact hnot
      refine ⟨.ofList names :: locals, rfl, by simp [hlen], hpos, by simp; omega, ?_⟩
      rw [hiff, Naming.select?, Naming.select?, List.findSome?_cons, hnone]
    | some q =>
      obtain ⟨a, rest⟩ := q
      simp only [Nest.find?, hc, Option.some.injEq, Prod.mk.injEq] at hx
      have hmem : (x, e) ∈ frame := hx.1 ▸ Nest.mem_of_cut? hc
      have hat : e.level = Δ.length := hf.level _ hmem
      obtain ⟨locals, rfl, hlen⟩ := h.split
      have htwo : Δ.length = locals.length + 2 := hlen
      have hsome : (Naming.ofList names x).isSome :=
        (hf.isSome_ofList x).mpr (List.mem_map_of_mem hmem)
      refine ⟨.ofList names :: locals, rfl, by simp [htwo], by omega, by simp; omega, ?_⟩
      constructor
      · intro hone
        omega
      · rintro ⟨hnone, -⟩
        rw [Naming.select?, List.findSome?_cons] at hnone
        obtain ⟨n, hn⟩ := Option.isSome_iff_exists.mp hsome
        simp [hn] at hnone

end Tally

/-! The members that the text gives a class are those of its layout. -/

theorem mem_names_foldl_placed {α β : Type} (name : β → String) (item : β → α) (bs : List β)
    (l : List (String × α)) (x : String) :
    x ∈ (bs.foldl (fun l b => placed (name b) (item b) l) l).map Prod.fst ↔
      x ∈ bs.map name ∨ x ∈ l.map Prod.fst := by
  induction bs generalizing l with
  | nil => simp
  | cons b bs ih =>
    have hone : x ∈ (placed (name b) (item b) l).map Prod.fst ↔
        x = name b ∨ x ∈ l.map Prod.fst := by
      rw [← not_iff_not, ← lookup_eq_none, lookup_placed, not_or, ← lookup_eq_none]
      by_cases hx : x = name b <;> simp [hx]
    rw [List.foldl_cons, ih, hone, List.map_cons, List.mem_cons, or_left_comm, or_assoc]

theorem names_entriesFrom {α : Type} (entry : Nat → α → Entry) (i : Nat)
    (l : List (String × α)) : (entriesFrom entry i l).map Prod.fst = l.map Prod.fst := by
  induction l generalizing i with
  | nil => rfl
  | cons q rest ih => simp [entriesFrom, ih]

theorem Layout.names_scope (l : Layout) :
    l.scope.map Prod.fst = l.fields.map Prod.fst ++ l.methods.map Prod.fst := by
  rw [scope, List.map_append, names_entriesFrom, names_entriesFrom]

theorem Layout.level_scope (l : Layout) : ∀ q ∈ l.scope, q.2.level = 1 := by
  intro q hq
  rcases List.mem_append.mp hq with hq | hq
  · obtain ⟨_, _, j, rfl⟩ := mem_entriesFrom hq
    rfl
  · obtain ⟨_, _, j, rfl⟩ := mem_entriesFrom hq
    rfl

theorem Member.isSome_over (isMethod : Bool) (own? : Option NodeId) (inherited : Option Member) :
    (Member.over isMethod own? inherited).isSome ↔ own?.isSome ∨ inherited.isSome := by
  unfold Member.over
  cases inherited with
  | none => simp
  | some old => by_cases h : old.isMethod = isMethod <;> simp [h]

theorem ClassDecl.isSome_membersOver (c : ClassDecl) (inherited : String → Option Member)
    {base : Layout} {x : String} (h : (inherited x).isSome ↔ x ∈ base.scope.map Prod.fst) :
    (c.membersOver inherited x).isSome ↔ x ∈ (c.over base).scope.map Prod.fst := by
  have hfields : (c.fields.map Binder.named).map Prod.fst = c.fields.map Binder.name := by
    rw [List.map_map]
    rfl
  have hmethods :
      (c.methods.map MethodDecl.named).map Prod.fst = c.methods.map MethodDecl.name := by
    rw [List.map_map]
    rfl
  have hoverFields : x ∈ (c.over base).fields.map Prod.fst ↔
      x ∈ c.fields.map Binder.name ∨ x ∈ base.fields.map Prod.fst :=
    mem_names_foldl_placed Binder.name _ c.fields base.fields x
  have hoverMethods : x ∈ (c.over base).methods.map Prod.fst ↔
      x ∈ c.methods.map MethodDecl.name ∨ x ∈ base.methods.map Prod.fst :=
    mem_names_foldl_placed MethodDecl.name (Implementation.mk c.name) c.methods base.methods x
  rw [membersOver, Member.isSome_over, Member.isSome_over, Naming.isSome_ofList,
    Naming.isSome_ofList, hfields, hmethods, h, Layout.names_scope, Layout.names_scope,
    List.mem_append, List.mem_append, hoverFields, hoverMethods]
  exact (or_congr_right or_assoc.symm).trans or_left_comm

theorem isSome_membersOf {classes : List ClassDecl} (hn : (classes.map ClassDecl.name).Nodup)
    {cls : String} {l : Layout} (hl : layout? classes cls = some l) (x : String) :
    (membersOf classes cls x).isSome ↔ x ∈ l.scope.map Prod.fst := by
  induction classes generalizing cls l with
  | nil => simp [layout?] at hl
  | cons c earlier ih =>
    simp only [List.map_cons, List.nodup_cons] at hn
    by_cases hc : c.name = cls
    · subst hc
      rw [membersOf_cons_self hn.1]
      simp only [layout?, if_true] at hl
      cases hp : c.parent? with
      | none =>
        simp only [hp, Option.some.injEq] at hl
        subst hl
        apply c.isSome_membersOver
        simp [ClassDecl.inherited, hp, Layout.names_scope]
      | some parent =>
        simp only [hp, Option.map_eq_some_iff] at hl
        obtain ⟨base, hbase, rfl⟩ := hl
        apply c.isSome_membersOver
        rw [ClassDecl.inherited, hp, Option.bind_some]
        exact ih hn.2 hbase
    · simp only [layout?, hc, if_false] at hl
      rw [membersOf_cons_of_mem (class?_isSome.mp (layout?_isSome hl))]
      exact ih hn.2 hl

theorem Program.Resolved.isSome_naming {p : Program} {b : Bindings} {h : Ancestry}
    (hp : p.Resolved b h) {before after : List ClassDecl} {c : ClassDecl}
    (hsplit : p.classes = before ++ c :: after) {l : Layout}
    (hl : layout? p.classes.reverse c.name = some l) (x : String) :
    (c.naming before.reverse x).isSome ↔ x ∈ l.scope.map Prod.fst := by
  have hat := hp.class_at hsplit
  have hdistinct : ((c :: before.reverse).map ClassDecl.name).Nodup :=
    hp.distinct.sublist ((class?_suffix hat).sublist.map _)
  rw [layout?_eq hat] at hl
  rw [← isSome_membersOf hdistinct hl, membersOf_cons_self (List.nodup_cons.mp hdistinct).1]
  simp [ClassDecl.naming]

/-- Inside a method of a program that compiles, whatever function it is in, a name, the
function of a call and the receiver of a method call are bound within the object. The
`locals` are the frames inside the one of the members, so the entry is in one of them or
is a member, which is at level 1. The code follows exactly the access links from the use
to the entry. They are no more than there are frames inside the object, so none of them
is read from the object itself. -/
theorem Program.method_links (p : Program) (o : Options) (hn : p.ids.Nodup)
    (he : (p.compile o).errors = []) {before after : List ClassDecl} {c : ClassDecl}
    (hc : p.classes = before ++ c :: after) {Γ : List Naming} {e : Expr}
    (hq : (Γ, e) ∈ c.places [c.naming before.reverse, .ofList (p.classes.map ClassDecl.named)])
    {x : String} (hx : e.name? = some x) :
    ∃ locals u entry,
      Γ = locals ++ [c.naming before.reverse, .ofList (p.classes.map ClassDecl.named)] ∧
      e.link? p.resolve.bindings = some (u, entry) ∧ 1 ≤ entry.level ∧
      (entry.level = 1 ↔
        Naming.select? locals x = none ∧ (c.naming before.reverse x).isSome) ∧
      u.level = locals.length + 1 ∧ u.distance entry ≤ locals.length ∧
      e.FollowsLinks p.resolve.bindings (u.distance entry) entry := by
  obtain ⟨hr, ht⟩ : p.resolve.errors = [] ∧ (p.typingContext.check p).errors = [] := by
    by_contra h
    exact (p.compile_of_unclean o h).2.1 he
  have hp := p.resolve_resolved hn hr
  obtain ⟨t, -, htyped, -⟩ := p.typingContext.check_typed p hp ht
  have hmem : c ∈ p.classes := by simp [hc]
  obtain ⟨l, hl, hbound⟩ := hp.methods c hmem
  obtain ⟨m, hm, hq⟩ := List.mem_flatMap.mp hq
  obtain ⟨hdecls, hbody⟩ := htyped.methods c hmem m hm
  obtain ⟨Δ, s, htally, hb, hs⟩ :=
    TypingContext.placed_routine (hbound m hm) hdecls hbody _ hq
  obtain ⟨u, entry, seen, hlink, hlevel, hfind, hshape, hfollows⟩ := hs.link hb hx
  -- What stands in the outermost frame of a method are the classes.
  have hout : (x, entry) ∉ classScope p.classes.reverse := by
    intro hin
    obtain ⟨shape, htype⟩ := mem_classScope hin
    rw [htype] at hshape
    cases hshape
  obtain ⟨locals, hΓ, hlen, hpos, hle, hiff⟩ :=
    htally.find? (hp.isSome_naming hc hl) l.level_scope hfind hout
  have hat : u.level = locals.length + 1 := by
    rw [hlevel, Nest.level]
    omega
  refine ⟨locals, u, entry, hΓ, hlink, hpos, hiff, hat, ?_, hfollows⟩
  rw [Use.distance]
  omega

/-- A class whose method has a parameter of the name of a field, and a function that
uses the parameter, another field and the method itself. -/
def nestedClass : ClassDecl :=
  let pos := Position.ofLine 1
  let inner := .cond (.binary .lessEqual (.name 5 "y" pos) (.name 6 "x" pos) pos)
    (.name 7 "k" pos) (.call 8 "walk" [.name 9 "k" pos] pos) pos
  { id := 0, name := "A", parent? := none, pos
    fields := [⟨1, "x", .int pos, pos⟩, ⟨2, "y", .int pos, pos⟩]
    methods := [{ id := 3, name := "walk", params := [⟨4, "x", .int pos, pos⟩], ret := .int pos
                  decls := [.fn 10 "step" [⟨11, "k", .int pos, pos⟩] (.int pos) [] inner pos]
                  body := .call 12 "step" [.name 13 "y" pos] pos, pos }] }

def nestedProgram : Program :=
  { classes := [nestedClass], decls := [], body := .lit (.int 0) (.ofLine 2), pos := .ofLine 2 }

/-- In the function, the field is two access links away, and this is where the object
is. -/
theorem nestedProgram_links : nestedProgram.ids.Nodup ∧ (nestedProgram.compile {}).errors = [] ∧
    ∃ Γ e locals u entry,
      (Γ, e) ∈ nestedClass.places [nestedClass.naming [], .ofList [nestedClass.named]] ∧
      e.name? = some "y" ∧ Γ = locals ++ [nestedClass.naming [], .ofList [nestedClass.named]] ∧
      e.link? nestedProgram.resolve.bindings = some (u, entry) ∧ entry.level = 1 ∧
      locals.length = 2 ∧ u.distance entry = 2 ∧ ∀ memorySize,
        Code.ofExpr ⟨nestedProgram.resolve.bindings, memorySize⟩ e = pure (Code.instrs
          [.plain (.pushReg .fp), .plain .load, .plain .load,
            .push (-2), .plain (.arith .add), .plain .load]) := by
  have hids : nestedProgram.ids.Nodup := by decide +kernel
  have he : (nestedProgram.compile {}).errors = [] := by decide +kernel
  have hlevels : ((Expr.name 5 "y" (.ofLine 1)).link? nestedProgram.resolve.bindings).map
      (fun q => (q.1.level, q.2.level, q.2.offset)) = some (3, 1, -2) := by decide +kernel
  have hplace : (nestedClass.places [nestedClass.naming [], .ofList [nestedClass.named]])[2]?.map
      Prod.snd = some (Expr.name 5 "y" (.ofLine 1)) := rfl
  obtain ⟨⟨Γ, e⟩, hq, rfl⟩ := Option.map_eq_some_iff.mp hplace
  have hc : nestedProgram.classes = [] ++ nestedClass :: [] := rfl
  obtain ⟨locals, u, entry, hΓ, hlink, -, -, hat, -, landing, hlanding, hcode⟩ :=
    nestedProgram.method_links {} hids he hc (List.mem_of_getElem? hq) rfl
  obtain ⟨hu, hentry, hoffset⟩ : u.level = 3 ∧ entry.level = 1 ∧ entry.offset = -2 := by
    simpa [hlink] using hlevels
  have hdistance : u.distance entry = 2 := by
    rw [Use.distance]
    omega
  refine ⟨hids, he, Γ, _, locals, u, entry, List.mem_of_getElem? hq, rfl, hΓ, hlink, hentry,
    by omega, hdistance, fun memorySize => ?_⟩
  cases hlanding
  rw [hcode, hdistance, hoffset]
  rfl

end Classlet
