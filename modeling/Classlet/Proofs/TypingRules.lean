import Classlet.Proofs.Hierarchy
import Classlet.Proofs.MemberPlaces
import Classlet.Proofs.Soundness
import Classlet.Proofs.StaticChain

/-!
The typing rules of the language, one for each form of expression and of declaration, over
the entries that names are bound to. They do not mention the check: operators have rules of
their own, and overriding is said of the types of members of the same name. Where all names
are bound, the rules give the same as the relation that follows the check.
-/

namespace Classlet

namespace Ty

/-- Functions and methods. -/
def IsFunction (t : Ty) : Prop := ∃ sig, t = .arrow sig ∨ t = .method sig

def IsClass (t : Ty) : Prop := ∃ fields methods, t = .cls fields methods

variable {t : Ty}

theorem nameKind?_eq_none : t.nameKind? = none ↔ ¬ t.IsFunction ∧ ¬ t.IsClass := by
  cases t <;> simp [nameKind?, IsFunction, IsClass]

theorem hasSignature_iff : t.hasSignature = true ↔ t.IsFunction := by
  cases t <;> simp [hasSignature, signature?, IsFunction]

theorem signature?_eq_some {sig : Signature Ty} :
    t.signature? = some sig ↔ t = .arrow sig ∨ t = .method sig := by
  cases t <;> simp [signature?]

theorem shape?_eq_some {shape : ClassShape} :
    t.shape? = some shape ↔ t = .cls shape.fields shape.methods := by
  cases t with
  | cls fields methods =>
    simp only [shape?, Option.some.injEq, cls.injEq]
    constructor
    · rintro rfl
      exact ⟨rfl, rfl⟩
    · rintro ⟨rfl, rfl⟩
      rfl
  | int | bool | null | ref | arrow | method => simp [shape?]

end Ty

namespace TypingContext

mutual

/-- The typing rules of expressions. -/
inductive Typed (c : TypingContext) : Expr → Ty → Prop
  | int {n : Word} {pos : Position} : Typed c (.lit (.int n) pos) .int
  | bool {b : Bool} {pos : Position} : Typed c (.lit (.bool b) pos) .bool
  | null {pos : Position} : Typed c (.lit .null pos) .null
  | name {id : NodeId} {x : String} {pos : Position} {u : Use} {e : Entry} :
    c.bindings.used? id = some (u, e) → ¬ e.type.IsFunction → ¬ e.type.IsClass →
    Typed c (.name id x pos) e.type
  | equal {left right : Expr} {pos : Position} {l r : Ty} :
    Typed c left l → Typed c right r → ¬ l.IsFunction → ¬ r.IsFunction →
    l.subtypeOf c.ancestry r ∨ r.subtypeOf c.ancestry l →
    Typed c (.binary .equal left right pos) .bool
  | order {op : BinOp} {left right : Expr} {pos : Position} {l r : Ty} :
    op = .lessEqual ∨ op = .greaterEqual → Typed c left l → l.subtypeOf c.ancestry .int →
    Typed c right r → r.subtypeOf c.ancestry .int → Typed c (.binary op left right pos) .bool
  | logic {op : BinOp} {left right : Expr} {pos : Position} {l r : Ty} :
    op = .and ∨ op = .or → Typed c left l → l.subtypeOf c.ancestry .bool →
    Typed c right r → r.subtypeOf c.ancestry .bool → Typed c (.binary op left right pos) .bool
  | arithmetic {op : BinOp} {left right : Expr} {pos : Position} {l r : Ty} :
    op = .add ∨ op = .sub ∨ op = .mul ∨ op = .div → Typed c left l →
    l.subtypeOf c.ancestry .int → Typed c right r → r.subtypeOf c.ancestry .int →
    Typed c (.binary op left right pos) .int
  | not {operand : Expr} {pos : Position} {t : Ty} :
    Typed c operand t → t.subtypeOf c.ancestry .bool → Typed c (.not operand pos) .bool
  | cond {test yes no : Expr} {pos : Position} {s y n t : Ty} :
    Typed c test s → s.subtypeOf c.ancestry .bool → Typed c yes y → Typed c no n →
    y.join? c.ancestry n = some t → Typed c (.cond test yes no pos) t
  | print {operand : Expr} {pos : Position} {t : Ty} :
    Typed c operand t → Typed c (.print operand pos) t
  | call {id : NodeId} {callee : String} {args : List Expr} {pos : Position} {u : Use} {e : Entry}
      {sig : Signature Ty} :
    c.bindings.used? id = some (u, e) → e.type = .arrow sig ∨ e.type = .method sig →
    ArgsTyped c args sig.params → Typed c (.call id callee args pos) sig.ret
  | send {id : NodeId} {receiver method : String} {args : List Expr} {pos : Position}
      {u : SendUse} {e : Entry} {sig : Signature Ty} :
    c.bindings.sends[id]? = some u → c.bindings.entry? u.method = some e →
    e.type = .arrow sig ∨ e.type = .method sig → ArgsTyped c args sig.params →
    Typed c (.send id receiver method args pos) sig.ret
  | new {id : NodeId} {cls : String} {args : List Expr} {pos : Position} {u : Use} {e : Entry}
      {fields : List Ty} {methods : List (Signature Ty)} :
    c.bindings.used? id = some (u, e) → e.type = .cls fields methods → ArgsTyped c args fields →
    Typed c (.new id cls args pos) (.ref cls)

/-- Arguments, as many as there are types, have subtypes of the types. -/
inductive ArgsTyped (c : TypingContext) : List Expr → List Ty → Prop
  | nil : ArgsTyped c [] []
  | cons {e : Expr} {es : List Expr} {t a : Ty} {as : List Ty} :
    Typed c e t → t.subtypeOf c.ancestry a → ArgsTyped c es as → ArgsTyped c (e :: es) (a :: as)

end

mutual

/-- The typing rules of declarations. -/
inductive DeclOk (c : TypingContext) : Decl → Prop
  | var {id : NodeId} {name : String} {type : WrittenType} {init : Expr} {pos : Position} {t : Ty} :
    Typed c init t → t.subtypeOf c.ancestry type.lower → DeclOk c (.var id name type init pos)
  | fn {id : NodeId} {name : String} {params : List Binder} {ret : WrittenType}
      {decls : List Decl} {body : Expr} {pos : Position} {t : Ty} :
    DeclsOk c decls → Typed c body t → t.subtypeOf c.ancestry ret.lower →
    DeclOk c (.fn id name params ret decls body pos)

inductive DeclsOk (c : TypingContext) : List Decl → Prop
  | nil : DeclsOk c []
  | cons {d : Decl} {ds : List Decl} : DeclOk c d → DeclsOk c ds → DeclsOk c (d :: ds)

end

/-- Fields and methods that a class inherits are declared again with subtypes only. -/
structure Overrides (c : TypingContext) (d : ClassDecl) (parent : String) : Prop where
  fields : ∀ f ∈ d.fields, ∀ e, c.bindings.member? parent f.name = some e →
    f.type.lower.subtypeOf c.ancestry e.type
  methods : ∀ m ∈ d.methods, ∀ e, c.bindings.member? parent m.name = some e →
    (Ty.method m.signature).subtypeOf c.ancestry e.type

/-- The typing rules of programs. The type is that of the body. -/
structure WellTyped (c : TypingContext) (p : Program) (t : Ty) : Prop where
  methods : ∀ d ∈ p.classes, ∀ m ∈ d.methods, c.DeclsOk m.decls ∧
    ∃ s, c.Typed m.body s ∧ s.subtypeOf c.ancestry m.ret.lower
  overrides : ∀ d ∈ p.classes, ∀ parent, d.parent? = some parent → c.Overrides d parent
  decls : c.DeclsOk p.decls
  body : c.Typed p.body t

end TypingContext

/-! Operators, and expressions. -/

namespace BinOp

variable {h : Ancestry} {op : BinOp} {l r t : Ty}

/-- Equality compares what are no functions. -/
theorem resultType_equal : equal.resultType h l r = .ok t ↔
    t = .bool ∧ ¬ l.IsFunction ∧ ¬ r.IsFunction ∧ (l.subtypeOf h r ∨ r.subtypeOf h l) := by
  simp only [resultType, signature?, ← Ty.hasSignature_iff]
  by_cases hf : l.hasSignature || r.hasSignature
  · rw [if_pos hf]
    rw [Bool.or_eq_true] at hf
    rcases hf with hf | hf <;> simp [hf]
  · rw [if_neg hf]
    simp only [Bool.or_eq_true, not_or] at hf
    by_cases hsub : l.subtypeOf h r || r.subtypeOf h l
    · rw [if_pos hsub]
      simpa [hf, ← Bool.or_eq_true, hsub] using eq_comm
    · rw [if_neg hsub]
      simp [← Bool.or_eq_true, hsub]

/-- All operators but equality have operands of one type. -/
theorem resultType_of_signature? {operand result : Ty}
    (hsig : op.signature? = some (operand, result)) : op.resultType h l r = .ok t ↔
      t = result ∧ l.subtypeOf h operand ∧ r.subtypeOf h operand := by
  simp only [resultType, hsig]
  by_cases hsub : l.subtypeOf h operand && r.subtypeOf h operand
  · rw [if_pos hsub]
    rw [Bool.and_eq_true] at hsub
    simpa [hsub] using eq_comm
  · rw [if_neg hsub]
    simp [← Bool.and_eq_true, hsub]

end BinOp

namespace TypingContext

variable {c : TypingContext}

theorem argsTyped_iff_fits {args : List Expr} (ih : ∀ a ∈ args, ∀ t, c.Typed a t ↔ c.HasType a t)
    (ts : List Ty) : c.ArgsTyped args ts ↔ c.Fits args ts := by
  induction args generalizing ts with
  | nil =>
    constructor
    · intro h
      cases h
      exact .nil
    · intro h
      cases h
      exact .nil
  | cons e es ihs =>
    have hes := ihs fun a ha => ih a (List.mem_cons_of_mem _ ha)
    constructor
    · intro h
      cases h with
      | cons he hsub hrest => exact .cons ((ih e (by simp) _).mp he) hsub ((hes _).mp hrest)
    · intro h
      cases h with
      | cons he hsub hrest => exact .cons ((ih e (by simp) _).mpr he) hsub ((hes _).mpr hrest)

/-- A binary operation by the rules of its operator. -/
theorem typed_binary_iff {op : BinOp} {left right : Expr} {pos : Position} {t : Ty} :
    c.Typed (.binary op left right pos) t ↔
      ∃ l r, c.Typed left l ∧ c.Typed right r ∧ op.resultType c.ancestry l r = .ok t := by
  constructor
  · intro h
    cases h with
    | equal hl hr hfl hfr hsub =>
      exact ⟨_, _, hl, hr, BinOp.resultType_equal.mpr ⟨rfl, hfl, hfr, hsub⟩⟩
    | order hop hl hsl hr hsr =>
      refine ⟨_, _, hl, hr, (BinOp.resultType_of_signature? ?_).mpr ⟨rfl, hsl, hsr⟩⟩
      rcases hop with rfl | rfl <;> rfl
    | logic hop hl hsl hr hsr =>
      refine ⟨_, _, hl, hr, (BinOp.resultType_of_signature? ?_).mpr ⟨rfl, hsl, hsr⟩⟩
      rcases hop with rfl | rfl <;> rfl
    | arithmetic hop hl hsl hr hsr =>
      refine ⟨_, _, hl, hr, (BinOp.resultType_of_signature? ?_).mpr ⟨rfl, hsl, hsr⟩⟩
      rcases hop with rfl | rfl | rfl | rfl <;> rfl
  · rintro ⟨l, r, hl, hr, hop⟩
    cases op with
    | equal =>
      obtain ⟨rfl, hfl, hfr, hsub⟩ := BinOp.resultType_equal.mp hop
      exact .equal hl hr hfl hfr hsub
    | lessEqual | greaterEqual =>
      obtain ⟨rfl, hsl, hsr⟩ := (BinOp.resultType_of_signature? rfl).mp hop
      exact .order (by simp) hl hsl hr hsr
    | and | or =>
      obtain ⟨rfl, hsl, hsr⟩ := (BinOp.resultType_of_signature? rfl).mp hop
      exact .logic (by simp) hl hsl hr hsr
    | add | sub | mul | div =>
      obtain ⟨rfl, hsl, hsr⟩ := (BinOp.resultType_of_signature? rfl).mp hop
      exact .arithmetic (by simp) hl hsl hr hsr

theorem typed_iff_hasType (e : Expr) : ∀ t, c.Typed e t ↔ c.HasType e t := by
  induction e with
  | lit value pos =>
    intro t
    constructor
    · intro h
      cases h <;> exact .lit
    · intro h
      cases h
      cases value
      · exact .int
      · exact .bool
      · exact .null
  | name id x pos =>
    intro t
    constructor
    · intro h
      cases h with
      | name hu hf hk => exact .name hu (Ty.nameKind?_eq_none.mpr ⟨hf, hk⟩)
    · intro h
      cases h with
      | name hu hk => exact .name hu (Ty.nameKind?_eq_none.mp hk).1 (Ty.nameKind?_eq_none.mp hk).2
  | binary op left right pos ihl ihr =>
    intro t
    rw [typed_binary_iff]
    constructor
    · rintro ⟨l, r, hl, hr, hop⟩
      exact .binary ((ihl l).mp hl) ((ihr r).mp hr) hop
    · intro h
      cases h with
      | binary hl hr hop => exact ⟨_, _, (ihl _).mpr hl, (ihr _).mpr hr, hop⟩
  | not operand pos ih =>
    intro t
    constructor
    · intro h
      cases h with
      | not ho hsub => exact .not ((ih _).mp ho) hsub
    · intro h
      cases h with
      | not ho hsub => exact .not ((ih _).mpr ho) hsub
  | cond test yes no pos iht ihy ihn =>
    intro t
    constructor
    · intro h
      cases h with
      | cond hs hsub hy hn hjoin =>
        exact .cond ((iht _).mp hs) hsub ((ihy _).mp hy) ((ihn _).mp hn) hjoin
    · intro h
      cases h with
      | cond hs hsub hy hn hjoin =>
        exact .cond ((iht _).mpr hs) hsub ((ihy _).mpr hy) ((ihn _).mpr hn) hjoin
  | print operand pos ih =>
    intro t
    constructor
    · intro h
      cases h with
      | print ho => exact .print ((ih _).mp ho)
    · intro h
      cases h with
      | print ho => exact .print ((ih _).mpr ho)
  | call id callee args pos ih =>
    intro t
    constructor
    · intro h
      cases h with
      | call hu hsig hargs =>
        exact .call hu (Ty.signature?_eq_some.mpr hsig) ((argsTyped_iff_fits ih _).mp hargs)
    · intro h
      cases h with
      | call hu hsig hargs =>
        exact .call hu (Ty.signature?_eq_some.mp hsig) ((argsTyped_iff_fits ih _).mpr hargs)
  | send id receiver method args pos ih =>
    intro t
    constructor
    · intro h
      cases h with
      | send hu he hsig hargs =>
        exact .send hu he (Ty.signature?_eq_some.mpr hsig) ((argsTyped_iff_fits ih _).mp hargs)
    · intro h
      cases h with
      | send hu he hsig hargs =>
        exact .send hu he (Ty.signature?_eq_some.mp hsig) ((argsTyped_iff_fits ih _).mpr hargs)
  | new id cls args pos ih =>
    intro t
    constructor
    · intro h
      cases h with
      | @new _ _ _ _ _ e fields methods hu htype hargs =>
        have hshape : e.type.shape? = some ⟨fields, methods⟩ := Ty.shape?_eq_some.mpr htype
        exact .new hu hshape ((argsTyped_iff_fits ih _).mp hargs)
    · intro h
      cases h with
      | new hu hshape hargs =>
        exact .new hu (Ty.shape?_eq_some.mp hshape) ((argsTyped_iff_fits ih _).mpr hargs)

theorem bodyTyped_iff {ret : WrittenType} {body : Expr} : c.BodyTyped ret body ↔
    ∃ t, c.Typed body t ∧ t.subtypeOf c.ancestry ret.lower := by
  simp only [BodyTyped, typed_iff_hasType]

theorem declsOk_iff_declsTyped :
    (∀ d : Decl, c.DeclOk d ↔ c.DeclTyped d) ∧
    ∀ ds : List Decl, c.DeclsOk ds ↔ c.DeclsTyped ds := by
  apply Decl.induction
  · intro id name type init pos
    constructor
    · intro h
      cases h with
      | var hinit hsub => exact ⟨_, (typed_iff_hasType _ _).mp hinit, hsub⟩
    · rintro ⟨t, hinit, hsub⟩
      exact .var ((typed_iff_hasType _ _).mpr hinit) hsub
  · intro id name params ret decls body pos ih
    constructor
    · intro h
      cases h with
      | fn hdecls hbody hsub => exact ⟨ih.mp hdecls, bodyTyped_iff.mpr ⟨_, hbody, hsub⟩⟩
    · rintro ⟨hdecls, hbody⟩
      obtain ⟨t, hbody, hsub⟩ := bodyTyped_iff.mp hbody
      exact .fn (ih.mpr hdecls) hbody hsub
  · exact ⟨fun _ => trivial, fun _ => .nil⟩
  · intro d ds ihd ihs
    constructor
    · intro h
      cases h with
      | cons hd hds => exact ⟨ihd.mp hd, ihs.mp hds⟩
    · rintro ⟨hd, hds⟩
      exact .cons (ihd.mpr hd) (ihs.mpr hds)

end TypingContext

/-! Overriding. A member that is declared again is at the place of the inherited one, and a
new member is behind all inherited ones. -/

section Placed

variable {α β : Type}

/-- The place of an own name has the own item. -/
theorem getElem?_own (name : β → String) (item : β → α) {bs : List β}
    (hn : (bs.map name).Nodup) (base : List (String × α)) {b : β} (hb : b ∈ bs) :
    (bs.foldl (fun l b => placed (name b) (item b) l) base)[
      ((bs.foldl (fun l b => placed (name b) (item b) l) base).map Prod.fst).idxOf (name b)]? =
        some (name b, item b) := by
  have hfind : (bs.find? fun b' => name b' = name b) = some b := by
    cases hf : bs.find? fun b' => name b' = name b with
    | none => exact absurd (List.find?_eq_none.mp hf b hb) (by simp)
    | some b' =>
      have hname : name b' = name b := by simpa using List.find?_some hf
      rw [List.inj_on_of_nodup_map hn (List.mem_of_find?_eq_some hf) hb hname]
  apply getElem?_idxOf_of_lookup
  rw [lookup_foldl_placed name item bs hn, hfind]

/-- The place of a name among more names, in a list of the first of them. -/
theorem getElem?_of_prefix_names {l base : List (String × α)}
    (hp : base.map Prod.fst <+: l.map Prod.fst) {x : String} :
    (base[(l.map Prod.fst).idxOf x]?).map Prod.snd = base.lookup x := by
  by_cases hx : x ∈ base.map Prod.fst
  · obtain ⟨a, ha⟩ := lookup_isSome hx
    rw [ha, idxOf_of_prefix hp hx, getElem?_idxOf_of_lookup ha, Option.map_some]
  · obtain ⟨rest, hrest⟩ := hp
    have hlen : base.length ≤ (l.map Prod.fst).idxOf x := by
      rw [← hrest, List.idxOf_append_of_notMem hx, List.length_map]
      omega
    rw [lookup_eq_none.mpr hx, List.getElem?_eq_none hlen, Option.map_none]

end Placed

namespace TypingContext

variable {c : TypingContext} {d : ClassDecl} {base : Layout} {names : List String}
  {earlier : List ClassDecl}

theorem fieldOverride?_eq_none (hl : ClassLaid c.bindings names d earlier (d.over base))
    {f : Binder} (hf : f ∈ d.fields) :
    c.fieldOverride? d.name (d.over base).shape base.shape f = none ↔
      ∀ t, base.fields.lookup f.name = some t → f.type.lower.subtypeOf c.ancestry t := by
  obtain ⟨e, hdecl, hpos⟩ := hl.fields f hf
  have hown : (d.over base).fields[((d.over base).fields.map Prod.fst).idxOf f.name]? =
      some (f.name, f.type.lower) := getElem?_own _ _ hl.fieldNames base.fields hf
  have hinherited : (base.fields[((d.over base).fields.map Prod.fst).idxOf f.name]?).map Prod.snd =
      base.fields.lookup f.name := getElem?_of_prefix_names (names_foldl_placed _ _ _ _)
  simp only [fieldOverride?, hdecl, Option.bind_eq_bind, Option.bind_some, hpos, Layout.shape,
    List.getElem?_map, hown, Option.map_some, hinherited]
  cases base.fields.lookup f.name with
  | none => simp
  | some t => simp

theorem methodOverride?_eq_none (hl : ClassLaid c.bindings names d earlier (d.over base))
    {m : MethodDecl} (hm : m ∈ d.methods) :
    c.methodOverride? d.name (d.over base).shape base.shape m = none ↔
      ∀ k, base.methods.lookup m.name = some k →
        m.signature.subtypeOf c.ancestry k.decl.signature := by
  obtain ⟨slot, hslot, hpos⟩ := hl.slots m hm
  have hown : (d.over base).methods[slot.index]? = some (m.name, ⟨d.name, m⟩) := by
    rw [hpos]
    exact getElem?_own _ _ hl.methodNames base.methods hm
  have hinherited : (base.methods[slot.index]?).map Prod.snd = base.methods.lookup m.name := by
    rw [hpos]
    exact getElem?_of_prefix_names (names_foldl_placed _ _ _ _)
  have hsignature : (base.methods[slot.index]?).map (fun k => k.2.decl.signature) =
      (base.methods.lookup m.name).map fun k => k.decl.signature := by
    rw [← hinherited, Option.map_map]
    rfl
  simp only [methodOverride?, hslot, Option.bind_eq_bind, Option.bind_some, Layout.shape,
    List.getElem?_map, hown, Option.map_some, hsignature]
  cases base.methods.lookup m.name with
  | none => simp
  | some k => simp

end TypingContext

namespace Program

variable {p : Program}

/-- A class has no misfits if its members have subtypes of those of the same name in its
superclass. -/
theorem Resolved.overrides_iff {c : TypingContext} (hp : p.Resolved c.bindings c.ancestry)
    {d : ClassDecl} (hd : d ∈ p.classes) {parent : String} (hparent : d.parent? = some parent) :
    c.Overrides d parent ↔ c.misfits d = [] := by
  obtain ⟨l, hl, -⟩ := hp.methods d hd
  obtain ⟨d', earlier, base, hfound, -, hbase, rfl, hlaid, hshapes⟩ :=
    hp.laid_over ((hp.parent_eq hd).trans hparent) hl
  obtain ⟨earlier', hfound'⟩ := class?_of_mem hp.distinct (List.mem_reverse.mpr hd)
  obtain ⟨rfl, rfl⟩ := Prod.mk.inj (Option.some.inj (hfound.symm.trans hfound'))
  -- What a class declares is not inherited as a member of the other kind.
  have hapart : ∀ x, x ∈ (d'.over base).fields.map Prod.fst →
      x ∈ (d'.over base).methods.map Prod.fst → False := by
    intro x hf hm
    exact (List.nodup_append.mp hlaid.distinct).2.2 _ hf _ hm rfl
  have hfield : ∀ f ∈ d'.fields, base.methods.lookup f.name = none := by
    intro f hf
    rw [lookup_eq_none]
    intro hin
    exact hapart f.name ((mem_names_foldl_placed _ _ _ _ _).mpr (Or.inl (List.mem_map_of_mem hf)))
      ((mem_names_foldl_placed _ _ _ _ _).mpr (Or.inr hin))
  have hmethod : ∀ m ∈ d'.methods, base.fields.lookup m.name = none := by
    intro m hm
    rw [lookup_eq_none]
    intro hin
    exact hapart m.name ((mem_names_foldl_placed _ _ _ _ _).mpr (Or.inr hin))
      ((mem_names_foldl_placed _ _ _ _ _).mpr (Or.inl (List.mem_map_of_mem hm)))
  simp only [TypingContext.misfits, hshapes, List.append_eq_nil_iff, List.filterMap_eq_nil_iff]
  constructor
  · intro h
    constructor
    · intro f hf
      rw [TypingContext.fieldOverride?_eq_none hlaid hf]
      intro t ht
      exact h.fields f hf _ (by rw [hp.member?_eq hbase, Layout.lookup_scope, ht]; rfl)
    · intro m hm
      rw [TypingContext.methodOverride?_eq_none hlaid hm]
      intro k hk
      exact h.methods m hm _ (by
        rw [hp.member?_eq hbase, Layout.lookup_scope, hmethod m hm, hk]; rfl)
  · rintro ⟨hfields, hmethods⟩
    constructor
    · intro f hf e he
      rw [hp.member?_eq hbase] at he
      rcases Layout.lookup_scope_cases he with ⟨t, ht, rfl⟩ | ⟨k, hk, -⟩
      · exact (TypingContext.fieldOverride?_eq_none hlaid hf).mp (hfields f hf) t ht
      · rw [hfield f hf] at hk
        cases hk
    · intro m hm e he
      rw [hp.member?_eq hbase] at he
      rcases Layout.lookup_scope_cases he with ⟨t, ht, -⟩ | ⟨k, hk, rfl⟩
      · rw [hmethod m hm] at ht
        cases ht
      · exact (TypingContext.methodOverride?_eq_none hlaid hm).mp (hmethods m hm) k hk

/-- Without a superclass there is nothing to override. -/
theorem Resolved.misfits_of_root {c : TypingContext} (hp : p.Resolved c.bindings c.ancestry)
    {d : ClassDecl} (hd : d ∈ p.classes) (hroot : d.parent? = none) : c.misfits d = [] := by
  obtain ⟨earlier, hfound⟩ := class?_of_mem hp.distinct (List.mem_reverse.mpr hd)
  obtain ⟨l, hlaid⟩ := hp.classes _ _ _ hfound
  obtain ⟨record, -, -, -, hrow⟩ := hlaid.record
  simp [TypingContext.misfits, TypingContext.shapes?, hrow, hroot]

/-- Where all names are bound, a program is well typed if it obeys the rules that follow
the check. -/
theorem Resolved.wellTyped_iff {c : TypingContext} (hp : p.Resolved c.bindings c.ancestry)
    {t : Ty} : c.WellTyped p t ↔ c.ProgramTyped p t := by
  have hmisfits : ∀ d ∈ p.classes,
      (∀ parent, d.parent? = some parent → c.Overrides d parent) ↔ c.misfits d = [] := by
    intro d hd
    cases hparent : d.parent? with
    | none => simp [hp.misfits_of_root hd hparent]
    | some parent => simp [← hp.overrides_iff hd hparent]
  have hdecls := (TypingContext.declsOk_iff_declsTyped (c := c)).2
  constructor
  · rintro ⟨hmethods, hoverrides, hds, hbody⟩
    refine ⟨?_, ?_, (hdecls _).mp hds, (TypingContext.typed_iff_hasType _ _).mp hbody⟩
    · intro d hd m hm
      obtain ⟨hlocals, hret⟩ := hmethods d hd m hm
      exact ⟨(hdecls _).mp hlocals, TypingContext.bodyTyped_iff.mpr hret⟩
    · intro d hd
      exact (hmisfits d hd).mp (hoverrides d hd)
  · rintro ⟨hmethods, hoverrides, hds, hbody⟩
    refine ⟨?_, ?_, (hdecls _).mpr hds, (TypingContext.typed_iff_hasType _ _).mpr hbody⟩
    · intro d hd m hm
      obtain ⟨hlocals, hret⟩ := hmethods d hd m hm
      exact ⟨(hdecls _).mpr hlocals, TypingContext.bodyTyped_iff.mp hret⟩
    · intro d hd
      exact (hmisfits d hd).mpr (hoverrides d hd)

end Program

end Classlet
