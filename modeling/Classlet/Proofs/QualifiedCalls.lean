import Classlet.Proofs.Correctness
import Classlet.Proofs.Dispatch
import Classlet.Proofs.Hierarchy
import Classlet.Proofs.StaticChain
import Classlet.Proofs.Uninhabited

/-!
The members that method calls are bound to. A method call takes what the class of its
receiver has under the name, and the typing rules only ask for a signature. So it is bound
to a slot of the dispatch table exactly if the class or a class above it declares a method
of the name. Otherwise it is bound to a field of a function type, and what is taken for its
slot is the negative offset of the field.
-/

namespace Classlet

open Ancestry

/-! Every expression is bound somewhere. -/

theorem Decl.AllBound.part {b : Bindings} :
    (∀ (d : Decl) (frame : List (String × Entry)) (Γ : Nest Entry) (k : Nat),
      d.Bound b frame Γ k → ∀ x ∈ d.parts, ∃ Δ, x.Bound b Δ) ∧
    ∀ (ds : List Decl) (frame : List (String × Entry)) (Γ : Nest Entry) (k : Nat),
      Decl.AllBound b ds frame Γ k → ∀ x ∈ Decl.partsOfAll ds, ∃ Δ, x.Bound b Δ := by
  apply Decl.induction
  · intro id name type init pos frame Γ k hb x hx
    exact ⟨frame :: Γ, Expr.Bound.part hb x hx⟩
  · intro id name params ret decls body pos ih frame Γ k hb x hx
    rw [Decl.bound_fn] at hb
    rcases List.mem_append.mp hx with hx | hx
    · exact ih _ _ _ hb.1 x hx
    · exact ⟨_, hb.2.1.part x hx⟩
  · intro frame Γ k _ x hx
    cases hx
  · intro d ds ihd ihs frame Γ k hb x hx
    rcases List.mem_append.mp hx with hx | hx
    · exact ihd frame Γ k hb.1 x hx
    · exact ihs _ Γ _ hb.2 x hx

namespace Program

variable {p : Program} {b : Bindings} {h : Ancestry}

theorem Resolved.part (hp : p.Resolved b h) : ∀ x ∈ p.parts, ∃ Δ, x.Bound b Δ := by
  intro x hx
  rcases List.mem_append.mp hx with hx | hx
  · obtain ⟨d, hd, hx⟩ := List.mem_flatMap.mp hx
    obtain ⟨m, hm, hx⟩ := List.mem_flatMap.mp hx
    obtain ⟨l, -, hbound⟩ := hp.methods d hd
    rcases List.mem_append.mp hx with hx | hx
    · exact Decl.AllBound.part.2 _ _ _ _ (hbound m hm).1 x hx
    · exact ⟨_, (hbound m hm).2.1.part x hx⟩
  · rcases List.mem_append.mp hx with hx | hx
    · exact Decl.AllBound.part.2 _ _ _ _ hp.decls x hx
    · exact ⟨_, hp.body.part x hx⟩

/-! The declarations behind the members of a class. -/

/-- The class, or a class above it, declares a method of the name. -/
def DeclaresMethod (p : Program) (h : Ancestry) (cls x : String) : Prop :=
  ∃ d ∈ p.classes, h.descends cls d.name ∧ x ∈ d.methods.map MethodDecl.name

/-- The class, or a class above it, declares a field of the name and the type. -/
def DeclaresField (p : Program) (h : Ancestry) (cls x : String) (t : Ty) : Prop :=
  ∃ d ∈ p.classes, h.descends cls d.name ∧ ∃ f ∈ d.fields, f.name = x ∧ f.type.lower = t

end Program

/-- The entry is one of a method, in a slot of the dispatch tables of the shape. -/
structure Entry.InTable (e : Entry) (shape : ClassShape) : Prop where
  isMethod : e.isMethod = true
  low : 0 ≤ e.offset
  high : e.offset < shape.methods.length

theorem mem_foldl_placed {α β : Type} {name : β → String} {item : β → α} {bs : List β}
    {l : List (String × α)} {q : String × α}
    (hq : q ∈ bs.foldl (fun l b => placed (name b) (item b) l) l) :
    (∃ b ∈ bs, q = (name b, item b)) ∨ q ∈ l := by
  induction bs generalizing l with
  | nil => exact Or.inr hq
  | cons b bs ih =>
    rcases ih hq with ⟨b', hb', rfl⟩ | hq
    · exact Or.inl ⟨b', List.mem_cons_of_mem _ hb', rfl⟩
    · rcases mem_placed hq with rfl | hq
      · exact Or.inl ⟨b, List.mem_cons_self, rfl⟩
      · exact Or.inr hq

namespace Program

variable {p : Program}

/-- A field in the layout of a class is declared by the class or by a class above it. -/
theorem Resolved.field_above {b : Bindings} {h : Ancestry} (hp : p.Resolved b h)
    {rest : List ClassDecl} (hs : rest <:+ p.classes.reverse) {cls x : String} {t : Ty}
    {l : Layout} (hl : layout? rest cls = some l) (hx : (x, t) ∈ l.fields) :
    p.DeclaresField h cls x t := by
  induction rest generalizing cls l with
  | nil => cases hl
  | cons d earlier ih =>
    have hearlier : earlier <:+ p.classes.reverse := (List.suffix_cons d earlier).trans hs
    have hd : d ∈ p.classes := List.mem_reverse.mp (hs.subset List.mem_cons_self)
    by_cases hc : d.name = cls
    · subst hc
      have hown : ∀ base : Layout, (x, t) ∈ (d.over base).fields →
          p.DeclaresField h d.name x t ∨ (x, t) ∈ base.fields := by
        intro base hx
        rcases mem_foldl_placed hx with ⟨f, hf, heq⟩ | hx
        · obtain ⟨rfl, rfl⟩ := Prod.mk.inj heq
          exact Or.inl ⟨d, hd, descends_iff_below.mpr .refl, f, hf, rfl, rfl⟩
        · exact Or.inr hx
      rw [layout?, if_pos rfl] at hl
      cases hparent : d.parent? with
      | none =>
        simp only [hparent, Option.some.injEq] at hl
        subst hl
        exact (hown _ hx).resolve_right List.not_mem_nil
      | some s =>
        simp only [hparent] at hl
        obtain ⟨base, hbase, rfl⟩ := Option.map_eq_some_iff.mp hl
        rcases hown _ hx with hdeclares | hx
        · exact hdeclares
        · obtain ⟨d', hd', hdesc, hf⟩ := ih hearlier hbase hx
          have hup : h.parent? d.name = some s := (hp.parent_eq hd).trans hparent
          exact ⟨d', hd', descends_iff_below.mpr (.head hup (descends_iff_below.mp hdesc)), hf⟩
    · rw [layout?, if_neg hc] at hl
      exact ih hearlier hl hx

/-- The methods in the layout of a class are those that the class and the classes above it
declare. -/
theorem Resolved.method_above {c : TypingContext} {t : Ty}
    (hp : p.Resolved c.bindings c.ancestry) (ht : c.ProgramTyped p t) {cls : String} {l : Layout}
    (hl : layout? p.classes.reverse cls = some l) (x : String) :
    x ∈ l.methods.map Prod.fst ↔ p.DeclaresMethod c.ancestry cls x := by
  constructor
  · intro hx
    obtain ⟨k, hk⟩ := lookup_isSome hx
    rw [hp.lookup_methods hl] at hk
    obtain ⟨owner, hnear, -⟩ :=
      nearest_of_nearest? hp.distinct hp.parents (List.suffix_refl _) hk
    obtain ⟨n, hup, -⟩ := hnear.nearest
    refine ⟨owner, hnear.declared, descends_iff_below.mpr (below_iff_up?.mpr ⟨n, hup⟩), ?_⟩
    rw [← hnear.named]
    exact List.mem_map_of_mem hnear.method
  · rintro ⟨d, hd, hdesc, hx⟩
    obtain ⟨l', hl', hrefines⟩ := refines_below hp ht (descends_iff_below.mp hdesc) hl
    -- The layout of the class above has the method, and the layout below keeps its place.
    have hown : x ∈ l'.methods.map Prod.fst := by
      obtain ⟨d', earlier, hfound, -, hlaid⟩ := hp.laid hl'
      obtain ⟨earlier', hfound'⟩ := class?_of_mem hp.distinct (List.mem_reverse.mpr hd)
      obtain ⟨rfl, rfl⟩ := Prod.mk.inj (Option.some.inj (hfound.symm.trans hfound'))
      have hlay := hlaid.layout
      rw [layout?, if_pos rfl] at hlay
      cases hparent : d'.parent? with
      | none =>
        simp only [hparent, Option.some.injEq] at hlay
        subst hlay
        exact (mem_names_foldl_placed _ _ _ _ _).mpr (Or.inl hx)
      | some s =>
        simp only [hparent] at hlay
        obtain ⟨base, -, rfl⟩ := Option.map_eq_some_iff.mp hlay
        exact (mem_names_foldl_placed _ _ _ _ _).mpr (Or.inl hx)
    obtain ⟨k, hk⟩ := lookup_isSome hown
    obtain ⟨k', hk', -⟩ := hrefines.methods _ _ _ (getElem?_idxOf_of_lookup hk)
    exact List.mem_map_of_mem (List.mem_of_getElem? hk')

end Program

/-- What a method call is bound to is of a function type if it is no method. -/
theorem TypingContext.HasType.arrow_of_send {c : TypingContext} {id : NodeId}
    {receiver method : String} {args : List Expr} {pos : Position} {t : Ty} {u : SendUse}
    {e : Entry} (ht : c.HasType (.send id receiver method args pos) t)
    (hu : c.bindings.sends[id]? = some u) (he : c.bindings.entry? u.method = some e)
    (hplain : e.isMethod = false) : ∃ sig, e.type = .arrow sig := by
  cases ht with
  | send hu' he' hsig _ =>
    obtain rfl := Option.some.inj (hu.symm.trans hu')
    obtain rfl := Option.some.inj (he.symm.trans he')
    unfold Entry.isMethod at hplain
    cases htype : e.type with
    | arrow sig => exact ⟨sig, rfl⟩
    | method => simp [htype, Ty.isMethod] at hplain
    | int | bool | ref | cls | null => simp [htype, Ty.signature?] at hsig

/-- In a program that compiles, a method call is bound to a slot of the dispatch table of the
class of its receiver exactly if that class or a class above it declares a method of the
name. Otherwise it is bound to a field of a function type, at the offset of the field. -/
theorem Program.sent_member_cases (p : Program) (o : Options) (hn : p.ids.Nodup)
    (he : (p.compile o).errors = []) {id : NodeId} {receiver method : String} {args : List Expr}
    {pos : Position} (hx : Expr.send id receiver method args pos ∈ p.parts) :
    ∃ u target cls shape e, p.resolve.bindings.sends[id]? = some u ∧
      p.resolve.bindings.entry? u.receiver.entry = some target ∧ target.type = .ref cls ∧
      p.resolve.bindings.shape? cls = some shape ∧
      p.resolve.bindings.member? cls method = some e ∧
      p.resolve.bindings.entry? u.method = some e ∧
      (e.InTable shape ↔ p.DeclaresMethod p.resolve.ancestry cls method) ∧
      (¬ p.DeclaresMethod p.resolve.ancestry cls method →
        ∃ sig, e.type = .arrow sig ∧ p.DeclaresField p.resolve.ancestry cls method e.type ∧
          -(shape.fields.length : Int) ≤ e.offset ∧ e.offset ≤ -1) := by
  obtain ⟨listing, t, hp, ht, -⟩ := p.clean o hn he
  obtain ⟨Δ, hb⟩ := hp.part _ hx
  obtain ⟨s, hs⟩ := ht.part _ hx
  obtain ⟨⟨target, seen, cls, e, -, href, hm, u, hu, -, htarget, hentry⟩, -⟩ := hb
  obtain ⟨l, hl, hlookup⟩ := hp.member_eq hm
  obtain ⟨d, earlier, -, -, hlaid⟩ := hp.laid hl
  refine ⟨u, target, cls, l.shape, e, hu, htarget, href, hp.shape_eq hl, hm, hentry, ?_⟩
  have habove : method ∈ l.methods.map Prod.fst ↔ p.DeclaresMethod p.resolve.ancestry cls method :=
    hp.method_above ht hl method
  rw [← habove]
  rcases Layout.lookup_scope_cases hlookup with ⟨ty, hty, rfl⟩ | ⟨k, hk, rfl⟩
  · have hplain : ty.isMethod = false := hlaid.plain _ (mem_of_lookup hty)
    have hmem : method ∈ l.fields.map Prod.fst := List.mem_map_of_mem (mem_of_lookup hty)
    -- The names of fields and methods are distinct.
    have hnot : method ∉ l.methods.map Prod.fst := by
      intro hin
      exact (List.nodup_append.mp hlaid.distinct).2.2 _ hmem _ hin rfl
    refine ⟨⟨fun hin => ?_, fun hin => absurd hin hnot⟩, fun _ => ?_⟩
    · exact absurd (hplain.symm.trans hin.isMethod) Bool.false_ne_true
    · obtain ⟨sig, hsig⟩ := hs.arrow_of_send hu hentry hplain
      have hlt := List.idxOf_lt_length_of_mem hmem
      rw [List.length_map] at hlt
      refine ⟨sig, hsig, hp.field_above (List.suffix_refl _) hl (mem_of_lookup hty), ?_, ?_⟩
      · simp only [Layout.fieldEntry, Layout.shape, List.length_map]
        omega
      · simp only [Layout.fieldEntry]
        omega
  · have hmem : method ∈ l.methods.map Prod.fst := List.mem_map_of_mem (mem_of_lookup hk)
    have hlt := List.idxOf_lt_length_of_mem hmem
    rw [List.length_map] at hlt
    refine ⟨⟨fun _ => hmem, fun _ => ⟨rfl, ?_, ?_⟩⟩, fun hnot => absurd hmem hnot⟩
    · simp only [Layout.methodEntry]
      omega
    · simp only [Layout.methodEntry, Layout.shape, List.length_map]
      omega

/-- A class with a field of a function type and a method, and calls of both. -/
def fieldCallProgram : Program :=
  let pos := Position.ofLine 1
  { classes := [
      { id := 2, name := "A", parent? := none, pos
        fields := [⟨0, "f", .arrow ⟨[], .int pos⟩ pos, pos⟩]
        methods := [{ id := 1, name := "m", params := [], ret := .int pos, decls := []
                      body := .lit (.int 7) pos, pos }] }]
    decls := [.var 3 "a" (.named "A" pos) (.lit .null pos) pos]
    body := .binary .add (.send 4 "a" "f" [] pos) (.send 5 "a" "m" [] pos) pos
    pos }

/-- The call of the field compiles, and it is bound to no slot. -/
theorem fieldCallProgram_no_slot : fieldCallProgram.ids.Nodup ∧
    (fieldCallProgram.compile {}).errors = [] ∧
    ((fieldCallProgram.resolve.bindings.sends[4]?.bind fun u =>
      fieldCallProgram.resolve.bindings.entry? u.method).map fun e => (e.isMethod, e.offset)) =
      some (false, -1) := by
  refine ⟨?_, ?_, ?_⟩ <;> decide +kernel

/-- The call of the method is bound to a slot and that of the field to the field. -/
theorem fieldCallProgram_members :
    (∃ u shape e, fieldCallProgram.resolve.bindings.sends[5]? = some u ∧
      fieldCallProgram.resolve.bindings.shape? "A" = some shape ∧
      fieldCallProgram.resolve.bindings.entry? u.method = some e ∧ e.InTable shape) ∧
    ∃ u e sig, fieldCallProgram.resolve.bindings.sends[4]? = some u ∧
      fieldCallProgram.resolve.bindings.entry? u.method = some e ∧ e.type = .arrow sig ∧
      e.offset ≤ -1 := by
  have hids : fieldCallProgram.ids.Nodup := by decide +kernel
  have he : (fieldCallProgram.compile {}).errors = [] := by decide +kernel
  have hreceiver : ∀ n ∈ [4, 5], (fieldCallProgram.resolve.bindings.sends[n]?.bind fun u =>
      fieldCallProgram.resolve.bindings.entry? u.receiver.entry).map Entry.type =
        some (.ref "A") := by
    decide +kernel
  have hmethod : Expr.send 5 "a" "m" [] (Position.ofLine 1) ∈ fieldCallProgram.parts :=
    List.mem_of_getElem? (i := 4) rfl
  have hfield : Expr.send 4 "a" "f" [] (Position.ofLine 1) ∈ fieldCallProgram.parts :=
    List.mem_of_getElem? (i := 3) rfl
  constructor
  · obtain ⟨u, target, cls, shape, e, hu, htarget, href, hshape, -, hentry, hslot, -⟩ :=
      fieldCallProgram.sent_member_cases {} hids he hmethod
    have hcls := hreceiver 5 (by simp)
    rw [hu, Option.bind_some, htarget, Option.map_some, href] at hcls
    obtain rfl := Ty.ref.inj (Option.some.inj hcls)
    refine ⟨u, shape, e, hu, hshape, hentry, hslot.mpr ?_⟩
    exact ⟨_, List.mem_singleton_self _, by decide +kernel, List.mem_singleton_self _⟩
  · obtain ⟨u, target, cls, shape, e, hu, htarget, href, -, -, hentry, -, hother⟩ :=
      fieldCallProgram.sent_member_cases {} hids he hfield
    have hcls := hreceiver 4 (by simp)
    rw [hu, Option.bind_some, htarget, Option.map_some, href] at hcls
    obtain rfl := Ty.ref.inj (Option.some.inj hcls)
    have hnot : ¬ fieldCallProgram.DeclaresMethod fieldCallProgram.resolve.ancestry "A" "f" := by
      rintro ⟨d, hd, -, hf⟩
      rw [List.mem_singleton.mp hd] at hf
      exact absurd hf (by decide)
    obtain ⟨sig, hsig, -, -, hoffset⟩ := hother hnot
    exact ⟨u, e, sig, hu, hentry, hsig, hoffset⟩

end Classlet
