import Classlet.Proofs.Descent
import Classlet.Proofs.MemberPlaces
import Classlet.Proofs.Soundness
import Classlet.Proofs.Tables

/-!
Dispatch tables agree with the slots of methods. Once the classes of a program
are generated, the table of a class has one label for each method of its shape.
The label in the slot of a method leads to the code of the nearest declaration of
the method, from the class itself upwards; where the class has no declaration of
its own, that is the label of its superclass.
-/

namespace Classlet

/-! The nearest declaration of a method. -/

/-- The class declares the method of the given name, and no class between it and
the class `cls` below does. -/
structure Program.Nearest (p : Program) (h : Ancestry) (cls x : String) (owner : ClassDecl)
    (decl : MethodDecl) : Prop where
  declared : owner ∈ p.classes
  method : decl ∈ owner.methods
  named : decl.name = x
  nearest : ∃ n, h.up? n cls = some owner.name ∧ ∀ k < n, ∀ c ∈ p.classes,
    h.up? k cls = some c.name → x ∉ c.methods.map MethodDecl.name

/-- The method that a class answers with is the nearest one. -/
theorem nearest_of_nearest? {p : Program} {h : Ancestry}
    (hn : (p.classes.reverse.map ClassDecl.name).Nodup)
    (hpar : ∀ cls, h.parent? cls = (class? p.classes.reverse cls).bind fun q => q.1.parent?)
    {rest : List ClassDecl} (hs : rest <:+ p.classes.reverse) {cls x : String}
    {k : Implementation} (hk : nearest? rest cls x = some k) :
    ∃ owner, p.Nearest h cls x owner k.decl ∧ owner.name = k.owner := by
  induction rest generalizing cls with
  | nil => simp [nearest?] at hk
  | cons d earlier ih =>
    have hearlier : earlier <:+ p.classes.reverse := (List.suffix_cons d earlier).trans hs
    have hd : d ∈ p.classes := List.mem_reverse.mp (hs.subset List.mem_cons_self)
    by_cases hc : d.name = cls
    · simp only [nearest?, hc, if_true] at hk
      split at hk
      · rename_i m hm
        cases hk
        have hname : m.name = x := by simpa using List.find?_some hm
        refine ⟨d, ⟨hd, List.mem_of_find?_eq_some hm, hname, 0, by rw [hc]; rfl, ?_⟩, hc⟩
        intro k hk
        omega
      · rename_i hnone
        obtain ⟨parent, hparent, hk⟩ := Option.bind_eq_some_iff.mp hk
        obtain ⟨owner, hnear, hname⟩ := ih hearlier hk
        obtain ⟨n, hup, hbelow⟩ := hnear.nearest
        have hfound : class? p.classes.reverse cls = some (d, earlier) :=
          Program.class?_of_suffix hs hn (by simp [class?, hc])
        have hstep : ∀ m, h.up? (m + 1) cls = h.up? m parent := by
          intro m
          rw [Ancestry.up?, hpar, hfound]
          simp [hparent]
        refine ⟨owner, ⟨hnear.declared, hnear.method, hnear.named, n + 1, ?_, ?_⟩, hname⟩
        · rw [hstep]
          exact hup
        · intro k hk c hcmem hck
          cases k with
          | zero =>
            -- The class itself, which has no declaration of the method.
            have hcname : c.name = cls := (Option.some.inj hck).symm
            obtain ⟨before, hcfound⟩ := class?_of_mem hn (List.mem_reverse.mpr hcmem)
            rw [hcname, hfound] at hcfound
            cases hcfound
            intro hx
            obtain ⟨m, hm, hmx⟩ := List.mem_map.mp hx
            exact absurd (List.find?_eq_none.mp hnone m hm) (by simp [hmx])
          | succ k =>
            rw [hstep] at hck
            exact hbelow k (by omega) c hcmem hck
    · simp only [nearest?, hc, if_false] at hk
      exact ih hearlier hk

/-! Slots that are not filled keep their labels. -/

theorem getElem?_fill_of_ne {table : List Label} {slot i : Nat} {q : Label} (hi : i < table.length)
    (hne : slot ≠ i) : (ClassCode.fill table (slot, q))[i]? = table[i]? := by
  simp only [ClassCode.fill]
  split
  · exact List.getElem?_set_ne hne
  · exact List.getElem?_append_left hi

theorem length_le_fill (table : List Label) (q : Nat × Label) :
    table.length ≤ (ClassCode.fill table q).length := by
  obtain ⟨slot, label⟩ := q
  simp only [ClassCode.fill]
  split <;> simp

theorem getElem?_foldl_fill {qs : List (Nat × Label)} {i : Nat} (hqs : ∀ q ∈ qs, q.1 ≠ i) :
    ∀ table : List Label, i < table.length → (qs.foldl ClassCode.fill table)[i]? = table[i]? := by
  induction qs with
  | nil =>
    intro table _
    rfl
  | cons q qs ih =>
    intro table hi
    have hle := length_le_fill table q
    rw [List.foldl_cons, ih (fun q' hq' => hqs q' (List.mem_cons_of_mem _ hq')) _ (by omega)]
    exact getElem?_fill_of_ne hi (hqs q (by simp))

/-! Tables. -/

/-- The code of a program has the code of a method of the class under a label, the
one that was generated for the method. -/
structure BlockOf (p : Program) (t : Target) (L : Listing) (done : Emit.Classes)
    (owner : ClassDecl) (decl : MethodDecl) (label : Label) : Prop where
  generated : ∃ code slot, done[owner.name]? = some code ∧
    (decl, slot, label) ∈ owner.methods.zip code.methods
  block : RoutineAt t L p label decl.params decl.decls decl.body

/-- What the dispatch table of a class has to be, among the tables of all classes. -/
structure DispatchTable (p : Program) (t : Target) (h : Ancestry) (L : Listing)
    (done : Emit.Classes) (c : ClassDecl) (table : List Label) : Prop where
  length : ∃ shape, t.bindings.shape? c.name = some shape ∧ table.length = shape.methods.length
  labels : ∀ x e (slot : Nat), t.bindings.member? c.name x = some e → e.isMethod = true →
    e.offset = slot → ∃ owner decl label, p.Nearest h c.name x owner decl ∧
      BlockOf p t L done owner decl label ∧ table[slot]? = some label
  inherited : ∀ parent, h.parent? c.name = some parent → ∃ above, done[parent]? = some above ∧
    ∀ x e (slot : Nat), t.bindings.member? parent x = some e → e.isMethod = true →
      e.offset = slot → x ∉ c.methods.map MethodDecl.name → table[slot]? = above.table[slot]?

section

variable {p : Program} {t : Target} {h : Ancestry} {L : Listing} {done : Emit.Classes}

/-- A method of a class is in its layout, in the slot of its entry. -/
theorem Program.Resolved.method_at (hp : p.Resolved t.bindings h) {cls x : String} {e : Entry}
    (he : t.bindings.member? cls x = some e) (hkind : e.isMethod = true) {slot : Nat}
    (hslot : e.offset = slot) {l : Layout} (hl : layout? p.classes.reverse cls = some l) :
    ∃ k, l.methods.lookup x = some k ∧ (l.methods.map Prod.fst).idxOf x = slot := by
  obtain ⟨l', hl', hlookup⟩ := hp.member_eq he
  rw [hl] at hl'
  cases hl'
  obtain ⟨d, earlier, -, -, hlaid⟩ := hp.laid hl
  rcases Layout.lookup_scope_cases hlookup with ⟨ty, hty, rfl⟩ | ⟨k, hk, rfl⟩
  · have hplain : ty.isMethod = false := hlaid.plain _ (mem_of_lookup hty)
    exact absurd (hplain.symm.trans hkind) Bool.false_ne_true
  · simp only [Layout.methodEntry] at hslot
    exact ⟨k, hk, by omega⟩

/-- The label in the slot of a method is that of its nearest declaration. -/
theorem Dispatches.label {cls x : String} {l : Layout} {table : List Label}
    (hd : Dispatches p t L done l table) (hp : p.Resolved t.bindings h)
    (hl : layout? p.classes.reverse cls = some l) {k : Implementation}
    (hk : l.methods.lookup x = some k) :
    ∃ owner decl label, p.Nearest h cls x owner decl ∧ BlockOf p t L done owner decl label ∧
      table[(l.methods.map Prod.fst).idxOf x]? = some label := by
  have hnearest : nearest? p.classes.reverse cls x = some k :=
    (hp.lookup_methods hl x).symm.trans hk
  obtain ⟨owner, hnear, hname⟩ :=
    nearest_of_nearest? hp.distinct hp.parents (List.suffix_refl _) hnearest
  obtain ⟨q, hq, ⟨c, hc, hcname, hcode⟩, hroutine⟩ :=
    forall₂_getElem? hd (getElem?_idxOf_of_lookup hk)
  -- The class that the label was generated in is the one that is nearest.
  have hsame : c = owner := by
    obtain ⟨before, hcfound⟩ := class?_of_mem hp.distinct (List.mem_reverse.mpr hc)
    obtain ⟨before', hofound⟩ := class?_of_mem hp.distinct (List.mem_reverse.mpr hnear.declared)
    rw [hcname] at hcfound
    rw [hname, hcfound] at hofound
    cases hofound
    rfl
  subst hsame
  exact ⟨c, k.decl, q, hnear, ⟨hcode, hroutine⟩, hq⟩

/-- The slot of a method that a class takes over is in the table of its
superclass, and none of its own methods is put there. -/
theorem ClassDone.inherited_label {before after : List ClassDecl} {c : ClassDecl}
    {code above : ClassCode} (hc : ClassDone p t h L done c code)
    (hp : p.Resolved t.bindings h) (hs : p.classes = before ++ c :: after)
    {parent x : String} {base : Layout} {k : Implementation}
    (hparent : h.parent? c.name = some parent) (habove : done[parent]? = some above)
    (hbase : layout? p.classes.reverse parent = some base)
    (hd : Dispatches p t L done base above.table) (hk : base.methods.lookup x = some k)
    (hx : x ∉ c.methods.map MethodDecl.name) :
    code.table[(base.methods.map Prod.fst).idxOf x]? =
      above.table[(base.methods.map Prod.fst).idxOf x]? := by
  obtain ⟨inherited, htable, hinherited⟩ := hc.table
  rw [hparent] at hinherited
  obtain ⟨above', habove', rfl⟩ := hinherited
  rw [habove] at habove'
  cases habove'
  obtain ⟨base', -, hslots, hbase'⟩ := hp.layout_over hs
  rw [hparent] at hbase'
  simp only at hbase'
  rw [hbase] at hbase'
  cases hbase'
  have hmem : x ∈ base.methods.map Prod.fst := List.mem_map_of_mem (mem_of_lookup hk)
  have hover : base.methods.map Prod.fst <+: (c.over base).methods.map Prod.fst :=
    names_foldl_placed MethodDecl.name (Implementation.mk c.name) c.methods base.methods
  rw [htable]
  refine getElem?_foldl_fill ?_ above.table ?_
  · intro q hq hqx
    obtain ⟨i, hi, rfl⟩ := List.mem_iff_getElem.mp hq
    obtain ⟨hlength, hpairs⟩ := List.forall₂_iff_zip.mp hc.methods
    have hi' : i < c.methods.length := by omega
    have hzip : (c.methods[i], code.methods[i]) ∈ c.methods.zip code.methods := by
      rw [List.mem_iff_getElem]
      exact ⟨i, by simp [hi, hlength], by simp⟩
    obtain ⟨⟨slot, hslot, hfirst⟩, -⟩ := hpairs hzip
    obtain ⟨slot', hslot', hindex⟩ := hslots _ (List.of_mem_zip hzip).1
    rw [hslot] at hslot'
    cases hslot'
    rw [hfirst, hindex, ← idxOf_of_prefix hover hmem] at hqx
    have hsame := (List.idxOf_inj (hover.subset hmem)).mp hqx.symm
    exact hx (List.mem_map.mpr ⟨_, (List.of_mem_zip hzip).1, hsame.symm⟩)
  · have hlt := List.idxOf_lt_length_iff.mpr hmem
    rw [List.length_map] at hlt
    have hlen := hd.length_eq
    omega

/-- The table of every class is as it has to be. -/
theorem ClassesDone.dispatchTable (hdone : ClassesDone p t h L done p.classes)
    (hp : p.Resolved t.bindings h) {c : ClassDecl} (hc : c ∈ p.classes) :
    ∃ code, done[c.name]? = some code ∧ DispatchTable p t h L done c code.table := by
  obtain ⟨code, l, hcode, hl, hdispatch⟩ := hdone.dispatches hp c hc
  refine ⟨code, hcode, ?_, ?_, ?_⟩
  · obtain ⟨d, earlier, hfound, -, hlaid⟩ := hp.laid hl
    obtain ⟨record, hr, -, he, -⟩ := hlaid.record
    rw [class?_name hfound] at hr
    refine ⟨l.shape, by simp [Bindings.shape?, hr, he, ClassShape.toTy, Ty.shape?], ?_⟩
    rw [← hdispatch.length_eq]
    simp [Layout.shape]
  · intro x e slot he hkind hslot
    obtain ⟨k, hk, rfl⟩ := hp.method_at he hkind hslot hl
    exact hdispatch.label hp hl hk
  · intro parent hparent
    obtain ⟨before, after, hs⟩ := List.append_of_mem hc
    obtain ⟨d, hd, hname⟩ := List.mem_map.mp (hp.parent_before hs hparent)
    obtain ⟨above, base, habove, hbase, hdispatch'⟩ := hdone.dispatches hp d (by simp [hs, hd])
    rw [hname] at habove hbase
    refine ⟨above, habove, ?_⟩
    intro x e slot he hkind hslot hx
    obtain ⟨k, hk, rfl⟩ := hp.method_at he hkind hslot hbase
    obtain ⟨code', hclass⟩ := hdone c hc
    have hsame : code' = code := by
      have hfound := hclass.found
      rw [hcode] at hfound
      exact (Option.some.inj hfound).symm
    subst hsame
    exact hclass.inherited_label hp hs hparent habove hbase hdispatch' hk hx

end

/-! The classes are generated before everything else. -/

theorem Draft.closed_after (d : Draft) (labels : LabelSupply) (lines blocks : List Line) :
    (d.after labels lines blocks).closed = d.closed ++ blocks := by
  unfold after write
  split <;> rfl

theorem Draft.closed_infix (d : Draft) : d.closed <:+: d.finish.lines :=
  (List.suffix_append (d.outer ++ d.opened.flatten) d.closed).isInfix

/-- What is generated for the classes of a program. -/
def Program.classCode (p : Program) (t : Target) (h : Ancestry) :
    Except GenerationError Emit.Classes := do
  let (done, _) ← (do
    Emit.instrs [.push 0]
    Emit.classes t h p.classes ∅ : Emit Emit.Classes).run {}
  return done

/-- Where a program has code, its classes are generated and their blocks are in
the code. -/
theorem Program.Resolved.classesDone {p : Program} {t : Target} {h : Ancestry}
    (hp : p.Resolved t.bindings h) {L : Listing} (hg : p.generate t h = .ok L) :
    ∃ done, p.classCode t h = .ok done ∧ ClassesDone p t h L done p.classes := by
  have hnodup := (hp.listingOf hg).nodup
  unfold Program.generate at hg
  rcases hr : (Emit.program t h p).run {} with e | ⟨_, d⟩
  · rw [hr] at hg
    cases hg
  rw [hr] at hg
  cases hg
  unfold Emit.program at hr
  simp only at hr
  split at hr
  · obtain ⟨_, d₁, hfront, hr⟩ := run_bind_ok hr
    obtain ⟨done, d₂, hclasses, hr⟩ := run_bind_ok hr
    refine ⟨done, ?_, ?_⟩
    · unfold Program.classCode
      rw [StateT.run_bind, hfront]
      simp only [bind, Except.bind, hclasses]
      rfl
    · obtain ⟨s, lines, blocks, rfl, -, -, tables, -, hshape⟩ :=
        writes_classes t h p.classes ∅ _ _ _ hclasses
      -- The rest of the code only adds to the draft.
      have hrest : Writes (do
          Emit.decls t p.decls
          Emit.code (Code.ofExpr t p.body)
          Emit.instrs [.plain .halt]) fun _ _ _ _ => True :=
        ((writes_decls t).2 p.decls).bind fun _ _ _ _ _ =>
          (writes_body t p).mono fun _ _ _ _ _ _ => trivial
      obtain ⟨s', lines', blocks', rfl, -⟩ := hrest _ _ _ hr
      have hfirst : d₁.labels.functions = 0 := by
        cases hfront
        rfl
      refine (hshape.classesDone hp [] rfl (by simp) ⟨[], _, rfl, hfirst.symm⟩ ⟨hnodup, ?_⟩
        fun c hc => by cases hc).2.1
      refine List.IsInfix.trans ?_ (Draft.closed_infix _)
      rw [Draft.closed_after, Draft.closed_after]
      exact ⟨d₁.closed, _, rfl⟩
  · rename_i hany
    simp only [Program.declaresAny, Bool.or_eq_true, Bool.not_eq_true', not_or,
      Bool.not_eq_false, List.isEmpty_iff] at hany
    refine ⟨∅, ?_, ?_⟩
    · unfold Program.classCode
      rw [hany.1]
      rfl
    · rw [hany.1]
      intro c hc
      cases hc

/-- In a program whose names are bound without a fault, the dispatch table of every
class has one label for each method of the class. The label in the slot of a method
is that of the block generated for the nearest declaration of the method; where the
class does not declare it, that is the label of the superclass. -/
theorem Program.dispatch_nearest (p : Program) (memorySize : Word) (hn : p.ids.Nodup)
    (he : p.resolve.errors = []) :
    let t : Target := { bindings := p.resolve.bindings, memorySize }
    ∃ done listing, p.classCode t p.resolve.ancestry = .ok done ∧
      p.generate t p.resolve.ancestry = .ok listing ∧
      ∀ c ∈ p.classes, ∃ code, done[c.name]? = some code ∧
        DispatchTable p t p.resolve.ancestry listing done c code.table := by
  intro t
  have hp : p.Resolved t.bindings p.resolve.ancestry := p.resolve_resolved hn he
  obtain ⟨listing, hg⟩ := hp.generates
  obtain ⟨done, hcode, hdone⟩ := hp.classesDone hg
  exact ⟨done, listing, hcode, hg, fun c hc => hdone.dispatchTable hp hc⟩

/-- The override is in the slot of the method that it overrides. -/
theorem overrideProgram_dispatches : overrideProgram.ids.Nodup ∧
    overrideProgram.resolve.errors = [] ∧ ∃ done listing,
      overrideProgram.classCode { bindings := overrideProgram.resolve.bindings, memorySize := 100 }
        overrideProgram.resolve.ancestry = .ok done ∧
      overrideProgram.generate { bindings := overrideProgram.resolve.bindings, memorySize := 100 }
        overrideProgram.resolve.ancestry = .ok listing ∧
      ∀ c ∈ overrideProgram.classes, ∃ code, done[c.name]? = some code ∧
        DispatchTable overrideProgram
          { bindings := overrideProgram.resolve.bindings, memorySize := 100 }
          overrideProgram.resolve.ancestry listing done c code.table :=
  ⟨overrideProgram_ids, overrideProgram_clean.1,
    overrideProgram.dispatch_nearest 100 overrideProgram_ids overrideProgram_clean.1⟩

end Classlet
