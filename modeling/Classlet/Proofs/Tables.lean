import Classlet.Proofs.Blocks
import Classlet.Proofs.Completeness
import Classlet.Proofs.Conformance
import Classlet.Proofs.Jumps
import Classlet.Proofs.Numbering
import Mathlib.Data.List.Induction

/-!
The dispatch tables of a program and its code as a whole. The table of a class is
filled in step with its layout, slot by slot, so that the label in a slot is that
of the method which the layout has there.
-/

namespace Classlet

/-! Tables in step with layouts. -/

section

variable {α : Type} {R : String × α → Label → Prop}

theorem forall₂_set {l : List (String × α)} {table : List Label} (h : List.Forall₂ R l table)
    {p : String × α} {q : Label} (hpq : R p q) (i : Nat) :
    List.Forall₂ R (l.set i p) (table.set i q) := by
  induction h generalizing i with
  | nil => exact .nil
  | cons hr hrest ih =>
    cases i with
    | zero => exact .cons hpq hrest
    | succ i => exact .cons hr (ih i)

/-- A label is filled in where its name is placed. -/
theorem forall₂_fill {names : List String} {l : List (String × α)} {table : List Label}
    (h : List.Forall₂ R l table) {x : String} {a : α} {q : Label} (hq : R (x, a) q)
    (hnames : (placed x a l).map Prod.fst <+: names) :
    List.Forall₂ R (placed x a l) (ClassCode.fill table (names.idxOf x, q)) := by
  have hlen := h.length_eq
  have hidx : names.idxOf x = (l.map Prod.fst).idxOf x := by
    rw [ idxOf_of_prefix hnames (mem_names_placed x a l), idxOf_placed]
  simp only [ClassCode.fill]
  by_cases hx : x ∈ l.map Prod.fst
  · have hlt : names.idxOf x < table.length := by
      have hlt' := List.idxOf_lt_length_iff.mpr hx
      rw [List.length_map] at hlt'
      omega
    rw [if_pos hlt, placed_of_mem a hx, hidx]
    exact forall₂_set h hq _
  · have hge : ¬ names.idxOf x < table.length := by
      have hend := List.idxOf_eq_length_iff.mpr hx
      rw [List.length_map] at hend
      omega
    rw [if_neg hge, placed_of_notMem a hx]
    exact List.rel_append h (.cons hq .nil)

theorem forall₂_foldl_fill {β : Type} (names : List String) (name : β → String) (item : β → α)
    {bs : List β} {qs : List (Nat × Label)}
    (hbs : List.Forall₂ (fun b q => q.1 = names.idxOf (name b) ∧ R (name b, item b) q.2) bs qs) :
    ∀ (l : List (String × α)) (table : List Label), List.Forall₂ R l table →
      (bs.foldl (fun l b => placed (name b) (item b) l) l).map Prod.fst <+: names →
      List.Forall₂ R (bs.foldl (fun l b => placed (name b) (item b) l) l)
        (qs.foldl ClassCode.fill table) := by
  induction hbs with
  | nil => intro l table h _; exact h
  | @cons b q bs qs hq _ ih =>
    intro l table h hnames
    obtain ⟨slot, label⟩ := q
    obtain ⟨rfl, hR⟩ := hq
    have hfirst : (placed (name b) (item b) l).map Prod.fst <+: names :=
      (names_foldl_placed name item bs _).trans hnames
    exact ih _ _ (forall₂_fill h hR hfirst) hnames

end

/-! Methods and classes. -/

/-- The frames of names around the methods of the class of a name. -/
def Program.MethodScope (p : Program) (cls : String) (Γ : List Naming) : Prop :=
  ∃ before c after, p.classes = before ++ c :: after ∧ c.name = cls ∧
    Γ = [c.naming before.reverse, p.classNaming]

/-- The labels of a table are those of the methods of a layout, slot by slot. -/
def TableOf (p : Program) (l : Layout) (table : List Label) : Prop :=
  List.Forall₂ (fun m q => ∃ Γ, p.MethodScope m.2.owner Γ ∧ p.MethodAt Γ m.2.decl q) l.methods table

section

variable {p : Program} {t : Target} {h : Ancestry}

/-- The methods of a class, in a listing that has their blocks. -/
theorem MethodsShape.coded {L : Listing} {n : Nat} {ms : List MethodDecl}
    {qs : List (Nat × Label)} {blocks : List (List Line)} (h : MethodsShape t n ms qs blocks)
    (hroutines : ∀ m ∈ ms, m.routines ⊆ p.routines)
    (hparts : ∀ m ∈ ms, ∀ x ∈ m.parts, x ∈ p.parts) (hL : L.Includes (blockLines n blocks)) :
    List.Forall₂ (fun m q => (∃ slot, t.bindings.slots[m.id]? = some slot ∧
      q.1 = slot.index) ∧ RoutineAt t L p q.2 m.params m.decls m.body) ms qs := by
  induction h with
  | nil => exact .nil
  | @cons n m slot ms _ _ _ _ _ hslot hdecls hbody _ ih =>
    have hm := hparts m List.mem_cons_self
    simp only [MethodDecl.parts, List.mem_append] at hm
    obtain ⟨hmem, hinner⟩ := List.cons_subset.mp (hroutines m List.mem_cons_self)
    rw [blockLines_append, blockLines_append, blockLines_singleton, List.length_append,
      List.length_singleton, ← Nat.add_assoc] at hL
    have hlocals := hdecls.declsCode hinner (fun x hx => hm x (Or.inl hx)) hL.left.left
    refine .cons ⟨⟨slot, hslot, rfl⟩, .mk hmem hlocals hbody.code ?_ hL.left.right.has⟩ ?_
    · exact fun x hx => hm x (Or.inr hx)
    · exact ih (fun k hk => hroutines k (List.mem_cons_of_mem _ hk))
        (fun k hk => hparts k (List.mem_cons_of_mem _ hk)) hL.right

/-- The layout of a class over that of its superclass. -/
theorem Program.Resolved.layout_over (hp : p.Resolved t.bindings h)
    {before after : List ClassDecl} {c : ClassDecl} (hs : p.classes = before ++ c :: after) :
    ∃ base, layout? p.classes.reverse c.name = some (c.over base) ∧
      Resolution.SlotsFiled t.bindings ((c.over base).methods.map Prod.fst) c.methods ∧
      match h.parent? c.name with
      | none => base = {}
      | some parent => layout? p.classes.reverse parent = some base := by
  have hat := hp.class_at hs
  obtain ⟨l, hl⟩ := hp.classes _ _ _ hat
  have hparent : h.parent? c.name = c.parent? := by rw [hp.parents, hat]; rfl
  have hwhole := (layout?_eq hat).trans hl.layout
  have hlay := hl.layout
  rw [hparent]
  cases hpar : c.parent? with
  | none =>
    simp only [layout?, if_true, hpar, Option.some.injEq] at hlay
    subst hlay
    exact ⟨{}, hwhole, hl.slots, rfl⟩
  | some parent =>
    simp only [layout?, if_true, hpar, Option.map_eq_some_iff] at hlay
    obtain ⟨base, hbase, rfl⟩ := hlay
    refine ⟨base, hwhole, hl.slots, Program.layout?_of_suffix ?_ hp.distinct hbase⟩
    rw [hs]
    exact ⟨after.reverse ++ [c], by simp⟩

/-- The label is that of the code that is generated for a method where it is
declared. -/
def CodedAs (p : Program) (done : Emit.Classes) (k : Implementation) (q : Label) : Prop :=
  ∃ c ∈ p.classes, c.name = k.owner ∧ ∃ code slot, done[c.name]? = some code ∧
    (k.decl, slot, q) ∈ c.methods.zip code.methods

/-- The labels of a table are those of the methods of a layout, slot by slot, as
they are generated where the methods are declared. -/
def Dispatches (p : Program) (t : Target) (L : Listing) (done : Emit.Classes) (l : Layout)
    (table : List Label) : Prop :=
  List.Forall₂ (fun m q => CodedAs p done m.2 q ∧
    RoutineAt t L p q m.2.decl.params m.2.decl.decls m.2.decl.body) l.methods table

/-- What is generated for a class: the methods that it declares, in order, and its
table from that of its superclass. -/
structure ClassDone (p : Program) (t : Target) (h : Ancestry) (L : Listing) (done : Emit.Classes)
    (c : ClassDecl) (code : ClassCode) : Prop where
  found : done[c.name]? = some code
  methods : List.Forall₂ (fun m q => (∃ slot, t.bindings.slots[m.id]? = some slot ∧
    q.1 = slot.index) ∧ RoutineAt t L p q.2 m.params m.decls m.body) c.methods code.methods
  numbered : ∃ Γ, p.MethodScope c.name Γ ∧
    List.Forall₂ (fun m q => p.MethodAt Γ m q.2) c.methods code.methods
  table : ∃ inherited, code.table = code.methods.foldl ClassCode.fill inherited ∧
    match h.parent? c.name with
    | none => inherited = []
    | some parent => ∃ above, done[parent]? = some above ∧ inherited = above.table

def ClassesDone (p : Program) (t : Target) (h : Ancestry) (L : Listing) (done : Emit.Classes)
    (cs : List ClassDecl) : Prop :=
  ∀ c ∈ cs, ∃ code, ClassDone p t h L done c code

theorem Program.mem_parts_of_method {c : ClassDecl} {m : MethodDecl} (hc : c ∈ p.classes)
    (hm : m ∈ c.methods) {x : Expr} (hx : x ∈ m.parts) : x ∈ p.parts :=
  List.mem_append_left _ (List.mem_flatMap.mpr ⟨c, hc, List.mem_flatMap.mpr ⟨m, hm, hx⟩⟩)

theorem Program.routines_of_method {c : ClassDecl} {m : MethodDecl} (hc : c ∈ p.classes)
    (hm : m ∈ c.methods) : m.routines ⊆ p.routines := by
  intro r hr
  exact List.mem_append_left _ (List.mem_flatMap.mpr ⟨c, hc, List.mem_flatMap.mpr ⟨m, hm, hr⟩⟩)

/-- The table of a class, from the table of its superclass and its own methods. -/
theorem ClassDone.dispatches {L : Listing} {before after : List ClassDecl} {c : ClassDecl}
    {code : ClassCode} {done : Emit.Classes} (hc : ClassDone p t h L done c code)
    (hp : p.Resolved t.bindings h) (hs : p.classes = before ++ c :: after)
    (hbefore : ∀ d ∈ before, ∃ above l, done[d.name]? = some above ∧
      layout? p.classes.reverse d.name = some l ∧ Dispatches p t L done l above.table) :
    ∃ l, layout? p.classes.reverse c.name = some l ∧ Dispatches p t L done l code.table := by
  obtain ⟨base, hlayout, hslots, hbase⟩ := hp.layout_over hs
  obtain ⟨inherited, htable, hinherited⟩ := hc.table
  refine ⟨c.over base, hlayout, ?_⟩
  have hstart : Dispatches p t L done base inherited := by
    cases hpar : h.parent? c.name with
    | none =>
      rw [hpar] at hbase hinherited
      rw [hbase, hinherited]
      exact .nil
    | some parent =>
      rw [hpar] at hbase hinherited
      obtain ⟨above, habove, rfl⟩ := hinherited
      have hmem := hp.parent_before hs hpar
      obtain ⟨d, hd, hname⟩ := List.mem_map.mp hmem
      obtain ⟨above', l, habove', hl, hdispatch⟩ := hbefore d hd
      rw [hname] at habove' hl
      rw [habove] at habove'
      cases habove'
      rw [hbase] at hl
      cases hl
      exact hdispatch
  rw [htable]
  refine forall₂_foldl_fill ((c.over base).methods.map Prod.fst) MethodDecl.name
    (fun m => ⟨c.name, m⟩) ?_ base.methods inherited hstart (List.prefix_refl _)
  obtain ⟨hlength, hpairs⟩ := List.forall₂_iff_zip.mp hc.methods
  refine List.forall₂_iff_zip.mpr ⟨hlength, ?_⟩
  intro m q hmq
  obtain ⟨⟨slot, hslot, hfirst⟩, hroutine⟩ := hpairs hmq
  obtain ⟨slot', hslot', hindex⟩ := hslots m (List.of_mem_zip hmq).1
  rw [hslot] at hslot'
  cases hslot'
  exact ⟨hfirst.trans hindex, ⟨c, by simp [hs], rfl, code, q.1, hc.found, hmq⟩, hroutine⟩

/-- The tables of all classes dispatch to the methods of their layouts. -/
theorem ClassesDone.dispatches {L : Listing} {done : Emit.Classes}
    (hdone : ClassesDone p t h L done p.classes) (hp : p.Resolved t.bindings h) :
    ∀ c ∈ p.classes, ∃ code l, done[c.name]? = some code ∧
      layout? p.classes.reverse c.name = some l ∧ Dispatches p t L done l code.table := by
  have hprefix : ∀ before after, p.classes = before ++ after → ∀ c ∈ before, ∃ code l,
      done[c.name]? = some code ∧ layout? p.classes.reverse c.name = some l ∧
        Dispatches p t L done l code.table := by
    intro before
    induction before using List.reverseRecOn with
    | nil =>
      intro after _ c hc
      cases hc
    | append_singleton before d ih =>
      intro after hs c hc
      rw [List.append_assoc, List.singleton_append] at hs
      have hbefore := ih (d :: after) hs
      rcases List.mem_append.mp hc with hc | hc
      · exact hbefore c hc
      · obtain rfl := List.mem_singleton.mp hc
        obtain ⟨code, hcode⟩ := hdone c (by simp [hs])
        obtain ⟨l, hl, hdispatch⟩ := hcode.dispatches hp hs hbefore
        exact ⟨code, l, hcode.found, hl, hdispatch⟩
  exact hprefix p.classes [] (List.append_nil _).symm

theorem getElem?_insertIfNew_of_some {done : Emit.Classes} {cls x : String}
    {code code' : ClassCode} (hx : done[x]? = some code) :
    (done.insertIfNew cls code')[x]? = some code := by
  rw [Std.TreeMap.getElem?_insertIfNew, if_neg, hx]
  rintro ⟨heq, hnot⟩
  obtain rfl := Std.LawfulEqCmp.eq_of_compare heq
  exact hnot (Std.TreeMap.mem_iff_isSome_getElem?.mpr (Option.isSome_of_mem hx))

theorem inherits_mono {parent? : Option String} {inherited : List Label} {done done' : Emit.Classes}
    (hdone : ∀ (x : String) (k : ClassCode), done[x]? = some k → done'[x]? = some k) :
    (match parent? with
      | none => inherited = []
      | some parent => ∃ above, done[parent]? = some above ∧ inherited = above.table) →
    match parent? with
      | none => inherited = []
      | some parent => ∃ above, done'[parent]? = some above ∧ inherited = above.table := by
  cases parent? with
  | none => exact id
  | some parent =>
    rintro ⟨above, habove, heq⟩
    exact ⟨above, hdone _ _ habove, heq⟩

/-- What is generated for a class stays while more classes are generated. -/
theorem ClassDone.mono {L : Listing} {done done' : Emit.Classes} {c : ClassDecl} {code : ClassCode}
    (hc : ClassDone p t h L done c code)
    (hdone : ∀ (x : String) (k : ClassCode), done[x]? = some k → done'[x]? = some k) :
    ClassDone p t h L done' c code := by
  obtain ⟨inherited, htable, hinherited⟩ := hc.table
  exact ⟨hdone _ _ hc.found, hc.methods, hc.numbered, inherited, htable,
    inherits_mono hdone hinherited⟩

theorem ClassesDone.snoc {L : Listing} {done done' : Emit.Classes} {cs : List ClassDecl}
    {c : ClassDecl} {code : ClassCode} (hcs : ClassesDone p t h L done cs)
    (hdone : ∀ (x : String) (k : ClassCode), done[x]? = some k → done'[x]? = some k)
    (hc : ClassDone p t h L done' c code) : ClassesDone p t h L done' (cs ++ [c]) := by
  intro d hd
  rcases List.mem_append.mp hd with hd | hd
  · obtain ⟨code', hcode'⟩ := hcs d hd
    exact ⟨code', hcode'.mono hdone⟩
  · rw [List.mem_singleton.mp hd]
    exact ⟨code, hc⟩

/-- The code of classes, in a listing that has the blocks of their methods. -/
theorem ClassesShape.classesDone (hp : p.Resolved t.bindings h) {L : Listing} {n : Nat}
    {done done' : Emit.Classes} {cs : List ClassDecl} {tables : List (List Label)}
    {blocks : List (List Line)} (hcs : ClassesShape t h n done cs done' tables blocks) :
    ∀ before, p.classes = before ++ cs →
      (∀ cls : String, cls ∈ done → cls ∈ before.map ClassDecl.name) →
      p.HasBlocks n (p.classBlocks before.reverse cs) → L.Includes (blockLines n blocks) →
      ClassesDone p t h L done before →
      (∀ (x : String) (k : ClassCode), done[x]? = some k → done'[x]? = some k) ∧
      ClassesDone p t h L done' (before ++ cs) ∧
      List.Forall₂ (fun c table => ∃ code, done'[c.name]? = some code ∧ code.table = table)
        cs tables := by
  induction hcs with
  | nil =>
    intro before _ _ _ _ hdone
    rw [List.append_nil]
    exact ⟨fun _ _ hk => hk, hdone, .nil⟩
  | @cons n done done' c cs inherited qs tables own blocks hinherited hmethods _ ih =>
    intro before hs hknown hb hL hdone
    rw [blockLines_append] at hL
    rw [Program.classBlocks_cons, ClassDecl.blocks] at hb
    obtain ⟨hnumbered, hown⟩ := hmethods.numbered hb.left
    have hrest := hb.right
    rw [hown.length_eq, ← List.reverse_concat] at hrest
    have hc : c ∈ p.classes := by simp [hs]
    have hnew : c.name ∉ done := by
      intro hmem
      have hdistinct := ((List.reverse_perm p.classes).map ClassDecl.name).nodup_iff.mp hp.distinct
      rw [hs, List.map_append, List.nodup_append] at hdistinct
      exact hdistinct.2.2 _ (hknown c.name hmem) c.name (by simp) rfl
    have hself : (done.insertIfNew c.name (ClassCode.ofMethods inherited qs))[c.name]? =
        some (ClassCode.ofMethods inherited qs) := by
      rw [Std.TreeMap.getElem?_insertIfNew, if_pos ⟨Std.ReflCmp.compare_self, hnew⟩]
    have hold : ∀ (x : String) (k : ClassCode), done[x]? = some k →
        (done.insertIfNew c.name (ClassCode.ofMethods inherited qs))[x]? = some k :=
      fun x k hk => getElem?_insertIfNew_of_some hk
    have hcoded := hmethods.coded (fun m hm => Program.routines_of_method hc hm)
      (fun m hm x hx => Program.mem_parts_of_method hc hm hx) hL.left
    have hclass : ClassDone p t h L
        (done.insertIfNew c.name (ClassCode.ofMethods inherited qs)) c
        (ClassCode.ofMethods inherited qs) :=
      ⟨hself, hcoded, ⟨_, ⟨before, c, cs, hs, rfl, rfl⟩, hnumbered⟩, inherited, rfl,
        inherits_mono hold hinherited⟩
    have hnext : ∀ cls : String,
        cls ∈ done.insertIfNew c.name (ClassCode.ofMethods inherited qs) →
        cls ∈ (before ++ [c]).map ClassDecl.name := by
      intro cls hcls
      rcases Std.TreeMap.mem_insertIfNew.mp hcls with heq | hcls
      · simp [(Std.LawfulEqCmp.eq_of_compare heq).symm]
      · simp [hknown cls hcls]
    obtain ⟨hkeep, hall, htables⟩ :=
      ih (before ++ [c]) (by simp [hs]) hnext hrest hL.right (hdone.snoc hold hclass)
    rw [List.append_assoc, List.singleton_append] at hall
    exact ⟨fun x k hk => hkeep x k (hold x k hk), hall, .cons ⟨_, hkeep _ _ hself, rfl⟩ htables⟩

/-- The label of a method is that of its number. -/
theorem ClassesDone.tableOf {L : Listing} {done : Emit.Classes}
    (hdone : ClassesDone p t h L done p.classes) {l : Layout} {table : List Label}
    (hd : Dispatches p t L done l table) : TableOf p l table := by
  refine hd.imp fun m q hq => ?_
  obtain ⟨⟨c, hc, hname, code, slot, hcode, hmem⟩, -⟩ := hq
  obtain ⟨code', hclass⟩ := hdone c hc
  obtain rfl : code = code' := Option.some.inj (hcode.symm.trans hclass.found)
  obtain ⟨Γ, hscope, hnumbered⟩ := hclass.numbered
  rw [hname] at hscope
  exact ⟨Γ, hscope, (List.forall₂_iff_zip.mp hnumbered).2 hmem⟩

/-- The tables that are laid out are those of the layouts. -/
theorem ClassesDone.tables {L : Listing} {done : Emit.Classes} {tables : List (List Label)}
    (hdone : ClassesDone p t h L done p.classes) (hp : p.Resolved t.bindings h)
    (htables : List.Forall₂ (fun c table => ∃ code, done[c.name]? = some code ∧ code.table = table)
      p.classes tables) :
    List.Forall₂ (fun c table => ∃ l, layout? p.classes.reverse c.name = some l ∧
      TableOf p l table) p.classes tables := by
  obtain ⟨hlength, hpairs⟩ := List.forall₂_iff_zip.mp htables
  refine List.forall₂_iff_zip.mpr ⟨hlength, ?_⟩
  intro c table hmem
  obtain ⟨code, hcode, rfl⟩ := hpairs hmem
  obtain ⟨code', l, hcode', hl, hdispatch⟩ := hdone.dispatches hp c (List.of_mem_zip hmem).1
  rw [hcode] at hcode'
  cases hcode'
  exact ⟨l, hl, hdone.tableOf hdispatch⟩

/-! Programs. -/

/-- A listing is the code of a program: the tables of its classes, its
declarations and its body, and then the blocks of its functions and methods. The
outermost frame has a word in front if there is anything in it. -/
structure ListingOf (p : Program) (t : Target) (L : Listing) : Prop where
  nodup : L.labels.Nodup
  closed : L.Closed
  lines : ∃ front tables ds bs blocks,
    (p.declaresAny ∧ front = Code.instrs [.push 0] ∨
      front = [] ∧ p.classes = [] ∧ p.decls = []) ∧
    List.Forall₂ (fun c table => ∃ l, layout? p.classes.reverse c.name = some l ∧
      TableOf p l table) p.classes tables ∧
    DeclsAt p t [] (p.classes.map ClassDecl.named) p.decls ds ∧ CodeOf t p.body bs ∧
    List.Forall₂ (Block.Lines p t) p.blocks blocks ∧
    L.lines = front ++ tables.flatMap tableLines ++ ds ++ bs ++ Code.instrs [.plain .halt] ++
      blockLines 0 blocks

/-- What is generated for a program is its code. -/
theorem Program.Resolved.listingOf (hp : p.Resolved t.bindings h) {L : Listing}
    (hg : p.generate t h = .ok L) : ListingOf p t L := by
  obtain ⟨c, hc, hlines, hnodup⟩ := Program.generate_shape hg
  have hL : L.Includes (blockLines 0 c.blocks) :=
    ⟨hnodup, by rw [hlines]; exact (List.suffix_append _ _).isInfix⟩
  rw [CodeParts.blocks, blockLines_append, Nat.zero_add] at hL
  obtain ⟨-, hdone, htables⟩ := hc.classes.classesDone hp [] rfl (by simp)
    ⟨[], _, rfl, rfl⟩ hL.left fun d hd => absurd hd List.not_mem_nil
  obtain ⟨hds, hblocks⟩ := hc.numbered
  exact ⟨hnodup, hc.closed hlines, c.front, c.tables, c.decls, c.body, c.blocks, hc.front,
    hdone.tables hp htables, hds, hc.body.code, hblocks, hlines⟩

end

end Classlet
