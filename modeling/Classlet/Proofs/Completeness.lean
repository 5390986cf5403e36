import Classlet.Compile
import Classlet.Proofs.Labels
import Classlet.Proofs.Typing

/-!
Generation of code never fails after a clean analysis. Whatever the generator
looks up is what the binding of names has filed: the use of a name, the call of a
method, the slot of a method. The dispatch table of a superclass is there because
a superclass comes before its subclasses.
-/

namespace Classlet

theorem Decl.bound_filed (b : Bindings) :
    (∀ (d : Decl) (frame : List (String × Entry)) (outer : Nest Entry) (k : Nat),
      d.Bound b frame outer k → ∀ x ∈ d.parts, x.Filed b) ∧
    ∀ (ds : List Decl) (frame : List (String × Entry)) (outer : Nest Entry) (k : Nat),
      AllBound b ds frame outer k → ∀ x ∈ partsOfAll ds, x.Filed b := by
  apply Decl.induction
  · intro id name type init pos frame outer k hb
    exact Expr.Bound.filed hb
  · intro id name params ret decls body pos ih frame outer k hb x hx
    rcases List.mem_append.mp hx with hx | hx
    · exact ih _ _ _ hb.1 x hx
    · exact Expr.Bound.filed hb.2.1 x hx
  · intro frame outer k _ x hx
    cases hx
  · intro d ds ihd ihs frame outer k hb x hx
    rcases List.mem_append.mp hx with hx | hx
    · exact ihd _ _ _ hb.1 x hx
    · exact ihs _ _ _ hb.2 x hx

theorem RoutineBound.filed {b : Bindings} {Γ : Nest Entry} {params : List Binder}
    {decls : List Decl} {body : Expr} (h : RoutineBound b Γ params decls body) :
    ∀ x ∈ Decl.partsOfAll decls ++ body.parts, x.Filed b := by
  intro x hx
  rcases List.mem_append.mp hx with hx | hx
  · exact (Decl.bound_filed b).2 _ _ _ _ h.1 x hx
  · exact Expr.Bound.filed h.2.1 x hx

namespace Program

variable {p : Program} {b : Bindings} {h : Ancestry}

/-- Every node of a program is filed. -/
theorem Resolved.filed (hp : p.Resolved b h) : ∀ x ∈ p.parts, x.Filed b := by
  intro x hx
  rcases List.mem_append.mp hx with hx | hx
  · obtain ⟨c, hc, hx⟩ := List.mem_flatMap.mp hx
    obtain ⟨m, hm, hx⟩ := List.mem_flatMap.mp hx
    obtain ⟨l, -, hmethods⟩ := hp.methods c hc
    exact (hmethods m hm).filed x hx
  · rcases List.mem_append.mp hx with hx | hx
    · exact (Decl.bound_filed b).2 _ _ _ _ hp.decls x hx
    · exact Expr.Bound.filed hp.body x hx

/-- A class and the classes before it. -/
theorem Resolved.class_at (hp : p.Resolved b h) {before after : List ClassDecl} {c : ClassDecl}
    (hs : p.classes = before ++ c :: after) :
    class? p.classes.reverse c.name = some (c, before.reverse) := by
  have hrev : p.classes.reverse = after.reverse ++ c :: before.reverse := by simp [hs]
  have hd := hp.distinct
  rw [hrev, List.map_append, List.nodup_append] at hd
  have hnot : c.name ∉ after.reverse.map ClassDecl.name :=
    fun hin => hd.2.2 _ hin _ (by simp) rfl
  rw [hrev]
  generalize after.reverse = pre at hnot
  induction pre with
  | nil => simp [class?]
  | cons d rest ih =>
    simp only [List.map_cons, List.mem_cons, not_or] at hnot
    rw [List.cons_append, class?, if_neg (Ne.symm hnot.1)]
    exact ih hnot.2

/-- A superclass comes before its subclasses. -/
theorem Resolved.parent_before (hp : p.Resolved b h) {before after : List ClassDecl}
    {c : ClassDecl} (hs : p.classes = before ++ c :: after) {parent : String}
    (hc : h.parent? c.name = some parent) : parent ∈ before.map ClassDecl.name := by
  have hat := hp.class_at hs
  have hpar : c.parent? = some parent := by
    rw [hp.parents, hat] at hc
    exact hc
  obtain ⟨l, hl⟩ := hp.classes _ _ _ hat
  have hlay := hl.layout
  simp only [layout?, if_true, hpar, Option.map_eq_some_iff] at hlay
  obtain ⟨base, hbase, -⟩ := hlay
  have hin := class?_isSome.mp (layout?_isSome hbase)
  simpa using hin

end Program

/-- A step of generation that succeeds from every state. -/
def Total {σ α : Type} (m : StateT σ (Except GenerationError) α) : Prop :=
  ∀ s, ∃ r, m.run s = .ok r

namespace Total

variable {σ α β : Type}

theorem pure (a : α) : Total (Pure.pure a : StateT σ (Except GenerationError) α) :=
  fun s => ⟨(a, s), rfl⟩

theorem bind {m : StateT σ (Except GenerationError) α}
    {f : α → StateT σ (Except GenerationError) β} (hm : Total m) (hf : ∀ a, Total (f a)) :
    Total (m >>= f) := by
  intro s
  obtain ⟨⟨a, s'⟩, hr⟩ := hm s
  obtain ⟨r, hr'⟩ := hf a s'
  refine ⟨r, ?_⟩
  rw [StateT.run_bind, hr]
  exact hr'

theorem update (f : σ → σ) : Total (modify f : StateT σ (Except GenerationError) PUnit) :=
  fun s => ⟨(⟨⟩, f s), rfl⟩

theorem takes (f : σ → α × σ) : Total (modifyGet f : StateT σ (Except GenerationError) α) :=
  fun s => ⟨f s, rfl⟩

end Total

namespace Gen

theorem total_require {α : Type} {o : Option α} {a : α} (h : o = some a) (x : String)
    (pos : Position) : Total (require x pos o) := by
  rw [h]
  exact .pure a

theorem total_bind_require {α β : Type} {o : Option α} {a : α} (h : o = some a) (x : String)
    (pos : Position) {f : α → Gen β} (hf : Total (f a)) : Total (require x pos o >>= f) := by
  rw [h]
  exact hf

theorem total_takeBranch : Total takeBranch := .takes _

end Gen

namespace Code

open Gen

section

variable {m m' m'' : Gen (List Line)}

theorem total_comparison (test : JumpTest) (h : Total m) (h' : Total m') :
    Total (comparison test m m') :=
  total_takeBranch.bind fun _ => total_takeBranch.bind fun _ => h.bind fun _ => h'.bind fun _ =>
    .pure _

theorem total_arithmetic (op : Arith) (h : Total m) (h' : Total m') :
    Total (arithmetic op m m') :=
  h.bind fun _ => h'.bind fun _ => .pure _

theorem total_disjunction (h : Total m) (h' : Total m') : Total (disjunction m m') :=
  total_takeBranch.bind fun _ => total_takeBranch.bind fun _ => h.bind fun _ => h'.bind fun _ =>
    .pure _

theorem total_binary (op : BinOp) (h : Total m) (h' : Total m') : Total (binary op m m') := by
  cases op with
  | equal | lessEqual => exact total_comparison _ h h'
  | greaterEqual => exact total_comparison _ h' h
  | or => exact total_disjunction h h'
  | and | add | sub | mul | div => exact total_arithmetic _ h h'

theorem total_conditional (h : Total m) (h' : Total m') (h'' : Total m'') :
    Total (conditional m m' m'') :=
  total_takeBranch.bind fun _ => total_takeBranch.bind fun _ => h.bind fun _ => h''.bind fun _ =>
    h'.bind fun _ => .pure _

end

theorem total_ofArgs (t : Target) {args : List Expr} (h : ∀ a ∈ args, Total (ofExpr t a)) :
    Total (ofArgs t args) := by
  induction args with
  | nil => exact .pure _
  | cons a as ih =>
    exact (h a (by simp)).bind fun _ =>
      (ih fun x hx => h x (List.mem_cons_of_mem _ hx)).bind fun _ => .pure _

theorem total_ofArgsBackwards (t : Target) {args : List Expr}
    (h : ∀ a ∈ args, Total (ofExpr t a)) : Total (ofArgsBackwards t args) := by
  induction args with
  | nil => exact .pure _
  | cons a as ih =>
    exact (ih fun x hx => h x (List.mem_cons_of_mem _ hx)).bind fun _ =>
      (h a (by simp)).bind fun _ => .pure _

/-- An expression all of whose nodes are filed has code. -/
theorem total_ofExpr (t : Target) {e : Expr} (h : ∀ x ∈ e.parts, x.Filed t.bindings) :
    Total (ofExpr t e) := by
  have args : ∀ es : List Expr,
      (∀ a ∈ es, (∀ x ∈ a.parts, x.Filed t.bindings) → Total (ofExpr t a)) →
      (∀ x ∈ Expr.partsOfArgs es, x.Filed t.bindings) → ∀ a ∈ es, Total (ofExpr t a) :=
    fun es ih hes a ha => ih a ha fun x hx => hes x (Expr.mem_partsOfArgs.mpr ⟨a, ha, hx⟩)
  induction e with
  | lit value pos => exact .pure _
  | name id x pos =>
    obtain ⟨u, e, hu⟩ := h (.name id x pos) (by simp [Expr.parts])
    unfold ofExpr
    exact (total_require hu _ _).bind fun _ => .pure _
  | binary op left right pos ihl ihr =>
    simp only [Expr.parts, List.mem_cons, List.mem_append] at h
    unfold ofExpr
    exact total_binary op (ihl fun x hx => h x (Or.inr (Or.inl hx)))
      (ihr fun x hx => h x (Or.inr (Or.inr hx)))
  | not operand pos ih =>
    simp only [Expr.parts, List.mem_cons] at h
    unfold ofExpr
    exact (ih fun x hx => h x (Or.inr hx)).bind fun _ => .pure _
  | cond test yes no pos iht ihy ihn =>
    simp only [Expr.parts, List.mem_cons, List.mem_append] at h
    unfold ofExpr
    exact total_conditional (iht fun x hx => h x (Or.inr (Or.inl (Or.inl hx))))
      (ihy fun x hx => h x (Or.inr (Or.inl (Or.inr hx)))) (ihn fun x hx => h x (Or.inr (Or.inr hx)))
  | print operand pos ih =>
    simp only [Expr.parts, List.mem_cons] at h
    unfold ofExpr
    exact (ih fun x hx => h x (Or.inr hx)).bind fun _ => .pure _
  | call id callee es pos ih =>
    simp only [Expr.parts, List.mem_cons] at h
    obtain ⟨u, e, hu⟩ := h _ (Or.inl rfl)
    unfold ofExpr
    exact (total_require hu _ _).bind fun _ =>
      (total_ofArgsBackwards t (args es ih fun x hx => h x (Or.inr hx))).bind fun _ => .pure _
  | send id receiver method es pos ih =>
    simp only [Expr.parts, List.mem_cons] at h
    obtain ⟨u, r, m, hu, hr, hm⟩ := h _ (Or.inl rfl)
    unfold ofExpr
    refine total_bind_require hu _ _ ?_
    exact (total_require hr _ _).bind fun _ => (total_require hm _ _).bind fun _ =>
      (total_ofArgsBackwards t (args es ih fun x hx => h x (Or.inr hx))).bind fun _ => .pure _
  | new id cls es pos ih =>
    simp only [Expr.parts, List.mem_cons] at h
    obtain ⟨u, e, hu⟩ := h _ (Or.inl rfl)
    unfold ofExpr
    exact (total_require hu _ _).bind fun _ =>
      (total_ofArgs t (args es ih fun x hx => h x (Or.inr hx))).bind fun _ => .pure _

end Code

namespace Emit

theorem total_code {g : Gen (List Line)} (h : Total g) : Total (code g) := by
  intro d
  obtain ⟨⟨lines, labels⟩, hr⟩ := h d.labels
  refine ⟨((), { d with labels }.write lines), ?_⟩
  rw [run_code, hr]
  rfl

theorem total_instrs (is : List Instr) : Total (instrs is) := .update _

theorem total_routine (params locals : Nat) {ds : Emit Unit} {body : Gen (List Line)}
    (hds : Total ds) (hbody : Total body) : Total (routine params locals ds body) :=
  (Total.update _).bind fun _ => (total_instrs _).bind fun _ => hds.bind fun _ =>
    (Total.takes _).bind fun _ => (total_code hbody).bind fun _ => (total_instrs _).bind fun _ =>
      (Total.update _).bind fun _ => .pure _

theorem total_decls (t : Target) :
    (∀ d : Decl, (∀ x ∈ d.parts, x.Filed t.bindings) → Total (decl t d)) ∧
    ∀ ds : List Decl, (∀ x ∈ Decl.partsOfAll ds, x.Filed t.bindings) → Total (decls t ds) := by
  apply Decl.induction
  · intro id name type init pos h
    exact total_code (Code.total_ofExpr t h)
  · intro id name params ret ds body pos ih h
    simp only [Decl.parts, List.mem_append] at h
    exact (total_routine _ _ (ih fun x hx => h x (Or.inl hx))
      (Code.total_ofExpr t fun x hx => h x (Or.inr hx))).bind fun _ => total_instrs _
  · intro _
    exact .pure _
  · intro d ds ihd ihs h
    simp only [Decl.partsOfAll, List.mem_append] at h
    exact (ihd fun x hx => h x (Or.inl hx)).bind fun _ => ihs fun x hx => h x (Or.inr hx)

theorem total_methods (t : Target) (ms : List MethodDecl)
    (hs : ∀ m ∈ ms, ∃ slot, t.bindings.slots[m.id]? = some slot)
    (h : ∀ m ∈ ms, ∀ x ∈ m.parts, x.Filed t.bindings) : Total (methods t ms) := by
  induction ms with
  | nil => exact .pure _
  | cons m ms ih =>
    obtain ⟨slot, hslot⟩ := hs m (by simp)
    have hm := h m (by simp)
    simp only [MethodDecl.parts, List.mem_append] at hm
    unfold methods
    rw [hslot]
    exact (total_routine _ _ ((total_decls t).2 m.decls fun x hx => hm x (Or.inl hx))
      (Code.total_ofExpr t fun x hx => hm x (Or.inr hx))).bind fun _ =>
        (ih (fun k hk => hs k (List.mem_cons_of_mem _ hk))
          fun k hk => h k (List.mem_cons_of_mem _ hk)).bind fun _ => .pure _

/-- Classes have code if the superclass of each is among those before it. -/
theorem total_classes (t : Target) (h : Ancestry) (cs : List ClassDecl)
    (hs : ∀ c ∈ cs, ∀ m ∈ c.methods, ∃ slot, t.bindings.slots[m.id]? = some slot)
    (hf : ∀ c ∈ cs, ∀ m ∈ c.methods, ∀ x ∈ m.parts, x.Filed t.bindings) :
    ∀ (before : List ClassDecl) (done : Classes),
      (∀ pre c post, before ++ cs = pre ++ c :: post → ∀ parent, h.parent? c.name = some parent →
        parent ∈ pre.map ClassDecl.name) →
      (∀ cls ∈ before.map ClassDecl.name, ∃ code, done[cls]? = some code) →
      Total (classes t h cs done) := by
  induction cs with
  | nil =>
    intro before done _ _
    exact .pure _
  | cons c cs ih =>
    intro before done hpar hdone
    unfold classes
    have hinherit : Total (inheritedTable h done c) := by
      unfold inheritedTable
      cases hp : h.parent? c.name with
      | none => exact .pure _
      | some parent =>
        obtain ⟨code, hcode⟩ := hdone parent (hpar before c cs rfl parent hp)
        simp only [hcode]
        exact .pure _
    refine hinherit.bind fun inherited => ?_
    refine (total_methods t c.methods (hs c (by simp)) (hf c (by simp))).bind fun ms => ?_
    refine (total_instrs _).bind fun _ => ?_
    refine ih (fun d hd => hs d (List.mem_cons_of_mem _ hd))
      (fun d hd => hf d (List.mem_cons_of_mem _ hd)) (before ++ [c]) _ ?_ ?_
    · intro pre d post heq
      exact hpar pre d post (by simpa using heq)
    · intro cls hcls
      rw [Std.TreeMap.getElem?_insertIfNew]
      split
      · exact ⟨_, rfl⟩
      · rename_i hne
        rw [List.map_append, List.mem_append] at hcls
        rcases hcls with hcls | hcls
        · exact hdone cls hcls
        · obtain rfl : cls = c.name := by simpa using hcls
          simp only [true_and, Decidable.not_not, Std.ReflCmp.compare_self] at hne
          exact ⟨done[c.name], by simp [hne]⟩

end Emit

/-- A program whose names are all bound has code. -/
theorem Program.Resolved.generates {p : Program} {t : Target} {h : Ancestry}
    (hp : p.Resolved t.bindings h) : ∃ listing, p.generate t h = .ok listing := by
  have hclasses : Total (Emit.classes t h p.classes ∅) := by
    refine Emit.total_classes t h p.classes ?_ ?_ [] ∅ ?_ (by simp)
    · intro c hc m hm
      obtain ⟨earlier, hce⟩ := class?_of_mem hp.distinct (List.mem_reverse.mpr hc)
      obtain ⟨l, hl⟩ := hp.classes _ _ _ hce
      obtain ⟨slot, hs, -⟩ := hl.slots m hm
      exact ⟨slot, hs⟩
    · intro c hc m hm
      obtain ⟨l, -, hmethods⟩ := hp.methods c hc
      exact (hmethods m hm).filed
    · intro pre c post heq parent hpar
      exact hp.parent_before heq hpar
  have hdecls := (Emit.total_decls t).2 p.decls ((Decl.bound_filed _).2 _ _ _ _ hp.decls)
  have hbody := Code.total_ofExpr t hp.body.filed
  have hprogram : Total (Emit.program t h p) := by
    have hend : Total (do
        Emit.code (Code.ofExpr t p.body)
        Emit.instrs [.plain .halt]) := (Emit.total_code hbody).bind fun _ => Emit.total_instrs _
    unfold Emit.program
    simp only
    split
    · exact (Emit.total_instrs _).bind fun _ => hclasses.bind fun _ => hdecls.bind fun _ => hend
    · exact hend
  obtain ⟨⟨_, d⟩, hr⟩ := hprogram {}
  refine ⟨d.finish, ?_⟩
  unfold Program.generate
  rw [hr]
  rfl

/-- What a clean analysis of a program leaves behind. -/
structure Program.Analysed (p : Program) (b : Bindings) (types : Std.TreeMap NodeId Ty) : Prop where
  nodes : ∀ e ∈ p.parts, e.Filed b
  types : ∀ e ∈ p.parts, ∀ id, e.id? = some id → ∃ t, types[id]? = some t
  classes : ∀ c ∈ p.classes, ∃ k e, b.classes[c.id]? = some k ∧ b.entry? k.entry = some e
  slots : ∀ c ∈ p.classes, ∀ m ∈ c.methods, ∃ slot, b.slots[m.id]? = some slot

theorem Program.Resolved.class_filed {p : Program} {b : Bindings} {h : Ancestry}
    (hp : p.Resolved b h) {c : ClassDecl} (hc : c ∈ p.classes) :
    (∃ k e, b.classes[c.id]? = some k ∧ b.entry? k.entry = some e) ∧
      ∀ m ∈ c.methods, ∃ slot, b.slots[m.id]? = some slot := by
  obtain ⟨earlier, hce⟩ := class?_of_mem hp.distinct (List.mem_reverse.mpr hc)
  obtain ⟨l, hl⟩ := hp.classes _ _ _ hce
  obtain ⟨record, -, -, he, hk⟩ := hl.record
  refine ⟨⟨_, _, hk, he⟩, fun m hm => ?_⟩
  obtain ⟨slot, hs, -⟩ := hl.slots m hm
  exact ⟨slot, hs⟩

/-- The context in which the types of a program are checked. -/
def Program.typingContext (p : Program) : TypingContext :=
  { bindings := p.resolve.bindings, ancestry := p.resolve.ancestry }

/-- Compilation after a clean analysis is generation. -/
theorem Program.compile_of_clean (p : Program) (o : Options) (hr : p.resolve.errors = [])
    (ht : (p.typingContext.check p).errors = []) {listing : Listing}
    (hg : p.generate ⟨p.resolve.bindings, o.memorySize⟩ p.resolve.ancestry = .ok listing) :
    p.compile o = { listing? := some listing
                    programType? := (p.typingContext.check p).programType?, errors := [] } := by
  unfold Program.typingContext at ht ⊢
  simp [Program.compile, hr, ht, hg]

/-- Compilation after an analysis that found something wrong has no code. -/
theorem Program.compile_of_unclean (p : Program) (o : Options)
    (h : ¬ (p.resolve.errors = [] ∧ (p.typingContext.check p).errors = [])) :
    (p.compile o).listing? = none ∧ (p.compile o).errors ≠ [] ∧
      ∀ e, Diagnostic.generation e ∉ (p.compile o).errors := by
  unfold Program.typingContext at h
  unfold Program.compile
  by_cases hr : p.resolve.errors = []
  · simp only [hr, true_and] at h
    simp [hr, h]
  · by_cases ho : o.checkUnbound <;> simp [hr, ho]

/-- If names and types of a program are clean then everything that the generator
looks up is filed, and the program has code. So compilation never fails in
generation, and it has code exactly if names and types are clean. -/
theorem Program.compile_complete (p : Program) (o : Options) (hn : p.ids.Nodup) :
    (p.resolve.errors = [] → (p.typingContext.check p).errors = [] →
      p.Analysed p.resolve.bindings (p.typingContext.check p).types ∧
      (∃ t, (p.typingContext.check p).programType? = some t) ∧
      ∀ memorySize, ∃ listing,
        p.generate ⟨p.resolve.bindings, memorySize⟩ p.resolve.ancestry = .ok listing) ∧
    (∀ e, Diagnostic.generation e ∉ (p.compile o).errors) ∧
    ((∃ listing, (p.compile o).listing? = some listing) ↔
      p.resolve.errors = [] ∧ (p.typingContext.check p).errors = []) := by
  have hclean : p.resolve.errors = [] → p.Resolved p.resolve.bindings p.resolve.ancestry :=
    p.resolve_resolved hn
  refine ⟨?_, ?_⟩
  · intro hr ht
    have hp := hclean hr
    obtain ⟨t, hty, -, htypes⟩ := p.typingContext.check_typed p hp ht
    refine ⟨⟨hp.filed, ?_, fun c hc => (hp.class_filed hc).1, fun c hc => (hp.class_filed hc).2⟩,
      ⟨t, hty⟩, fun memorySize => ?_⟩
    · intro e he id hid
      exact ⟨_, Std.TreeMap.getElem?_eq_some_getElem (htypes e he id hid)⟩
    · exact Program.Resolved.generates (t := ⟨p.resolve.bindings, memorySize⟩) hp
  · by_cases h : p.resolve.errors = [] ∧ (p.typingContext.check p).errors = []
    · obtain ⟨listing, hg⟩ := Program.Resolved.generates
        (t := ⟨p.resolve.bindings, o.memorySize⟩) (hclean h.1)
      simp [p.compile_of_clean o h.1 h.2 hg, h]
    · obtain ⟨hlisting, -, herrors⟩ := p.compile_of_unclean o h
      exact ⟨herrors, by simp [hlisting, h]⟩

/-- A class whose method is overridden in a subclass, a variable that holds an
object of the subclass, and a function that is called with what the object
answers. -/
def overrideProgram : Program :=
  let pos := Position.ofLine 1
  { classes := [
      { id := 0, name := "A", parent? := none, pos
        fields := [⟨1, "x", .int pos, pos⟩]
        methods := [{ id := 2, name := "get", params := [], ret := .int pos, decls := []
                      body := .name 3 "x" pos, pos }] },
      { id := 4, name := "B", parent? := some "A", pos
        fields := []
        methods := [{ id := 5, name := "get", params := [], ret := .int pos, decls := []
                      body := .binary .add (.name 6 "x" pos) (.lit (.int 1) pos) pos, pos }] }]
    decls := [
      .fn 7 "twice" [⟨8, "n", .int pos, pos⟩] (.int pos) []
        (.binary .add (.name 9 "n" pos) (.name 10 "n" pos) pos) pos,
      .var 11 "a" (.named "A" pos) (.new 12 "B" [.lit (.int 20) pos] pos) pos]
    body := .print (.call 13 "twice" [.send 14 "a" "get" [] pos] pos) pos
    pos }

theorem overrideProgram_ids : overrideProgram.ids.Nodup := by decide +kernel

theorem overrideProgram_clean : overrideProgram.resolve.errors = [] ∧
    (overrideProgram.typingContext.check overrideProgram).errors = [] := by
  constructor <;> decide +kernel

/-- The override fits, so the program is clean and has code. -/
theorem overrideProgram_compiles : overrideProgram.ids.Nodup ∧
    (∃ t, (overrideProgram.typingContext.check overrideProgram).programType? = some t) ∧
    ∃ listing, (overrideProgram.compile {}).listing? = some listing := by
  obtain ⟨hanalysed, -, hlisting⟩ := overrideProgram.compile_complete {} overrideProgram_ids
  obtain ⟨-, htype, -⟩ := hanalysed overrideProgram_clean.1 overrideProgram_clean.2
  exact ⟨overrideProgram_ids, htype, hlisting.mpr overrideProgram_clean⟩

end Classlet
