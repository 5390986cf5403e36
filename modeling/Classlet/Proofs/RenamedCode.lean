import Classlet.Proofs.Labels
import Classlet.Proofs.MemberPlaces
import Classlet.Proofs.RenamedTyping

/-!
Generating code for two programs that are renamed into each other. Names are mentioned in
errors only, labels are numbered, and a dispatch table is looked up under the name of a class;
so the same lines are generated. With the two passes before, compiling is the same up to names.
-/

namespace Classlet

/-- Two generations that agree from any state, and that leave the same state. -/
def Renaming.Generates (ρ : Renaming) {σ α β : Type} (Q : α → β → Prop)
    (x : StateT σ (Except GenerationError) α) (x' : StateT σ (Except GenerationError) β) : Prop :=
  ∀ s, Agrees (GenerationError.Renamed ρ) (fun y y' => Q y.1 y'.1 ∧ y'.2 = y.2) (x.run s) (x'.run s)

namespace Renaming.Generates

variable {ρ : Renaming} {σ α β γ δ : Type} {Q : α → β → Prop} {S : γ → δ → Prop}

theorem pure {a : α} {b : β} (h : Q a b) :
    ρ.Generates Q (Pure.pure a : StateT σ (Except GenerationError) α)
      (Pure.pure b : StateT σ (Except GenerationError) β) := fun _ => .ok ⟨h, rfl⟩

theorem fail {e e' : GenerationError} (h : e.Renamed ρ e') :
    ρ.Generates Q (throw e : StateT σ (Except GenerationError) α)
      (throw e' : StateT σ (Except GenerationError) β) := fun _ => .error h

theorem bind {x : StateT σ (Except GenerationError) α} {x' : StateT σ (Except GenerationError) β}
    {f : α → StateT σ (Except GenerationError) γ} {f' : β → StateT σ (Except GenerationError) δ}
    (hx : ρ.Generates Q x x') (hf : ∀ a b, Q a b → ρ.Generates S (f a) (f' b)) :
    ρ.Generates S (x >>= f) (x' >>= f') := by
  intro s
  have hrun := hx s
  rw [StateT.run_bind, StateT.run_bind]
  generalize x.run s = y, x'.run s = y' at hrun
  cases hrun with
  | error h => exact .error h
  | @ok y y' h =>
    obtain ⟨a, s₁⟩ := y
    obtain ⟨b, s₁'⟩ := y'
    obtain ⟨hab, rfl⟩ := h
    exact hf a b hab s₁'

/-- Generations of the same go on alike. -/
theorem bind_eq {x x' : StateT σ (Except GenerationError) α}
    {f : α → StateT σ (Except GenerationError) γ} {f' : α → StateT σ (Except GenerationError) δ}
    (hx : ρ.Generates Eq x x') (hf : ∀ a, ρ.Generates S (f a) (f' a)) :
    ρ.Generates S (x >>= f) (x' >>= f') := by
  refine hx.bind fun a b hab => ?_
  rw [← hab]
  exact hf a

/-- What only goes on from the state does not mention a name. -/
theorem state (f : σ → α × σ) :
    ρ.Generates Eq (modifyGet f : StateT σ (Except GenerationError) α) (modifyGet f) :=
  fun _ => .ok ⟨rfl, rfl⟩

theorem require {a : Option α} {b : Option β} (h : Option.Rel Q a b) (x : String)
    {p q : Position} (hpos : ρ.place p q) :
    ρ.Generates Q (Gen.require x p a) (Gen.require (ρ.name x) q b) := by
  cases h with
  | some hab => exact pure hab
  | none => exact fail ⟨hpos, rfl⟩

end Renaming.Generates

/-! Expressions. -/

namespace Code

open Renaming (Generates)

section

variable {ρ : Renaming} {x x' y y' z z' : Gen (List Line)} (hx : ρ.Generates Eq x x')
  (hy : ρ.Generates Eq y y')

include hx hy

theorem generates_comparison (test : JumpTest) :
    ρ.Generates Eq (comparison test x y) (comparison test x' y') :=
  (Generates.state _).bind_eq fun _ => (Generates.state _).bind_eq fun _ =>
    hx.bind_eq fun _ => hy.bind_eq fun _ => .pure rfl

theorem generates_arithmetic (op : Arith) :
    ρ.Generates Eq (arithmetic op x y) (arithmetic op x' y') :=
  hx.bind_eq fun _ => hy.bind_eq fun _ => .pure rfl

theorem generates_disjunction : ρ.Generates Eq (disjunction x y) (disjunction x' y') :=
  (Generates.state _).bind_eq fun _ => (Generates.state _).bind_eq fun _ =>
    hx.bind_eq fun _ => hy.bind_eq fun _ => .pure rfl

theorem generates_binary (op : BinOp) : ρ.Generates Eq (binary op x y) (binary op x' y') := by
  cases op with
  | equal => exact generates_comparison hx hy .equal
  | lessEqual => exact generates_comparison hx hy .lessEqual
  | greaterEqual => exact generates_comparison hy hx .lessEqual
  | or => exact generates_disjunction hx hy
  | and | add | sub | mul | div => exact generates_arithmetic hx hy _

theorem generates_conditional (hz : ρ.Generates Eq z z') :
    ρ.Generates Eq (conditional x y z) (conditional x' y' z') :=
  (Generates.state _).bind_eq fun _ => (Generates.state _).bind_eq fun _ =>
    hx.bind_eq fun _ => hz.bind_eq fun _ => hy.bind_eq fun _ => .pure rfl

end

section

variable {ρ : Renaming} {t t' : Target}

theorem generates_ofArgs {es es' : List Expr}
    (h : List.Forall₂ (fun e e' => ρ.Generates Eq (ofExpr t e) (ofExpr t' e')) es es') :
    ρ.Generates Eq (ofArgs t es) (ofArgs t' es') := by
  induction h with
  | nil => exact .pure rfl
  | cons he _ ih => exact he.bind_eq fun _ => ih.bind_eq fun _ => .pure rfl

theorem generates_ofArgsBackwards {es es' : List Expr}
    (h : List.Forall₂ (fun e e' => ρ.Generates Eq (ofExpr t e) (ofExpr t' e')) es es') :
    ρ.Generates Eq (ofArgsBackwards t es) (ofArgsBackwards t' es') := by
  induction h with
  | nil => exact .pure rfl
  | cons he _ ih => exact ih.bind_eq fun _ => he.bind_eq fun _ => .pure rfl

theorem used?_renamed (hb : t.bindings.Renamed ρ t'.bindings) (node : NodeId) :
    Option.Rel (fun x x' => x' = (x.1, x.2.rename ρ.name)) (t.bindings.used? node)
      (t'.bindings.used? node) := by
  rw [hb.used?]
  exact optionRel_map _ _

theorem callAt_rename (f : String → String) (e : Entry) : callAt (e.rename f) = callAt e := by
  have hmethod : (e.rename f).isMethod = e.isMethod := Ty.isMethod_rename f e.type
  rw [callAt, callAt, hmethod]
  rfl

/-- Expressions that are renamed into each other have the same code. -/
theorem generates_ofExpr (hb : t.bindings.Renamed ρ t'.bindings)
    (hsize : t'.memorySize = t.memorySize) {e e' : Expr} (he : e.Renamed ρ e') :
    ρ.Generates Eq (ofExpr t e) (ofExpr t' e') := by
  refine Expr.Renamed.induction ?_ ?_ ?_ ?_ ?_ ?_ ?_ ?_ ?_ he
  · intro value p q _
    exact .pure rfl
  · intro id x p q hpos
    unfold ofExpr
    refine (Generates.require (used?_renamed hb id) x hpos).bind ?_
    rintro ⟨u, entry⟩ _ rfl
    exact .pure rfl
  · intro op a a' c c' p q ha hc _
    exact generates_binary ha hc op
  · intro a a' p q ha _
    exact ha.bind_eq fun _ => .pure rfl
  · intro a a' c c' d d' p q _ ha hc hd _
    exact generates_conditional ha hc hd
  · intro a a' p q ha _
    exact ha.bind_eq fun _ => .pure rfl
  · intro id x es es' p q _ hes hpos
    unfold ofExpr
    refine (Generates.require (used?_renamed hb id) x hpos).bind ?_
    rintro ⟨u, entry⟩ _ rfl
    refine (generates_ofArgsBackwards hes).bind_eq fun code => .pure ?_
    rw [callAt_rename]
    rfl
  · intro id x y es es' p q _ hes hpos
    unfold ofExpr
    rw [hb.sends]
    have hsend : Option.Rel Eq t.bindings.sends[id]? t.bindings.sends[id]? := by
      cases t.bindings.sends[id]? with
      | some u => exact .some rfl
      | none => exact .none
    refine (Generates.require hsend y hpos).bind_eq fun u => ?_
    rw [hb.entry?, hb.entry?]
    refine (Generates.require (optionRel_map _ _) x hpos).bind ?_
    rintro receiver _ rfl
    refine (Generates.require (optionRel_map _ _) y hpos).bind ?_
    rintro method _ rfl
    exact (generates_ofArgsBackwards hes).bind_eq fun code => .pure rfl
  · intro id x es es' p q hrel hes hpos
    unfold ofExpr
    refine (Generates.require (used?_renamed hb id) x hpos).bind ?_
    rintro ⟨u, entry⟩ _ rfl
    refine (generates_ofArgs hes).bind_eq fun code => .pure ?_
    rw [hsize, hrel.length_eq]
    rfl

end

end Code

/-! Declarations. -/

theorem forall₂_isEmpty {α β : Type} {R : α → β → Prop} {as : List α} {bs : List β}
    (h : List.Forall₂ R as bs) : bs.isEmpty = as.isEmpty := by
  cases h <;> rfl

theorem forall₂_map {α β γ δ : Type} {R : γ → δ → Prop} {f : α → γ} {g : β → δ} {as : List α}
    {bs : List β} (h : List.Forall₂ (fun a b => R (f a) (g b)) as bs) :
    List.Forall₂ R (as.map f) (bs.map g) :=
  List.forall₂_map_left_iff.mpr (List.forall₂_map_right_iff.mpr h)

namespace Emit

open Renaming (Generates)

variable {ρ : Renaming}

theorem generates_code {g g' : Gen (List Line)} (hg : ρ.Generates Eq g g') :
    ρ.Generates Eq (code g) (code g') := by
  intro d
  have hrun := hg d.labels
  rw [run_code, run_code]
  generalize g.run d.labels = y, g'.run d.labels = y' at hrun
  cases hrun with
  | error h => exact .error h
  | ok h =>
    refine .ok ⟨rfl, ?_⟩
    simp only [h.1, h.2]

theorem generates_routine (params locals : Nat) {ds ds' : Emit Unit} {g g' : Gen (List Line)}
    (hds : ρ.Generates Eq ds ds') (hg : ρ.Generates Eq g g') :
    ρ.Generates Eq (routine params locals ds g) (routine params locals ds' g') := by
  refine (Generates.state _).bind_eq fun _ => (Generates.state _).bind_eq fun _ => ?_
  refine hds.bind_eq fun _ => (Generates.state _).bind_eq fun label => ?_
  refine (generates_code hg).bind_eq fun _ => (Generates.state _).bind_eq fun _ => ?_
  exact (Generates.state _).bind_eq fun _ => .pure rfl

section

variable {t t' : Target} (hb : t.bindings.Renamed ρ t'.bindings)
  (hsize : t'.memorySize = t.memorySize)

theorem generates_decls_of {ds ds' : List Decl}
    (h : List.Forall₂ (fun d d' => ρ.Generates Eq (decl t d) (decl t' d')) ds ds') :
    ρ.Generates Eq (decls t ds) (decls t' ds') := by
  induction h with
  | nil => exact .pure rfl
  | cons hd _ ih => exact hd.bind_eq fun _ => ih

include hb hsize

theorem generates_decl {d d' : Decl} (hd : d.Renamed ρ d') :
    ρ.Generates Eq (decl t d) (decl t' d') := by
  refine Decl.Renamed.induction ?_ ?_ hd
  · intro id x a a' e e' p q _ he _
    exact generates_code (Code.generates_ofExpr hb hsize he)
  · intro id x bs bs' a a' ds ds' e e' p q hbs _ hrel hds he _
    unfold decl
    rw [← hbs.length_eq, ← hrel.length_eq]
    refine Generates.bind_eq (generates_routine _ _ (generates_decls_of hds)
      (Code.generates_ofExpr hb hsize he)) fun label => ?_
    exact .state _

theorem generates_decls {ds ds' : List Decl} (hds : List.Forall₂ (Decl.Renamed ρ) ds ds') :
    ρ.Generates Eq (decls t ds) (decls t' ds') :=
  generates_decls_of (hds.imp fun _ _ hd => generates_decl hb hsize hd)

theorem generates_methods {ms ms' : List MethodDecl}
    (hms : List.Forall₂ (MethodDecl.Renamed ρ) ms ms') :
    ρ.Generates Eq (methods t ms) (methods t' ms') := by
  induction hms with
  | nil => exact .pure rfl
  | @cons m m' ms ms' hm _ ih =>
    unfold methods
    rw [hb.slots, hm.id, hm.name, ← hm.params.length_eq, ← hm.decls.length_eq]
    cases t.bindings.slots[m.id]? with
    | none => exact .fail ⟨hm.pos, rfl⟩
    | some slot =>
      refine Generates.bind_eq (generates_routine _ _ (generates_decls hb hsize hm.decls)
        (Code.generates_ofExpr hb hsize hm.body)) fun label => ?_
      exact ih.bind_eq fun rest => .pure rfl

omit hb hsize in
theorem generates_inheritedTable {h h' : Ancestry} (hh : h.Renamed ρ h') {done done' : Classes}
    (hdone : ρ.Maps Eq done done') {c c' : ClassDecl} (hc : c.Renamed ρ c') :
    ρ.Generates Eq (inheritedTable h done c) (inheritedTable h' done' c') := by
  unfold inheritedTable
  rw [hc.name, hh.parent?]
  cases h.parent? c.name with
  | none => exact .pure rfl
  | some parent =>
    simp only [Option.map_some, hdone.eq]
    cases done[parent]? with
    | some code => exact .pure rfl
    | none => exact .fail ⟨hc.pos, rfl⟩

theorem generates_classes {h h' : Ancestry} (hh : h.Renamed ρ h') {cs cs' : List ClassDecl}
    (hcs : List.Forall₂ (ClassDecl.Renamed ρ) cs cs') :
    ∀ {done done' : Classes}, ρ.Maps Eq done done' →
      ρ.Generates (ρ.Maps Eq) (classes t h cs done) (classes t' h' cs' done') := by
  induction hcs with
  | nil =>
    intro done done' hdone
    exact .pure hdone
  | @cons c c' cs cs' hc _ ih =>
    intro done done' hdone
    unfold classes
    refine (generates_inheritedTable hh hdone hc).bind_eq fun inherited => ?_
    refine (generates_methods hb hsize hc.methods).bind_eq fun ms => ?_
    refine (Generates.state _).bind_eq fun _ => ?_
    rw [hc.name]
    exact ih (hdone.insertIfNew c.name rfl)

theorem generates_program {h h' : Ancestry} (hh : h.Renamed ρ h') {p p' : Program}
    (hp : p.Renamed ρ p') : ρ.Generates Eq (program t h p) (program t' h' p') := by
  have hend : ρ.Generates Eq
      (do code (Code.ofExpr t p.body); instrs [.plain .halt])
      (do code (Code.ofExpr t' p'.body); instrs [.plain .halt]) :=
    (generates_code (Code.generates_ofExpr hb hsize hp.body)).bind_eq fun _ => .state _
  have hany : p'.declaresAny = p.declaresAny := by
    simp only [Program.declaresAny, forall₂_isEmpty hp.classes, forall₂_isEmpty hp.decls]
  unfold program
  rw [hany]
  simp only
  split
  · refine (Generates.state _).bind_eq fun _ => ?_
    refine (generates_classes hb hsize hh hp.classes .empty).bind fun _ _ _ => ?_
    exact (generates_decls hb hsize hp.decls).bind_eq fun _ => hend
  · exact hend

end

end Emit

theorem Program.Renamed.generate {ρ : Renaming} {p p' : Program} (hp : p.Renamed ρ p')
    {t t' : Target} (hb : t.bindings.Renamed ρ t'.bindings)
    (hsize : t'.memorySize = t.memorySize) {h h' : Ancestry} (hh : h.Renamed ρ h') :
    Agrees (GenerationError.Renamed ρ) Eq (p.generate t h) (p'.generate t' h') := by
  have hrun := Emit.generates_program hb hsize hh hp {}
  unfold Program.generate
  generalize (Emit.program t h p).run {} = y, (Emit.program t' h' p').run {} = y' at hrun
  cases hrun with
  | error h => exact .error h
  | ok h => exact .ok (congrArg Draft.finish h.2.symm)

/-! Compilation. -/

/-- What compiling two programs gives, up to names and positions. -/
structure Compilation.Renamed (ρ : Renaming) (c c' : Compilation) : Prop where
  succeeded : c'.succeeded = c.succeeded
  listing? : c'.listing? = c.listing?
  programType? : c'.programType? = c.programType?.map (Ty.rename ρ.name)
  errors : List.Forall₂ (Diagnostic.Renamed ρ) c.errors c'.errors

theorem Compilation.Renamed.of_parts {ρ : Renaming} {listing? : Option Listing} {t? t?' : Option Ty}
    {es es' : List Diagnostic} (ht : t?' = t?.map (Ty.rename ρ.name))
    (he : List.Forall₂ (Diagnostic.Renamed ρ) es es') :
    Compilation.Renamed ρ ⟨listing?, t?, es⟩ ⟨listing?, t?', es'⟩ := by
  refine ⟨?_, rfl, ht, he⟩
  simp only [Compilation.succeeded, forall₂_isEmpty he]

/-- A program whose names are changed by an injective function, and whose positions are
changed at will, compiles as it did before: it succeeds or fails as before, has the same code
and the renamed type, and the same errors are found in the same order, with the names
changed. -/
theorem Program.compile_renamed (ρ : Renaming) {p p' : Program} (h : p.Renamed ρ p')
    (o : Options) : (p.compile o).Renamed ρ (p'.compile o) := by
  have hr := h.resolve
  have hc : TypingContext.Renamed ρ
      { bindings := p.resolve.bindings, ancestry := p.resolve.ancestry }
      { bindings := p'.resolve.bindings, ancestry := p'.resolve.ancestry } :=
    ⟨hr.bindings, hr.ancestry⟩
  obtain ⟨htype, htyping⟩ := TypingContext.check_renamed hc h
  have hbinding : List.Forall₂ (Diagnostic.Renamed ρ) (p.resolve.errors.map Diagnostic.binding)
      (p'.resolve.errors.map Diagnostic.binding) :=
    forall₂_map (hr.errors.imp fun _ _ he => .binding he)
  have hgenerate : Agrees (GenerationError.Renamed ρ) Eq
      (p.generate { bindings := p.resolve.bindings, memorySize := o.memorySize } p.resolve.ancestry)
      (p'.generate { bindings := p'.resolve.bindings, memorySize := o.memorySize }
        p'.resolve.ancestry) := by
    refine h.generate ?_ ?_ hr.ancestry
    · exact hr.bindings
    · rfl
  -- Whatever has been found before, the last pass goes the same way.
  have hlast : ∀ {t? t?' : Option Ty} {es es' : List Diagnostic},
      t?' = t?.map (Ty.rename ρ.name) → List.Forall₂ (Diagnostic.Renamed ρ) es es' →
      ∀ (code? : Option Listing) {all all' : List Diagnostic},
      List.Forall₂ (Diagnostic.Renamed ρ) all all' →
      Compilation.Renamed ρ (if es.isEmpty then ⟨code?, t?, all⟩ else ⟨none, t?, es⟩)
        (if es'.isEmpty then ⟨code?, t?', all'⟩ else ⟨none, t?', es'⟩) := by
    intro t? t?' es es' ht he code? all all' hall
    rw [forall₂_isEmpty he]
    split
    · exact .of_parts ht hall
    · exact .of_parts ht he
  have htyped := List.rel_append hbinding (forall₂_map (htyping.imp fun _ _ he => .typing he))
  have huntyped := List.rel_append hbinding (List.Forall₂.nil (R := Diagnostic.Renamed ρ))
  simp only [Program.compile, forall₂_isEmpty hbinding]
  generalize p.generate _ _ = y, p'.generate _ _ = y' at hgenerate
  cases hgenerate with
  | @ok listing _ heq =>
    subst heq
    cases (p.resolve.errors.map Diagnostic.binding).isEmpty || o.checkUnbound with
    | true => exact hlast htype htyped (some listing) htyped
    | false => exact hlast rfl huntyped (some listing) huntyped
  | error hg =>
    have hfault := List.Forall₂.cons (Diagnostic.Renamed.generation hg) .nil
    cases (p.resolve.errors.map Diagnostic.binding).isEmpty || o.checkUnbound with
    | true => exact hlast htype htyped none (List.rel_append htyped hfault)
    | false => exact hlast rfl huntyped none (List.rel_append huntyped hfault)

/-- Every name is marked, and everything moves down by a line. -/
def markNames : Renaming where
  name x := x ++ "_"
  injective _ _ h := (String.append_left_inj "_").mp h
  place p q := q = { p with line := p.line + 1 }

/-- The faults of the program stay the same, with the names marked. -/
theorem clashProgram_renamed :
    let p' := clashProgram.rename markNames.name fun p => { p with line := p.line + 1 }
    clashProgram.Renamed markNames p' ∧
      (clashProgram.compile {}).Renamed markNames (p'.compile {}) := by
  have h : clashProgram.Renamed markNames
      (clashProgram.rename markNames.name fun p => { p with line := p.line + 1 }) :=
    Program.renamed_rename (fun _ => rfl) clashProgram
  exact ⟨h, Program.compile_renamed markNames h {}⟩

end Classlet
