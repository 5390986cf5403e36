import Classlet.Code.Generate
import Classlet.Proofs.Assembly
import Classlet.Proofs.Tree
import Mathlib.Data.List.Forall2

/-!
What the code of an expression looks like and which labels it has. Generation
hands out each label once, so the labels of a piece of code are all different and
lie between the supply before and the supply after; and a piece of code refers to
no label but its own.
-/

namespace Classlet

/-! Labels that were handed out. -/

/-- The label was handed out between two states of the supply. -/
def Label.Between (s s' : LabelSupply) : Label → Prop
  | .branch n => s.branches ≤ n ∧ n < s'.branches
  | .function n => s.functions ≤ n ∧ n < s'.functions

/-- The labels are different, and were handed out between two states of the
supply. -/
structure Supplied (s s' : LabelSupply) (labels : List Label) : Prop where
  branches : s.branches ≤ s'.branches
  functions : s.functions ≤ s'.functions
  nodup : labels.Nodup
  between : ∀ l ∈ labels, l.Between s s'

theorem Label.Between.mono {r s s' r' : LabelSupply} {l : Label} (h : l.Between s s')
    (hb : r.branches ≤ s.branches) (hf : r.functions ≤ s.functions)
    (hb' : s'.branches ≤ r'.branches) (hf' : s'.functions ≤ r'.functions) : l.Between r r' := by
  cases l with
  | branch n => exact ⟨Nat.le_trans hb h.1, Nat.lt_of_lt_of_le h.2 hb'⟩
  | function n => exact ⟨Nat.le_trans hf h.1, Nat.lt_of_lt_of_le h.2 hf'⟩

theorem Supplied.nil (s : LabelSupply) : Supplied s s [] :=
  ⟨Nat.le_refl _, Nat.le_refl _, List.nodup_nil, by simp⟩

theorem Supplied.append {s s₁ s' : LabelSupply} {a b : List Label} (ha : Supplied s s₁ a)
    (hb : Supplied s₁ s' b) : Supplied s s' (a ++ b) := by
  have hab : ∀ l ∈ a, ∀ l' ∈ b, l ≠ l' := by
    rintro l hl _ hl' rfl
    have h := ha.between l hl
    have h' := hb.between l hl'
    cases l with
    | branch n => exact absurd h.2 (Nat.not_lt.mpr h'.1)
    | function n => exact absurd h.2 (Nat.not_lt.mpr h'.1)
  refine ⟨Nat.le_trans ha.branches hb.branches, Nat.le_trans ha.functions hb.functions,
    List.nodup_append.mpr ⟨ha.nodup, hb.nodup, hab⟩, ?_⟩
  intro l hl
  rcases List.mem_append.mp hl with hl | hl
  · exact (ha.between l hl).mono (Nat.le_refl _) (Nat.le_refl _) hb.branches hb.functions
  · exact (hb.between l hl).mono ha.branches ha.functions (Nat.le_refl _) (Nat.le_refl _)

theorem Supplied.perm {s s' : LabelSupply} {a b : List Label} (h : Supplied s s' a)
    (hab : a.Perm b) : Supplied s s' b :=
  ⟨h.branches, h.functions, hab.nodup_iff.mp h.nodup, fun l hl => h.between l (hab.mem_iff.mpr hl)⟩

theorem supplied_takeBranch (s : LabelSupply) :
    Supplied s s.takeBranch.2 [s.takeBranch.1] := by
  refine ⟨Nat.le_succ _, Nat.le_refl _, by simp, ?_⟩
  intro l hl
  rw [List.mem_singleton.mp hl]
  exact ⟨Nat.le_refl _, Nat.lt_succ_self _⟩

theorem supplied_takeFunction (s : LabelSupply) :
    Supplied s s.takeFunction.2 [s.takeFunction.1] := by
  refine ⟨Nat.le_refl _, Nat.le_succ _, by simp, ?_⟩
  intro l hl
  rw [List.mem_singleton.mp hl]
  exact ⟨Nat.le_refl _, Nat.lt_succ_self _⟩

namespace Line

/-- The labels that lines place. -/
def labels (lines : List Line) : List Label := lines.filterMap Line.label?

/-- The labels that lines refer to. -/
def targets (lines : List Line) : List Label :=
  (lines.filterMap Line.instr?).filterMap Instr.target?

/-- Lines that refer to no other labels than their own. -/
def Closed (lines : List Line) : Prop := targets lines ⊆ labels lines

@[simp] theorem labels_nil : labels [] = [] := rfl

@[simp] theorem labels_append (a b : List Line) : labels (a ++ b) = labels a ++ labels b := by
  simp [labels]

@[simp] theorem labels_label (l : Label) (rest : List Line) :
    labels (.label l :: rest) = l :: labels rest := rfl

@[simp] theorem labels_instr (i : Instr) (rest : List Line) :
    labels (.instr i :: rest) = labels rest := rfl

@[simp] theorem labels_instrs (is : List Instr) : labels (Code.instrs is) = [] := by
  induction is with
  | nil => rfl
  | cons i is ih => exact ih

@[simp] theorem targets_nil : targets [] = [] := rfl

@[simp] theorem targets_append (a b : List Line) : targets (a ++ b) = targets a ++ targets b := by
  simp [targets]

@[simp] theorem targets_label (l : Label) (rest : List Line) :
    targets (.label l :: rest) = targets rest := rfl

@[simp] theorem targets_instr (i : Instr) (rest : List Line) :
    targets (.instr i :: rest) = i.target?.toList ++ targets rest := by
  cases h : i.target? <;> simp [targets, Line.instr?, h]

theorem targets_instrs (is : List Instr) :
    targets (Code.instrs is) = is.filterMap Instr.target? := by
  induction is with
  | nil => rfl
  | cons i is ih =>
    simp only [Code.instrs, List.map_cons] at ih ⊢
    rw [targets_instr, ih]
    cases h : i.target? <;> simp [h]

theorem Closed.append {a b : List Line} (ha : Closed a) (hb : Closed b) : Closed (a ++ b) := by
  rw [Closed, targets_append, labels_append]
  exact List.append_subset.mpr ⟨List.subset_append_of_subset_left _ ha,
    List.subset_append_of_subset_right _ hb⟩

end Line

/-! The code of an expression. -/

/-- The operations that are one operation of the machine. -/
def BinOp.arith? : BinOp → Option Arith
  | .and | .mul => some .mul
  | .add => some .add
  | .sub => some .sub
  | .div => some .div
  | .equal | .lessEqual | .greaterEqual | .or => none

namespace Code

def comparisonLines (test : JumpTest) (yes done : Label) (first second : List Line) : List Line :=
  first ++ second ++ instrs [.jump test yes, .push 0, .jump .always done] ++
    [.label yes, .instr (.push 1), .label done]

def disjunctionLines (no done : Label) (left right : List Line) : List Line :=
  left ++ right ++
    instrs [.plain (.arith .add), .push 0, .jump .equal no, .push 1, .jump .always done] ++
    [.label no, .instr (.push 0), .label done]

def conditionalLines (yes done : Label) (test whenYes whenNo : List Line) : List Line :=
  test ++ instrs [.push 1, .jump .equal yes] ++ whenNo ++ instrs [.jump .always done] ++
    [.label yes] ++ whenYes ++ [.label done]

end Code

open Code in
/-- The lines are code of the expression. -/
inductive CodeOf (t : Target) : Expr → List Line → Prop
  | lit {value : Literal} {pos : Position} :
    CodeOf t (.lit value pos) (instrs [.push value.word])
  | name {id : NodeId} {x : String} {pos : Position} {u : Use} {e : Entry}
    (hu : t.bindings.used? id = some (u, e)) :
    CodeOf t (.name id x pos) (instrs (pushFrame (u.distance e) ++ loadAt e.offset))
  | equal {left right : Expr} {pos : Position} {a b : List Line} {yes done : Label}
    (ha : CodeOf t left a) (hb : CodeOf t right b) :
    CodeOf t (.binary .equal left right pos) (comparisonLines .equal yes done a b)
  | lessEqual {left right : Expr} {pos : Position} {a b : List Line} {yes done : Label}
    (ha : CodeOf t left a) (hb : CodeOf t right b) :
    CodeOf t (.binary .lessEqual left right pos) (comparisonLines .lessEqual yes done a b)
  | greaterEqual {left right : Expr} {pos : Position} {a b : List Line} {yes done : Label}
    (ha : CodeOf t left a) (hb : CodeOf t right b) :
    CodeOf t (.binary .greaterEqual left right pos) (comparisonLines .lessEqual yes done b a)
  | or {left right : Expr} {pos : Position} {a b : List Line} {no done : Label}
    (ha : CodeOf t left a) (hb : CodeOf t right b) :
    CodeOf t (.binary .or left right pos) (disjunctionLines no done a b)
  | arith {op : BinOp} {o : Arith} {left right : Expr} {pos : Position} {a b : List Line}
    (ho : op.arith? = some o) (ha : CodeOf t left a) (hb : CodeOf t right b) :
    CodeOf t (.binary op left right pos) (a ++ b ++ instrs [.plain (.arith o)])
  | not {operand : Expr} {pos : Position} {a : List Line} (ha : CodeOf t operand a) :
    CodeOf t (.not operand pos)
      (a ++ instrs [.push (-1), .plain (.arith .mul), .push 1, .plain (.arith .add)])
  | cond {test yes no : Expr} {pos : Position} {a b c : List Line} {yesLabel done : Label}
    (ha : CodeOf t test a) (hb : CodeOf t yes b) (hc : CodeOf t no c) :
    CodeOf t (.cond test yes no pos) (conditionalLines yesLabel done a b c)
  | print {operand : Expr} {pos : Position} {a : List Line} (ha : CodeOf t operand a) :
    CodeOf t (.print operand pos) (a ++ instrs [.plain .print])
  | call {id : NodeId} {callee : String} {args : List Expr} {pos : Position} {u : Use} {e : Entry}
    {codes : List (List Line)} (hu : t.bindings.used? id = some (u, e))
    (hargs : List.Forall₂ (CodeOf t) args codes) :
    CodeOf t (.call id callee args pos)
      (instrs [.plain (.pushReg .fp)] ++ codes.reverse.flatten ++
        instrs (pushFrame (u.distance e) ++ callAt e))
  | send {id : NodeId} {receiver method : String} {args : List Expr} {pos : Position}
    {u : SendUse} {r m : Entry} {codes : List (List Line)}
    (hu : t.bindings.sends[id]? = some u)
    (hr : t.bindings.entry? u.receiver.entry = some r)
    (hm : t.bindings.entry? u.method = some m) (hargs : List.Forall₂ (CodeOf t) args codes) :
    CodeOf t (.send id receiver method args pos)
      (instrs [.plain (.pushReg .fp)] ++ codes.reverse.flatten ++
        instrs (pushFrame (u.receiver.distance r) ++ loadAt r.offset ++ callMethod m))
  | new {id : NodeId} {cls : String} {args : List Expr} {pos : Position} {u : Use} {e : Entry}
    {codes : List (List Line)} (hu : t.bindings.used? id = some (u, e))
    (hargs : List.Forall₂ (CodeOf t) args codes) :
    CodeOf t (.new id cls args pos)
      (codes.flatten ++ instrs (allocate args.length (t.memorySize + Int64.ofInt e.offset)))

/-- What holds of the code of each argument. -/
theorem forall_codes {t : Target} {args : List Expr} {codes : List (List Line)}
    (h : List.Forall₂ (CodeOf t) args codes) {P : List Line → Prop}
    (hP : ∀ x ∈ args, ∀ {lines}, CodeOf t x lines → P lines) : ∀ a ∈ codes, P a := by
  induction h with
  | nil =>
    intro a ha
    cases ha
  | cons hcode _ ih =>
    intro a ha
    rcases List.mem_cons.mp ha with rfl | ha
    · exact hP _ List.mem_cons_self hcode
    · exact ih (fun x hx => hP x (List.mem_cons_of_mem _ hx)) a ha

/-- What a generation that succeeds makes: lines as described, with labels from
the supply. -/
def Gen.Makes (g : Gen (List Line)) (P : List Line → Prop) : Prop :=
  ∀ s lines s', g.run s = .ok (lines, s') →
    P lines ∧ Supplied s s' (Line.labels lines) ∧ Line.Closed lines

theorem Gen.Makes.mono {g : Gen (List Line)} {P Q : List Line → Prop} (h : g.Makes P)
    (hPQ : ∀ lines, P lines → Q lines) : g.Makes Q := by
  intro s lines s' hr
  obtain ⟨hp, hrest⟩ := h s lines s' hr
  exact ⟨hPQ lines hp, hrest⟩

/-- A succeeding run of two steps in a row. -/
theorem run_bind_ok {σ ε α β : Type} {m : StateT σ (Except ε) α} {f : α → StateT σ (Except ε) β}
    {s s' : σ} {b : β} (h : (m >>= f).run s = .ok (b, s')) :
    ∃ a s₁, m.run s = .ok (a, s₁) ∧ (f a).run s₁ = .ok (b, s') := by
  rw [StateT.run_bind] at h
  rcases hm : m.run s with e | ⟨a, s₁⟩
  · rw [hm] at h
    cases h
  · rw [hm] at h
    exact ⟨a, s₁, rfl, h⟩

theorem Emit.run_code (g : Gen (List Line)) (d : Draft) :
    (Emit.code g).run d =
      (g.run d.labels).map fun p => ((), { d with labels := p.2 }.write p.1) := by
  unfold Emit.code
  rw [StateT.run_bind, StateT.run_get, pure_bind, StateT.run_bind]
  change (StateT.run (StateT.lift (g.run d.labels)) d >>= _) = _
  rw [StateT.run_lift]
  rcases g.run d.labels with e | ⟨lines, labels⟩ <;> rfl

theorem Gen.run_require_ok {α : Type} {x : String} {pos : Position} {o : Option α} {a : α}
    {s s' : LabelSupply} (h : (Gen.require x pos o).run s = .ok (a, s')) : o = some a ∧ s' = s := by
  cases o with
  | none => cases h
  | some b =>
    cases h
    exact ⟨rfl, rfl⟩

theorem Gen.run_takeBranch_ok {s s' : LabelSupply} {l : Label}
    (h : Gen.takeBranch.run s = .ok (l, s')) : Supplied s s' [l] := by
  cases h
  exact supplied_takeBranch s

namespace Code

open Gen

section

variable {a b c : List Line}

theorem labels_comparisonLines (test : JumpTest) (yes done : Label) (a b : List Line) :
    Line.labels (comparisonLines test yes done a b) =
      Line.labels a ++ Line.labels b ++ [yes, done] := by
  simp [comparisonLines]

theorem labels_disjunctionLines (no done : Label) (a b : List Line) :
    Line.labels (disjunctionLines no done a b) =
      Line.labels a ++ Line.labels b ++ [no, done] := by
  simp [disjunctionLines]

theorem labels_conditionalLines (yes done : Label) (a b c : List Line) :
    Line.labels (conditionalLines yes done a b c) =
      Line.labels a ++ Line.labels c ++ [yes] ++ Line.labels b ++ [done] := by
  simp [conditionalLines]

theorem closed_of_two {x : List Line} {own : List Label}
    (hl : Line.labels x = Line.labels a ++ Line.labels b ++ own)
    (ht : Line.targets x = Line.targets a ++ Line.targets b ++ own) (ha : Line.Closed a)
    (hb : Line.Closed b) : Line.Closed x := by
  rw [Line.Closed, hl, ht]
  intro l hmem
  simp only [List.mem_append] at hmem ⊢
  rcases hmem with (h | h) | h
  · exact Or.inl (Or.inl (ha h))
  · exact Or.inl (Or.inr (hb h))
  · exact Or.inr h

theorem closed_comparisonLines (test : JumpTest) (yes done : Label) (ha : Line.Closed a)
    (hb : Line.Closed b) : Line.Closed (comparisonLines test yes done a b) :=
  closed_of_two (labels_comparisonLines ..)
    (by simp [comparisonLines, Line.targets_instrs, List.filterMap_cons, Instr.target?]) ha hb

theorem closed_disjunctionLines (no done : Label) (ha : Line.Closed a) (hb : Line.Closed b) :
    Line.Closed (disjunctionLines no done a b) :=
  closed_of_two (labels_disjunctionLines ..)
    (by simp [disjunctionLines, Line.targets_instrs, List.filterMap_cons, Instr.target?]) ha hb

theorem closed_conditionalLines (yes done : Label) (ha : Line.Closed a) (hb : Line.Closed b)
    (hc : Line.Closed c) : Line.Closed (conditionalLines yes done a b c) := by
  have htargets : Line.targets (conditionalLines yes done a b c) =
      Line.targets a ++ [yes] ++ Line.targets c ++ [done] ++ Line.targets b := by
    simp [conditionalLines, Line.targets_instrs, List.filterMap_cons, Instr.target?]
  rw [Line.Closed, labels_conditionalLines, htargets]
  intro l hl
  simp only [List.mem_append] at hl ⊢
  rcases hl with (((h | h) | h) | h) | h
  · exact Or.inl (Or.inl (Or.inl (Or.inl (ha h))))
  · exact Or.inl (Or.inl (Or.inr h))
  · exact Or.inl (Or.inl (Or.inl (Or.inr (hc h))))
  · exact Or.inr h
  · exact Or.inl (Or.inr (hb h))

/-- Code that is followed by instructions that refer to no label. -/
theorem closed_append_instrs (ha : Line.Closed a) {is : List Instr}
    (his : is.filterMap Instr.target? = []) : Line.Closed (a ++ instrs is) := by
  apply ha.append
  rw [Line.Closed, Line.targets_instrs, his]
  exact List.nil_subset _

end

section

variable {g g' g'' : Gen (List Line)} {P P' P'' : List Line → Prop}

theorem makes_instrs {is : List Instr} (h : is.filterMap Instr.target? = []) :
    (return instrs is : Gen (List Line)).Makes (· = instrs is) := by
  intro s lines s' hr
  cases hr
  refine ⟨rfl, by simpa using Supplied.nil s, ?_⟩
  simpa using closed_append_instrs (a := []) (List.nil_subset _) h

/-- Code that is followed by instructions. -/
theorem makes_append {is : List Instr} (h : g.Makes P) (his : is.filterMap Instr.target? = []) :
    (g >>= fun a => return a ++ instrs is).Makes fun lines =>
      ∃ a, P a ∧ lines = a ++ instrs is := by
  intro s lines s' hr
  obtain ⟨a, s₁, ha, hr₁⟩ := run_bind_ok hr
  cases hr₁
  obtain ⟨hP, hsup, hclosed⟩ := h _ _ _ ha
  exact ⟨⟨a, hP, rfl⟩, by simpa using hsup, closed_append_instrs hclosed his⟩

/-- Code between instructions. -/
theorem makes_between {front back : List Instr} (h : g.Makes P)
    (hfront : front.filterMap Instr.target? = []) (hback : back.filterMap Instr.target? = []) :
    (g >>= fun a => return instrs front ++ a ++ instrs back).Makes fun lines =>
      ∃ a, P a ∧ lines = instrs front ++ a ++ instrs back := by
  intro s lines s' hr
  obtain ⟨a, s₁, ha, hr₁⟩ := run_bind_ok hr
  cases hr₁
  obtain ⟨hP, hsup, hclosed⟩ := h _ _ _ ha
  have hopen : Line.Closed (instrs front) := by
    rw [Line.Closed, Line.targets_instrs, hfront]
    exact List.nil_subset _
  exact ⟨⟨a, hP, rfl⟩, by simpa using hsup, closed_append_instrs (hopen.append hclosed) hback⟩

/-- Code of two operands that is put together with two new labels. -/
theorem makes_labelled (join : Label → Label → List Line → List Line → List Line)
    (hlabels : ∀ l l' a b, Line.labels (join l l' a b) = Line.labels a ++ Line.labels b ++ [l, l'])
    (hjoin : ∀ l l' {a b}, Line.Closed a → Line.Closed b → Line.Closed (join l l' a b))
    (h : g.Makes P) (h' : g'.Makes P') :
    Gen.Makes (do
      let l ← Gen.takeBranch
      let l' ← Gen.takeBranch
      let a ← g
      let b ← g'
      return join l l' a b) fun lines => ∃ l l' a b, P a ∧ P' b ∧ lines = join l l' a b := by
  intro s lines s' hr
  obtain ⟨l, s₁, hl, hr₁⟩ := run_bind_ok hr
  obtain ⟨l', s₂, hl', hr₂⟩ := run_bind_ok hr₁
  obtain ⟨a, s₃, ha, hr₃⟩ := run_bind_ok hr₂
  obtain ⟨b, s₄, hb, hr₄⟩ := run_bind_ok hr₃
  cases hr₄
  obtain ⟨hP, hsup, hclosed⟩ := h _ _ _ ha
  obtain ⟨hP', hsup', hclosed'⟩ := h' _ _ _ hb
  refine ⟨⟨l, l', a, b, hP, hP', rfl⟩, ?_, hjoin l l' hclosed hclosed'⟩
  have hall := ((run_takeBranch_ok hl).append (run_takeBranch_ok hl')).append
    (hsup.append hsup')
  refine hall.perm ?_
  rw [hlabels]
  exact List.perm_append_comm

theorem makes_comparison (test : JumpTest) (h : g.Makes P) (h' : g'.Makes P') :
    (comparison test g g').Makes fun lines => ∃ yes done a b, P a ∧ P' b ∧
      lines = comparisonLines test yes done a b :=
  makes_labelled (comparisonLines test) (labels_comparisonLines test)
    (fun yes done _ _ => closed_comparisonLines test yes done) h h'

theorem makes_disjunction (h : g.Makes P) (h' : g'.Makes P') :
    (disjunction g g').Makes fun lines => ∃ no done a b, P a ∧ P' b ∧
      lines = disjunctionLines no done a b :=
  makes_labelled disjunctionLines labels_disjunctionLines
    (fun no done _ _ => closed_disjunctionLines no done) h h'

theorem makes_arithmetic (op : Arith) (h : g.Makes P) (h' : g'.Makes P') :
    (arithmetic op g g').Makes fun lines => ∃ a b, P a ∧ P' b ∧
      lines = a ++ b ++ instrs [.plain (.arith op)] := by
  intro s lines s' hr
  obtain ⟨a, s₁, ha, hr₁⟩ := run_bind_ok hr
  obtain ⟨b, s₂, hb, hr₂⟩ := run_bind_ok hr₁
  cases hr₂
  obtain ⟨hP, hsup, hclosed⟩ := h _ _ _ ha
  obtain ⟨hP', hsup', hclosed'⟩ := h' _ _ _ hb
  refine ⟨⟨a, b, hP, hP', rfl⟩, ?_, closed_append_instrs (hclosed.append hclosed') rfl⟩
  simpa using hsup.append hsup'

theorem makes_conditional (h : g.Makes P) (h' : g'.Makes P') (h'' : g''.Makes P'') :
    (conditional g g' g'').Makes fun lines => ∃ yes done a b c, P a ∧ P' b ∧ P'' c ∧
      lines = conditionalLines yes done a b c := by
  intro s lines s' hr
  obtain ⟨yes, s₁, hyes, hr₁⟩ := run_bind_ok hr
  obtain ⟨done, s₂, hdone, hr₂⟩ := run_bind_ok hr₁
  obtain ⟨a, s₃, ha, hr₃⟩ := run_bind_ok hr₂
  obtain ⟨c, s₄, hc, hr₄⟩ := run_bind_ok hr₃
  obtain ⟨b, s₅, hb, hr₅⟩ := run_bind_ok hr₄
  cases hr₅
  obtain ⟨hP, hsup, hclosed⟩ := h _ _ _ ha
  obtain ⟨hP', hsup', hclosed'⟩ := h' _ _ _ hb
  obtain ⟨hP'', hsup'', hclosed''⟩ := h'' _ _ _ hc
  refine ⟨⟨yes, done, a, b, c, hP, hP', hP'', rfl⟩, ?_,
    closed_conditionalLines _ _ hclosed hclosed' hclosed''⟩
  have hall := ((run_takeBranch_ok hyes).append (run_takeBranch_ok hdone)).append
    ((hsup.append hsup'').append hsup')
  refine hall.perm ?_
  rw [← conditionalLines, labels_conditionalLines]
  rw [List.perm_iff_count]
  intro l
  simp only [List.count_append]
  omega

end

variable {t : Target}

theorem makes_ofArgs {args : List Expr} (h : ∀ a ∈ args, (ofExpr t a).Makes (CodeOf t a)) :
    (ofArgs t args).Makes fun lines => ∃ codes, List.Forall₂ (CodeOf t) args codes ∧
      lines = codes.flatten := by
  induction args with
  | nil => exact (@makes_instrs [] rfl).mono fun lines hl => ⟨[], .nil, hl⟩
  | cons e es ih =>
    intro s lines s' hr
    unfold ofArgs at hr
    obtain ⟨a, s₁, ha, hr₁⟩ := run_bind_ok hr
    obtain ⟨b, s₂, hb, hr₂⟩ := run_bind_ok hr₁
    cases hr₂
    obtain ⟨hcode, hsup, hclosed⟩ := h e (by simp) _ _ _ ha
    obtain ⟨⟨codes, hcodes, rfl⟩, hsup', hclosed'⟩ :=
      ih (fun x hx => h x (List.mem_cons_of_mem _ hx)) _ _ _ hb
    exact ⟨⟨a :: codes, .cons hcode hcodes, rfl⟩, by simpa using hsup.append hsup',
      hclosed.append hclosed'⟩

theorem makes_ofArgsBackwards {args : List Expr}
    (h : ∀ a ∈ args, (ofExpr t a).Makes (CodeOf t a)) :
    (ofArgsBackwards t args).Makes fun lines => ∃ codes, List.Forall₂ (CodeOf t) args codes ∧
      lines = codes.reverse.flatten := by
  induction args with
  | nil => exact (@makes_instrs [] rfl).mono fun lines hl => ⟨[], .nil, hl⟩
  | cons e es ih =>
    intro s lines s' hr
    unfold ofArgsBackwards at hr
    obtain ⟨b, s₁, hb, hr₁⟩ := run_bind_ok hr
    obtain ⟨a, s₂, ha, hr₂⟩ := run_bind_ok hr₁
    cases hr₂
    obtain ⟨⟨codes, hcodes, rfl⟩, hsup, hclosed⟩ :=
      ih (fun x hx => h x (List.mem_cons_of_mem _ hx)) _ _ _ hb
    obtain ⟨hcode, hsup', hclosed'⟩ := h e (by simp) _ _ _ ha
    refine ⟨⟨a :: codes, .cons hcode hcodes, by simp⟩, by simpa using hsup.append hsup',
      hclosed.append hclosed'⟩

/-- What is required is there, and generation goes on with it. -/
theorem makes_require {α : Type} {x : String} {pos : Position} {o : Option α}
    {f : α → Gen (List Line)} {P : List Line → Prop} (h : ∀ a, o = some a → (f a).Makes P) :
    (require x pos o >>= f).Makes P := by
  intro s lines s' hr
  obtain ⟨a, s₁, ha, hr₁⟩ := run_bind_ok hr
  obtain ⟨hsome, rfl⟩ := run_require_ok ha
  exact h a hsome _ _ _ hr₁

theorem makes_binary {op : BinOp} {left right : Expr} {pos : Position}
    (hl : (ofExpr t left).Makes (CodeOf t left)) (hr : (ofExpr t right).Makes (CodeOf t right)) :
    (binary op (ofExpr t left) (ofExpr t right)).Makes (CodeOf t (.binary op left right pos)) := by
  have harith : ∀ o, op.arith? = some o → (arithmetic o (ofExpr t left) (ofExpr t right)).Makes
      (CodeOf t (.binary op left right pos)) := by
    intro o ho
    refine (makes_arithmetic o hl hr).mono ?_
    rintro lines ⟨a, b, ha, hb, rfl⟩
    exact .arith ho ha hb
  cases op with
  | equal =>
    refine (makes_comparison .equal hl hr).mono ?_
    rintro lines ⟨yes, done, a, b, ha, hb, rfl⟩
    exact .equal ha hb
  | lessEqual =>
    refine (makes_comparison .lessEqual hl hr).mono ?_
    rintro lines ⟨yes, done, a, b, ha, hb, rfl⟩
    exact .lessEqual ha hb
  | greaterEqual =>
    refine (makes_comparison .lessEqual hr hl).mono ?_
    rintro lines ⟨yes, done, b, a, hb, ha, rfl⟩
    exact .greaterEqual ha hb
  | or =>
    refine (makes_disjunction hl hr).mono ?_
    rintro lines ⟨no, done, a, b, ha, hb, rfl⟩
    exact .or ha hb
  | and => exact harith .mul rfl
  | add => exact harith .add rfl
  | sub => exact harith .sub rfl
  | mul => exact harith .mul rfl
  | div => exact harith .div rfl

theorem target_pushFrame (distance : Nat) :
    (pushFrame distance).filterMap Instr.target? = [] := by
  simp [pushFrame, Instr.target?]

theorem target_load (u : Use) (e : Entry) :
    (pushFrame (u.distance e) ++ loadAt e.offset).filterMap Instr.target? = [] := by
  rw [List.filterMap_append, target_pushFrame]
  rfl

theorem target_callAt (e : Entry) : (callAt e).filterMap Instr.target? = [] := by
  unfold callAt
  split <;> rfl

/-- The end of a call of a function, and of a method on a receiver. -/
theorem target_callee (u : Use) (e : Entry) :
    (pushFrame (u.distance e) ++ callAt e).filterMap Instr.target? = [] := by
  rw [List.filterMap_append, target_pushFrame, target_callAt, List.append_nil]

theorem target_receiver (u : SendUse) (r m : Entry) :
    (pushFrame (u.receiver.distance r) ++ loadAt r.offset ++ callMethod m).filterMap
      Instr.target? = [] := by
  rw [List.filterMap_append, List.filterMap_append, target_pushFrame]
  rfl

theorem target_allocate (args : Nat) (slot : Word) :
    (allocate args slot).filterMap Instr.target? = [] := by
  have hmove : ((List.replicate args moveToHeap).flatten).filterMap Instr.target? = [] := by
    rw [List.filterMap_flatten, List.map_replicate]
    exact List.flatten_replicate_nil
  rw [allocate, List.filterMap_append, List.filterMap_append, hmove]
  rfl

/-- The code of an expression is what it should be. -/
theorem makes_ofExpr (e : Expr) : (ofExpr t e).Makes (CodeOf t e) := by
  induction e with
  | lit value pos => exact (makes_instrs rfl).mono fun lines hl => hl ▸ .lit
  | name id x pos =>
    unfold ofExpr
    refine makes_require ?_
    rintro ⟨u, e⟩ hu
    exact (makes_instrs (target_load u e)).mono fun lines hl => hl ▸ .name hu
  | binary op left right pos ihl ihr =>
    unfold ofExpr
    exact makes_binary ihl ihr
  | not operand pos ih =>
    unfold ofExpr
    refine (makes_append ih rfl).mono ?_
    rintro lines ⟨a, ha, rfl⟩
    exact .not ha
  | cond test yes no pos iht ihy ihn =>
    unfold ofExpr
    refine (makes_conditional iht ihy ihn).mono ?_
    rintro lines ⟨yesLabel, done, a, b, c, ha, hb, hc, rfl⟩
    exact .cond ha hb hc
  | print operand pos ih =>
    unfold ofExpr
    refine (makes_append ih rfl).mono ?_
    rintro lines ⟨a, ha, rfl⟩
    exact .print ha
  | call id callee args pos ih =>
    unfold ofExpr
    refine makes_require ?_
    rintro ⟨u, e⟩ hu
    refine (makes_between (makes_ofArgsBackwards ih) rfl (target_callee u e)).mono ?_
    rintro lines ⟨a, ⟨codes, hcodes, rfl⟩, rfl⟩
    exact .call hu hcodes
  | send id receiver method args pos ih =>
    unfold ofExpr
    refine makes_require fun u hu => makes_require fun r hr => makes_require fun m hm => ?_
    refine (makes_between (makes_ofArgsBackwards ih) rfl (target_receiver u r m)).mono ?_
    rintro lines ⟨a, ⟨codes, hcodes, rfl⟩, rfl⟩
    exact .send hu hr hm hcodes
  | new id cls args pos ih =>
    unfold ofExpr
    refine makes_require ?_
    rintro ⟨u, e⟩ hu
    refine (makes_append (makes_ofArgs ih) (target_allocate _ _)).mono ?_
    rintro lines ⟨a, ⟨codes, hcodes, rfl⟩, rfl⟩
    exact .new hu hcodes

end Code

end Classlet
