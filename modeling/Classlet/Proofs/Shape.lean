import Classlet.Proofs.Labels

/-!
The shape of generated code, whatever the bindings say. Generation only adds to a draft:
lines where it is writing, and closed blocks behind those that are there. It closes the
block of a function before it takes the next function label, so the blocks of a listing
are numbered through: each stands under the function label of its number, and the number
tells of which function or method it is the code.
-/

namespace Classlet

/-- The lines of a block, from the code of the local declarations and of the
body. -/
def routineLines (params locals : Nat) (ds bs : List Line) : List Line :=
  Code.instrs [.plain .setFrame, .plain (.pushReg .ra)] ++ ds ++ bs ++
    Code.instrs (Emit.returnCode params locals)

/-- Blocks under the function labels from a number on. -/
def blockLines : Nat → List (List Line) → List Line
  | _, [] => []
  | n, block :: blocks => .label (.function n) :: (block ++ blockLines (n + 1) blocks)

theorem blockLines_append (n : Nat) (a b : List (List Line)) :
    blockLines n (a ++ b) = blockLines n a ++ blockLines (n + a.length) b := by
  induction a generalizing n with
  | nil => rfl
  | cons block a ih =>
    rw [List.cons_append, blockLines, blockLines, ih, List.length_cons, List.cons_append,
      List.append_assoc, Nat.add_assoc, Nat.add_comm 1]

theorem blockLines_singleton (n : Nat) (block : List Line) :
    blockLines n [block] = .label (.function n) :: block := by
  rw [blockLines, blockLines, List.append_nil]

theorem mem_blockLines {line : Line} {n : Nat} {blocks : List (List Line)} :
    line ∈ blockLines n blocks ↔
      (∃ k, n ≤ k ∧ k < n + blocks.length ∧ line = .label (.function k)) ∨
        ∃ block ∈ blocks, line ∈ block := by
  induction blocks generalizing n with
  | nil =>
    refine ⟨fun h => (List.not_mem_nil h).elim, ?_⟩
    rintro (⟨k, hle, hlt, -⟩ | ⟨block, hb, -⟩)
    · rw [List.length_nil] at hlt
      omega
    · cases hb
  | cons block blocks ih =>
    rw [blockLines, List.mem_cons, List.mem_append, ih, List.length_cons]
    constructor
    · rintro (rfl | hline | ⟨k, hle, hlt, rfl⟩ | ⟨b, hb, hline⟩)
      · exact Or.inl ⟨n, Nat.le_refl n, by omega, rfl⟩
      · exact Or.inr ⟨block, List.mem_cons_self, hline⟩
      · exact Or.inl ⟨k, by omega, by omega, rfl⟩
      · exact Or.inr ⟨b, List.mem_cons_of_mem _ hb, hline⟩
    · rintro (⟨k, hle, hlt, rfl⟩ | ⟨b, hb, hline⟩)
      · by_cases hk : k = n
        · exact Or.inl (by rw [hk])
        · exact Or.inr (Or.inr (Or.inl ⟨k, by omega, by omega, rfl⟩))
      · rcases List.mem_cons.mp hb with rfl | hb
        · exact Or.inr (Or.inl hline)
        · exact Or.inr (Or.inr (Or.inr ⟨b, hb, hline⟩))

/-! Expressions have branch labels only. -/

namespace Gen

/-- Generation that hands out no function label. -/
def BranchesOnly {α : Type} (g : Gen α) : Prop :=
  ∀ s a s', g.run s = .ok (a, s') → s'.functions = s.functions

namespace BranchesOnly

variable {α β : Type}

theorem pure (a : α) : BranchesOnly (Pure.pure a) := by
  intro s b s' hr
  cases hr
  rfl

theorem bind {g : Gen α} {f : α → Gen β} (hg : BranchesOnly g) (hf : ∀ a, BranchesOnly (f a)) :
    BranchesOnly (g >>= f) := by
  intro s b s' hr
  obtain ⟨a, s₁, ha, hb⟩ := run_bind_ok hr
  rw [hf a s₁ b s' hb, hg s a s₁ ha]

theorem branch : BranchesOnly takeBranch := by
  intro s l s' hr
  cases hr
  rfl

theorem require (x : String) (pos : Position) (o : Option α) : BranchesOnly (require x pos o) := by
  intro s a s' hr
  rw [(run_require_ok hr).2]

end BranchesOnly

end Gen

namespace Code

open Gen (BranchesOnly)

variable {g g' g'' : Gen (List Line)}

theorem branchesOnly_comparison (test : JumpTest) (h : BranchesOnly g) (h' : BranchesOnly g') :
    BranchesOnly (comparison test g g') :=
  .bind .branch fun _ => .bind .branch fun _ => h.bind fun _ => h'.bind fun _ => .pure _

theorem branchesOnly_arithmetic (op : Arith) (h : BranchesOnly g) (h' : BranchesOnly g') :
    BranchesOnly (arithmetic op g g') :=
  h.bind fun _ => h'.bind fun _ => .pure _

theorem branchesOnly_disjunction (h : BranchesOnly g) (h' : BranchesOnly g') :
    BranchesOnly (disjunction g g') :=
  .bind .branch fun _ => .bind .branch fun _ => h.bind fun _ => h'.bind fun _ => .pure _

theorem branchesOnly_binary (op : BinOp) (h : BranchesOnly g) (h' : BranchesOnly g') :
    BranchesOnly (binary op g g') := by
  cases op with
  | equal | lessEqual => exact branchesOnly_comparison _ h h'
  | greaterEqual => exact branchesOnly_comparison _ h' h
  | or => exact branchesOnly_disjunction h h'
  | and | add | sub | mul | div => exact branchesOnly_arithmetic _ h h'

theorem branchesOnly_conditional (h : BranchesOnly g) (h' : BranchesOnly g')
    (h'' : BranchesOnly g'') : BranchesOnly (conditional g g' g'') :=
  .bind .branch fun _ => .bind .branch fun _ => h.bind fun _ => h''.bind fun _ =>
    h'.bind fun _ => .pure _

theorem branchesOnly_ofArgs (t : Target) {args : List Expr}
    (h : ∀ a ∈ args, BranchesOnly (ofExpr t a)) : BranchesOnly (ofArgs t args) := by
  induction args with
  | nil => exact .pure _
  | cons e es ih =>
    refine (h e List.mem_cons_self).bind fun _ => ?_
    exact (ih fun x hx => h x (List.mem_cons_of_mem _ hx)).bind fun _ => .pure _

theorem branchesOnly_ofArgsBackwards (t : Target) {args : List Expr}
    (h : ∀ a ∈ args, BranchesOnly (ofExpr t a)) : BranchesOnly (ofArgsBackwards t args) := by
  induction args with
  | nil => exact .pure _
  | cons e es ih =>
    refine (ih fun x hx => h x (List.mem_cons_of_mem _ hx)).bind fun _ => ?_
    exact (h e List.mem_cons_self).bind fun _ => .pure _

theorem branchesOnly_ofExpr (t : Target) (e : Expr) : BranchesOnly (ofExpr t e) := by
  induction e with
  | lit value pos => exact .pure _
  | name id x pos =>
    unfold ofExpr
    exact .bind (.require _ _ _) fun _ => .pure _
  | binary op left right pos ihl ihr =>
    unfold ofExpr
    exact branchesOnly_binary op ihl ihr
  | not operand pos ih =>
    unfold ofExpr
    exact ih.bind fun _ => .pure _
  | cond test yes no pos iht ihy ihn =>
    unfold ofExpr
    exact branchesOnly_conditional iht ihy ihn
  | print operand pos ih =>
    unfold ofExpr
    exact ih.bind fun _ => .pure _
  | call id callee args pos ih =>
    unfold ofExpr
    refine .bind (.require _ _ _) fun _ => ?_
    exact (branchesOnly_ofArgsBackwards t ih).bind fun _ => .pure _
  | send id receiver method args pos ih =>
    unfold ofExpr
    refine .bind (.require _ _ _) fun _ => .bind (.require _ _ _) fun _ => ?_
    refine .bind (.require _ _ _) fun _ => ?_
    exact (branchesOnly_ofArgsBackwards t ih).bind fun _ => .pure _
  | new id cls args pos ih =>
    unfold ofExpr
    exact .bind (.require _ _ _) fun _ => (branchesOnly_ofArgs t ih).bind fun _ => .pure _

end Code

/-! Code of declarations, classes and programs. -/

/-- The lines are code of the expression, and their labels are branch labels. -/
structure ExprCode (t : Target) (e : Expr) (lines : List Line) : Prop where
  code : CodeOf t e lines
  branches : ∀ l ∈ Line.labels lines, ∃ k, l = .branch k

/-- The lines are code of declarations, and the blocks that of the functions in them, with
labels from a number on. -/
inductive DeclsShape (t : Target) : Nat → List Decl → List Line → List (List Line) → Prop
  | nil {n : Nat} : DeclsShape t n [] [] []
  | var {n : Nat} {id : NodeId} {x : String} {type : WrittenType} {init : Expr} {pos : Position}
    {ds : List Decl} {a rest : List Line} {blocks : List (List Line)} (hinit : ExprCode t init a)
    (hds : DeclsShape t n ds rest blocks) :
    DeclsShape t n (.var id x type init pos :: ds) (a ++ rest) blocks
  | fn {n : Nat} {id : NodeId} {f : String} {params : List Binder} {ret : WrittenType}
    {decls : List Decl} {body : Expr} {pos : Position} {ds : List Decl} {a b rest : List Line}
    {inner blocks : List (List Line)} (hdecls : DeclsShape t n decls a inner)
    (hbody : ExprCode t body b) (hds : DeclsShape t (n + inner.length + 1) ds rest blocks) :
    DeclsShape t n (.fn id f params ret decls body pos :: ds)
      (Code.instrs [.pushLabel (.function (n + inner.length))] ++ rest)
      (inner ++ [routineLines params.length decls.length a b] ++ blocks)

/-- The slots and labels of methods, and the blocks of the methods and of the functions in
them, with labels from a number on. -/
inductive MethodsShape (t : Target) :
    Nat → List MethodDecl → List (Nat × Label) → List (List Line) → Prop
  | nil {n : Nat} : MethodsShape t n [] [] []
  | cons {n : Nat} {m : MethodDecl} {slot : MethodSlot} {ms : List MethodDecl}
    {qs : List (Nat × Label)} {a b : List Line} {inner blocks : List (List Line)}
    (hslot : t.bindings.slots[m.id]? = some slot) (hdecls : DeclsShape t n m.decls a inner)
    (hbody : ExprCode t m.body b) (hms : MethodsShape t (n + inner.length + 1) ms qs blocks) :
    MethodsShape t n (m :: ms) ((slot.index, .function (n + inner.length)) :: qs)
      (inner ++ [routineLines m.params.length m.decls.length a b] ++ blocks)

/-- The table that a class starts from. -/
def Inherits (h : Ancestry) (done : Emit.Classes) (c : ClassDecl) (table : List Label) : Prop :=
  match h.parent? c.name with
  | none => table = []
  | some parent => ∃ above, done[parent]? = some above ∧ table = above.table

/-- The tables of classes, and the blocks of their methods and of the functions in them,
with labels from a number on. -/
inductive ClassesShape (t : Target) (h : Ancestry) : Nat → Emit.Classes → List ClassDecl →
    Emit.Classes → List (List Label) → List (List Line) → Prop
  | nil {n : Nat} {done : Emit.Classes} : ClassesShape t h n done [] done [] []
  | cons {n : Nat} {done done' : Emit.Classes} {c : ClassDecl} {cs : List ClassDecl}
    {inherited : List Label} {qs : List (Nat × Label)} {tables : List (List Label)}
    {own blocks : List (List Line)} (hinherited : Inherits h done c inherited)
    (hmethods : MethodsShape t n c.methods qs own)
    (hcs : ClassesShape t h (n + own.length)
      (done.insertIfNew c.name (ClassCode.ofMethods inherited qs)) cs done' tables blocks) :
    ClassesShape t h n done (c :: cs) done' ((ClassCode.ofMethods inherited qs).table :: tables)
      (own ++ blocks)

/-- The lines that lay a table out. -/
def tableLines (table : List Label) : List Line :=
  Code.instrs (ClassCode.layout { table })

/-- What the code of a program is made of. -/
structure CodeParts where
  /-- What is in front of everything else. -/
  front : List Line
  done : Emit.Classes
  tables : List (List Label)
  decls : List Line
  body : List Line
  /-- The blocks of the methods of the classes and of the functions in them. -/
  methods : List (List Line)
  /-- The blocks of all other functions. -/
  functions : List (List Line)

/-- The code that is not in a block. -/
def CodeParts.main (c : CodeParts) : List Line :=
  c.front ++ c.tables.flatMap tableLines ++ c.decls ++ c.body ++ Code.instrs [.plain .halt]

def CodeParts.blocks (c : CodeParts) : List (List Line) := c.methods ++ c.functions

/-- The code of a program: the tables of its classes, its declarations and its body, and
then the blocks of its functions and methods. The outermost frame has a word in front if
there is anything in it. -/
structure CodeParts.Shape (c : CodeParts) (p : Program) (t : Target) (h : Ancestry) : Prop where
  front : p.declaresAny = true ∧ c.front = Code.instrs [.push 0] ∨
    c.front = [] ∧ p.classes = [] ∧ p.decls = []
  classes : ClassesShape t h 0 ∅ p.classes c.done c.tables c.methods
  decls : DeclsShape t c.methods.length p.decls c.decls c.functions
  body : ExprCode t p.body c.body

/-! What generation adds to a draft. -/

namespace Draft

/-- The draft with further lines and further closed blocks. -/
def after (d : Draft) (labels : LabelSupply) (lines blocks : List Line) : Draft :=
  { d with labels, closed := d.closed ++ blocks }.write lines

theorem after_nil (d : Draft) : d.after d.labels [] [] = d := by
  obtain ⟨labels, outer, opened, closed⟩ := d
  cases opened <;> simp [after, write]

theorem labels_after (d : Draft) (labels : LabelSupply) (lines blocks : List Line) :
    (d.after labels lines blocks).labels = labels := by
  unfold after write
  split <;> rfl

theorem after_after (d : Draft) (labels labels' : LabelSupply)
    (lines lines' blocks blocks' : List Line) :
    (d.after labels lines blocks).after labels' lines' blocks' =
      d.after labels' (lines ++ lines') (blocks ++ blocks') := by
  obtain ⟨s, outer, opened, closed⟩ := d
  cases opened <;> simp [after, write]

end Draft

/-- What a generation that succeeds adds to a draft: lines and closed blocks as described,
the blocks under the function labels that come next, and all labels from the supply. -/
def Writes {α : Type} (m : Emit α) (P : Nat → α → List Line → List (List Line) → Prop) : Prop :=
  ∀ d a d', m.run d = .ok (a, d') → ∃ s lines blocks,
    d' = d.after s lines (blockLines d.labels.functions blocks) ∧
    s.functions = d.labels.functions + blocks.length ∧
    Supplied d.labels s (Line.labels (lines ++ blockLines d.labels.functions blocks)) ∧
    P d.labels.functions a lines blocks

namespace Writes

variable {α β : Type}

theorem mono {m : Emit α} {P Q : Nat → α → List Line → List (List Line) → Prop} (h : Writes m P)
    (hPQ : ∀ n a lines blocks, P n a lines blocks → Q n a lines blocks) : Writes m Q := by
  intro d a d' hr
  obtain ⟨s, lines, blocks, hd, hfunctions, hs, hp⟩ := h d a d' hr
  exact ⟨s, lines, blocks, hd, hfunctions, hs, hPQ _ a lines blocks hp⟩

theorem pure (a : α) :
    Writes (Pure.pure a) fun _ b lines blocks => b = a ∧ lines = [] ∧ blocks = [] := by
  intro d b d' hr
  cases hr
  exact ⟨d.labels, [], [], d.after_nil.symm, rfl, Supplied.nil _, rfl, rfl, rfl⟩

theorem fail (e : GenerationError) (P : Nat → α → List Line → List (List Line) → Prop) :
    Writes (throw e) P := by
  intro d a d' hr
  cases hr

theorem bind {m : Emit α} {f : α → Emit β} {P : Nat → α → List Line → List (List Line) → Prop}
    {Q : Nat → β → List Line → List (List Line) → Prop} (hm : Writes m P)
    (hf : ∀ n a lines blocks, P n a lines blocks → Writes (f a) fun n' b lines' blocks' =>
      n' = n + blocks.length → Q n b (lines ++ lines') (blocks ++ blocks')) :
    Writes (m >>= f) Q := by
  intro d b d' hr
  obtain ⟨a, d₁, hr₁, hr₂⟩ := run_bind_ok hr
  obtain ⟨s, lines, blocks, rfl, hfunctions, hs, hp⟩ := hm d a d₁ hr₁
  obtain ⟨s', lines', blocks', rfl, hfunctions', hs', hq⟩ := hf _ a lines blocks hp _ b d' hr₂
  rw [Draft.labels_after] at hfunctions' hs' hq
  have hblocks : blockLines d.labels.functions blocks ++ blockLines s.functions blocks' =
      blockLines d.labels.functions (blocks ++ blocks') := by
    rw [blockLines_append, hfunctions]
  refine ⟨s', lines ++ lines', blocks ++ blocks', ?_, ?_, ?_, hq hfunctions⟩
  · rw [Draft.labels_after, Draft.after_after, hblocks]
  · rw [hfunctions', hfunctions, List.length_append, Nat.add_assoc]
  · refine (hs.append hs').perm ?_
    rw [← hblocks, List.perm_iff_count]
    intro l
    simp only [Line.labels_append, List.count_append]
    omega

theorem instrs (is : List Instr) :
    Writes (Emit.instrs is) fun _ _ lines blocks => lines = Code.instrs is ∧ blocks = [] := by
  intro d a d' hr
  cases hr
  refine ⟨d.labels, Code.instrs is, [], ?_, rfl, by simpa [blockLines] using Supplied.nil _,
    rfl, rfl⟩
  simp [Draft.after, Draft.writeInstrs, Code.instrs, blockLines]

theorem code (t : Target) (e : Expr) :
    Writes (Emit.code (Code.ofExpr t e)) fun _ _ lines blocks =>
      ExprCode t e lines ∧ blocks = [] := by
  intro d a d' hr
  rw [Emit.run_code] at hr
  rcases hg : (Code.ofExpr t e).run d.labels with e | ⟨lines, s⟩
  · rw [hg] at hr
    cases hr
  · rw [hg] at hr
    cases hr
    obtain ⟨hcode, hsup, -⟩ := Code.makes_ofExpr e _ _ _ hg
    have hsame := Code.branchesOnly_ofExpr t e _ _ _ hg
    have hbranches : ∀ l ∈ Line.labels lines, ∃ k, l = .branch k := by
      intro l hl
      have hbetween := hsup.between l hl
      cases l with
      | branch k => exact ⟨k, rfl⟩
      | function k =>
        have hlow : d.labels.functions ≤ k := hbetween.1
        have hhigh : k < s.functions := hbetween.2
        omega
    exact ⟨s, lines, [], by simp [Draft.after, blockLines], by simpa using hsame,
      by simpa [blockLines] using hsup, ⟨hcode, hbranches⟩, rfl⟩

/-- A routine is a closed block behind those of its local functions. -/
theorem routine {t : Target} {params locals : Nat} {ds : Emit Unit} {body : Expr}
    {P : Nat → List Line → List (List Line) → Prop} (hds : Writes ds fun n _ => P n) :
    Writes (Emit.routine params locals ds (Code.ofExpr t body)) fun n l lines blocks =>
      ∃ a b inner, P n a inner ∧ ExprCode t body b ∧ l = .function (n + inner.length) ∧
        lines = [] ∧ blocks = inner ++ [routineLines params locals a b] := by
  intro d l d' hr
  unfold Emit.routine at hr
  obtain ⟨_, d₁, hopen, hr₁⟩ := run_bind_ok hr
  obtain ⟨_, d₂, hentry, hr₂⟩ := run_bind_ok hr₁
  obtain ⟨_, d₃, hdecls, hr₃⟩ := run_bind_ok hr₂
  obtain ⟨label, d₄, hlabel, hr₄⟩ := run_bind_ok hr₃
  obtain ⟨_, d₅, hcode, hr₅⟩ := run_bind_ok hr₄
  obtain ⟨_, d₆, hreturn, hr₆⟩ := run_bind_ok hr₅
  obtain ⟨_, d₇, hclose, hr₇⟩ := run_bind_ok hr₆
  cases hr₇
  cases hopen
  cases hentry
  obtain ⟨s₃, a, inner, rfl, hfunctions, hs₃, hP⟩ := hds _ _ _ hdecls
  cases hlabel
  obtain ⟨s₅, b, blocks, rfl, hsame, hs₅, hbody, rfl⟩ := code t body _ _ _ hcode
  cases hreturn
  cases hclose
  have hd₂ : (Draft.writeInstrs d.openBlock [.plain .setFrame, .plain (.pushReg .ra)]).labels =
      d.labels := rfl
  rw [hd₂] at hfunctions hs₃ hP
  simp only [Draft.labels_after] at hsame hs₅
  have hblocks : blockLines d.labels.functions (inner ++ [routineLines params locals a b]) =
      blockLines d.labels.functions inner ++
        .label (.function s₃.functions) :: routineLines params locals a b := by
    rw [blockLines_append, blockLines_singleton, hfunctions]
  refine ⟨s₅, [], inner ++ [routineLines params locals a b], ?_, ?_, ?_, a, b, inner, hP, hbody, ?_,
    rfl, rfl⟩
  · rw [hblocks]
    obtain ⟨labels, outer, opened, closed⟩ := d
    cases opened <;>
      simp [Draft.after, Draft.openBlock, Draft.writeInstrs, Draft.write, Draft.closeBlock,
        routineLines, Code.instrs, blockLines]
  · rw [hsame, hfunctions, List.length_append, List.length_nil, List.length_singleton]
    rfl
  · have hall := hs₃.append ((supplied_takeFunction s₃).append hs₅)
    rw [hblocks]
    refine hall.perm ?_
    rw [List.perm_iff_count]
    intro l
    simp only [routineLines, blockLines, Line.labels_append, Line.labels_label, Line.labels_instrs,
      Line.labels_nil, List.count_append, List.count_cons, List.count_nil, LabelSupply.takeFunction]
    omega
  · rw [← hfunctions, Draft.labels_after]

end Writes

section

variable (t : Target) (h : Ancestry)

theorem writes_decls :
    (∀ d : Decl, Writes (Emit.decl t d) fun n _ lines blocks => ∀ ds rest blocks',
      DeclsShape t (n + blocks.length) ds rest blocks' →
        DeclsShape t n (d :: ds) (lines ++ rest) (blocks ++ blocks')) ∧
    ∀ ds : List Decl, Writes (Emit.decls t ds) fun n _ => DeclsShape t n ds := by
  apply Decl.induction
  · intro id name type init pos
    refine (Writes.code t init).mono ?_
    rintro n _ lines blocks ⟨hcode, rfl⟩ ds rest blocks' hds
    exact .var hcode hds
  · intro id name params ret decls body pos ih
    unfold Emit.decl
    refine (Writes.routine ih).bind ?_
    rintro n l _ _ ⟨a, b, inner, hdecls, hbody, rfl, rfl, rfl⟩
    refine (Writes.instrs _).mono ?_
    rintro _ _ lines blocks ⟨rfl, rfl⟩ - ds rest blocks' hds
    rw [List.append_nil] at hds ⊢
    rw [List.length_append, List.length_singleton, ← Nat.add_assoc] at hds
    exact .fn hdecls hbody hds
  · refine (Writes.pure ()).mono ?_
    rintro n _ lines blocks ⟨-, rfl, rfl⟩
    exact .nil
  · intro d ds ihd ihds
    refine ihd.bind ?_
    intro n _ lines blocks hd
    refine ihds.mono ?_
    rintro n' _ lines' blocks' hds rfl
    exact hd _ _ _ hds

theorem writes_methods (ms : List MethodDecl) :
    Writes (Emit.methods t ms) fun n qs lines blocks =>
      lines = [] ∧ MethodsShape t n ms qs blocks := by
  induction ms with
  | nil =>
    refine (Writes.pure []).mono ?_
    rintro n qs lines blocks ⟨rfl, rfl, rfl⟩
    exact ⟨rfl, .nil⟩
  | cons m ms ih =>
    unfold Emit.methods
    cases hslot : t.bindings.slots[m.id]? with
    | none => exact .fail _ _
    | some slot =>
      refine (Writes.routine ((writes_decls t).2 m.decls)).bind ?_
      rintro n l _ _ ⟨a, b, inner, hdecls, hbody, rfl, rfl, rfl⟩
      refine ih.bind ?_
      rintro n' qs _ blocks ⟨rfl, hms⟩
      refine (Writes.pure _).mono ?_
      rintro _ _ _ _ ⟨rfl, rfl, rfl⟩ - hn'
      rw [List.length_append, List.length_singleton, ← Nat.add_assoc] at hn'
      rw [hn'] at hms
      rw [List.append_nil blocks]
      exact ⟨rfl, .cons hslot hdecls hbody hms⟩

theorem writes_inheritedTable (done : Emit.Classes) (c : ClassDecl) :
    Writes (Emit.inheritedTable h done c) fun _ table lines blocks =>
      Inherits h done c table ∧ lines = [] ∧ blocks = [] := by
  unfold Emit.inheritedTable Inherits
  cases h.parent? c.name with
  | none => exact Writes.pure []
  | some parent =>
    simp only
    cases done[parent]? with
    | none => exact .fail _ _
    | some code =>
      refine (Writes.pure code.table).mono ?_
      rintro n table lines blocks ⟨rfl, rfl, rfl⟩
      exact ⟨⟨code, rfl, rfl⟩, rfl, rfl⟩

theorem writes_classes (cs : List ClassDecl) : ∀ done : Emit.Classes,
    Writes (Emit.classes t h cs done) fun n done' lines blocks => ∃ tables,
      lines = tables.flatMap tableLines ∧ ClassesShape t h n done cs done' tables blocks := by
  induction cs with
  | nil =>
    intro done
    refine (Writes.pure done).mono ?_
    rintro n _ lines blocks ⟨rfl, rfl, rfl⟩
    exact ⟨[], rfl, .nil⟩
  | cons c cs ih =>
    intro done
    unfold Emit.classes
    refine (writes_inheritedTable h done c).bind ?_
    rintro n inherited _ _ ⟨hinherited, rfl, rfl⟩
    refine (writes_methods t c.methods).bind ?_
    rintro n₁ qs _ own ⟨rfl, hmethods⟩
    refine (Writes.instrs _).bind ?_
    rintro n₂ _ _ _ ⟨rfl, rfl⟩
    refine (ih _).mono ?_
    rintro n₃ done' _ blocks ⟨tables, rfl, hcs⟩ hn₃ hn₂ hn₁
    have hfirst : n₁ = n := hn₁
    have hrest : n₃ = n + own.length := by rw [hn₃, hn₂, hfirst]; rfl
    rw [hfirst] at hmethods
    rw [hrest] at hcs
    simp only [List.nil_append]
    exact ⟨(ClassCode.ofMethods inherited qs).table :: tables, rfl, .cons hinherited hmethods hcs⟩

/-- The code of a program after everything that it declares. -/
theorem writes_body (p : Program) :
    Writes (do Emit.code (Code.ofExpr t p.body); Emit.instrs [.plain .halt]) fun _ _ lines blocks =>
      ∃ bs, ExprCode t p.body bs ∧ lines = bs ++ Code.instrs [.plain .halt] ∧ blocks = [] := by
  refine (Writes.code t p.body).bind ?_
  rintro n _ bs _ ⟨hbody, rfl⟩
  refine (Writes.instrs _).mono ?_
  rintro _ _ _ _ ⟨rfl, rfl⟩ -
  exact ⟨bs, hbody, rfl, rfl⟩

theorem writes_program (p : Program) :
    Writes (Emit.program t h p) fun n _ lines blocks => n = 0 → ∃ c : CodeParts,
      c.Shape p t h ∧ lines = c.main ∧ blocks = c.blocks := by
  unfold Emit.program
  simp only
  split
  · rename_i hany
    refine (Writes.instrs _).bind ?_
    rintro n _ _ _ ⟨rfl, rfl⟩
    refine (writes_classes t h p.classes ∅).bind ?_
    rintro n₁ done _ methods ⟨tables, rfl, hclasses⟩
    refine ((writes_decls t).2 p.decls).bind ?_
    intro n₂ _ ds functions hdecls
    refine (writes_body t p).mono ?_
    rintro n₃ _ _ _ ⟨bs, hbody, rfl, rfl⟩ - hn₂ hn₁ hn
    obtain rfl : n₁ = 0 := hn₁.trans hn
    rw [hn₂, Nat.zero_add] at hdecls
    refine ⟨⟨Code.instrs [.push 0], done, tables, ds, bs, methods, functions⟩,
      ⟨Or.inl ⟨hany, rfl⟩, hclasses, hdecls, hbody⟩, ?_, ?_⟩
    · simp [CodeParts.main]
    · simp [CodeParts.blocks]
  · rename_i hany
    simp only [Program.declaresAny, Bool.or_eq_true, Bool.not_eq_true', not_or,
      Bool.not_eq_false, List.isEmpty_iff] at hany
    refine (writes_body t p).mono ?_
    rintro n _ _ _ ⟨bs, hbody, rfl, rfl⟩ -
    refine ⟨⟨[], ∅, [], [], bs, [], []⟩, ⟨Or.inr ⟨rfl, hany⟩, ?_, ?_, hbody⟩, rfl, rfl⟩
    · rw [hany.1]
      exact .nil
    · rw [hany.2]
      exact .nil

end

/-- What is generated for a program is its code outside of the blocks and then the blocks,
and no label is placed twice. -/
theorem Program.generate_shape {p : Program} {t : Target} {h : Ancestry} {L : Listing}
    (hg : p.generate t h = .ok L) : ∃ c : CodeParts, c.Shape p t h ∧
      L.lines = c.main ++ blockLines 0 c.blocks ∧ L.labels.Nodup := by
  unfold Program.generate at hg
  rcases hr : (Emit.program t h p).run {} with e | ⟨_, d⟩
  · rw [hr] at hg
    cases hg
  · rw [hr] at hg
    cases hg
    obtain ⟨s, lines, blocks, rfl, -, hsup, hshape⟩ := writes_program t h p _ _ _ hr
    obtain ⟨c, hc, rfl, rfl⟩ := hshape rfl
    have hlines : (Draft.after {} s c.main (blockLines 0 c.blocks)).finish.lines =
        c.main ++ blockLines 0 c.blocks := by
      simp [Draft.after, Draft.write, Draft.finish]
    refine ⟨c, hc, hlines, ?_⟩
    have hnodup := hsup.nodup
    rw [← hlines] at hnodup
    exact hnodup

end Classlet
