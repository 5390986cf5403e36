import Classlet.Proofs.Shape
import Classlet.Proofs.Sites
import Classlet.Proofs.Snapshot

/-!
The blocks of generated code are those of the functions and methods of the program, one by
one: the block under a function label is the code of the function or method of that
number, and a declaration of a function pushes the label of its own number. As the sizes
are right as well, code stands where the sites of a program say.
-/

namespace Classlet

open Code

/-! The sizes of code. -/

theorem sizes_pushFrame (distance : Nat) :
    Line.sizes (instrs (pushFrame distance)) = distance + 1 := by
  have hloads : Line.sizes (instrs (List.replicate distance (.plain .load))) = distance := by
    induction distance with
    | zero => rfl
    | succ distance ih =>
      rw [List.replicate_succ, instrs, List.map_cons, Line.sizes_cons, ← instrs, ih, Nat.add_comm]
      rfl
  rw [pushFrame, instrs, List.map_cons, Line.sizes_cons, ← instrs, hloads, Nat.add_comm]
  rfl

theorem sizes_moves (n : Nat) :
    Line.sizes (instrs (List.replicate n moveToHeap).flatten) = 7 * n := by
  induction n with
  | zero => rfl
  | succ n ih =>
    rw [List.replicate_succ, List.flatten_cons, instrs_append, Line.sizes_append, ih, Nat.mul_succ,
      Nat.add_comm]
    rfl

theorem sizes_allocate (n : Nat) (slot : Word) :
    Line.sizes (instrs (allocate n slot)) = 7 * n + 11 := by
  rw [allocate, instrs_append, instrs_append, Line.sizes_append, Line.sizes_append, sizes_moves]
  rfl

theorem sizes_callAt (e : Entry) : Line.sizes (instrs (callAt e)) = e.isMethod.toNat + 8 := by
  unfold callAt
  cases e.isMethod <;> rfl

theorem sizes_returnCode (params locals : Nat) :
    Line.sizes (instrs (Emit.returnCode params locals)) = returnWidth params locals := by
  have hpops : ∀ n, Line.sizes (instrs (List.replicate n (.plain .pop))) = n := by
    intro n
    induction n with
    | zero => rfl
    | succ n ih =>
      rw [List.replicate_succ, instrs, List.map_cons, Line.sizes_cons, ← instrs, ih, Nat.add_comm]
      rfl
  simp only [Emit.returnCode, instrs_append, Line.sizes_append, hpops, returnWidth]
  simp [instrs, Line.size, Instr.size]
  omega

namespace Expr

theorem sizes_args {t : Target} {args : List Expr}
    (h : ∀ a ∈ args, ∀ lines, CodeOf t a lines → Line.sizes lines = a.width t)
    {codes : List (List Line)} (hcodes : List.Forall₂ (CodeOf t) args codes) :
    Line.sizes codes.flatten = widthOfArgs t args := by
  induction hcodes with
  | nil => rfl
  | cons hcode _ ih =>
    rw [List.flatten_cons, Line.sizes_append, widthOfArgs, h _ List.mem_cons_self _ hcode,
      ih fun a ha => h a (List.mem_cons_of_mem _ ha)]

theorem sizes_argsBackwards {t : Target} {args : List Expr}
    (h : ∀ a ∈ args, ∀ lines, CodeOf t a lines → Line.sizes lines = a.width t)
    {codes : List (List Line)} (hcodes : List.Forall₂ (CodeOf t) args codes) :
    Line.sizes codes.reverse.flatten = widthOfArgs t args := by
  induction hcodes with
  | nil => rfl
  | cons hcode _ ih =>
    rw [List.reverse_cons, List.flatten_append, List.flatten_singleton, Line.sizes_append,
      widthOfArgs, h _ List.mem_cons_self _ hcode, ih fun a ha => h a (List.mem_cons_of_mem _ ha),
      Nat.add_comm]

end Expr

/-- The code of an expression is of the size of the expression. -/
theorem CodeOf.sizes {t : Target} {e : Expr} {lines : List Line} (h : CodeOf t e lines) :
    Line.sizes lines = e.width t := by
  induction e generalizing lines with
  | lit value pos =>
    cases h
    rfl
  | name id x pos =>
    cases h with
    | name hu =>
      rw [instrs_append, Line.sizes_append, sizes_pushFrame, Expr.width, Bindings.distance, hu,
        Option.elim_some]
      rfl
  | binary op left right pos ihl ihr =>
    cases h with
    | equal ha hb =>
      simp only [comparisonLines, Line.sizes_append, ihl ha, ihr hb, Expr.width]
      rfl
    | lessEqual ha hb =>
      simp only [comparisonLines, Line.sizes_append, ihl ha, ihr hb, Expr.width]
      rfl
    | greaterEqual ha hb =>
      simp only [comparisonLines, Line.sizes_append, ihl ha, ihr hb, Expr.width,
        Nat.add_comm (right.width t)]
      rfl
    | or ha hb =>
      simp only [disjunctionLines, Line.sizes_append, ihl ha, ihr hb, Expr.width]
      rfl
    | arith ho ha hb =>
      have hop : op.width = 1 := by cases op <;> first | rfl | cases ho
      simp only [Line.sizes_append, ihl ha, ihr hb, Expr.width, hop]
      rfl
  | not operand pos ih =>
    cases h with
    | not ha =>
      rw [Line.sizes_append, ih ha]
      rfl
  | cond test yes no pos iht ihy ihn =>
    cases h with
    | cond ha hb hc =>
      simp only [conditionalLines, Line.sizes_append, iht ha, ihy hb, ihn hc, Expr.width]
      rfl
  | print operand pos ih =>
    cases h with
    | print ha =>
      rw [Line.sizes_append, ih ha]
      rfl
  | call id callee args pos ih =>
    cases h with
    | call hu hargs =>
      rw [Line.sizes_append, Line.sizes_append,
        Expr.sizes_argsBackwards (fun a ha _ => ih a ha) hargs, instrs_append, Line.sizes_append,
        sizes_pushFrame, sizes_callAt, Expr.width, Bindings.distance,
        Bindings.callsMethod, hu, Option.elim_some, Option.any_some]
      simp only [instrs, List.map_cons, List.map_nil, Line.sizes_cons, Line.sizes_nil, Line.size,
        Instr.size]
      omega
  | send id receiver method args pos ih =>
    cases h with
    | send hu hr hm hargs =>
      rw [Line.sizes_append, Line.sizes_append,
        Expr.sizes_argsBackwards (fun a ha _ => ih a ha) hargs, instrs_append, instrs_append,
        Line.sizes_append, Line.sizes_append, sizes_pushFrame, Expr.width,
        Bindings.receiverDistance, hu, Option.elim_some, hr, Option.elim_some]
      simp only [instrs, loadAt, callMethod, duplicate, List.map_append, List.map_cons,
        List.map_nil, Line.sizes_append, Line.sizes_cons, Line.sizes_nil, Line.size, Instr.size]
  | new id cls args pos ih =>
    cases h with
    | new hu hargs =>
      rw [Line.sizes_append, Expr.sizes_args (fun a ha _ => ih a ha) hargs, sizes_allocate,
        Expr.width]

/-! The numbers of blocks. -/

/-- The program has the given functions and methods in a row, from a number on. -/
def Program.HasBlocks (p : Program) (n : Nat) (bs : List Block) : Prop :=
  ∃ before after, p.blocks = before ++ (bs ++ after) ∧ before.length = n

namespace Program.HasBlocks

variable {p : Program} {n : Nat} {a b : List Block}

theorem left (h : p.HasBlocks n (a ++ b)) : p.HasBlocks n a := by
  obtain ⟨before, after, hp, hn⟩ := h
  exact ⟨before, b ++ after, by rw [hp, List.append_assoc], hn⟩

theorem right (h : p.HasBlocks n (a ++ b)) : p.HasBlocks (n + a.length) b := by
  obtain ⟨before, after, hp, hn⟩ := h
  refine ⟨before ++ a, after, ?_, ?_⟩
  · rw [hp, List.append_assoc, List.append_assoc]
  · rw [List.length_append, hn]

theorem getElem? {block : Block} (h : p.HasBlocks n [block]) : p.blocks[n]? = some block := by
  obtain ⟨before, after, hp, rfl⟩ := h
  rw [hp, List.getElem?_append_right (Nat.le_refl _), Nat.sub_self]
  rfl

end Program.HasBlocks

/-- The lines are code of declarations, where each function is the label of its number. -/
inductive DeclsAt (p : Program) (t : Target) (outer : List Naming) :
    List (String × NodeId) → List Decl → List Line → Prop
  | nil {before : List (String × NodeId)} : DeclsAt p t outer before [] []
  | var {before : List (String × NodeId)} {id : NodeId} {x : String} {type : WrittenType}
    {init : Expr} {pos : Position} {ds : List Decl} {a rest : List Line} (hinit : CodeOf t init a)
    (hds : DeclsAt p t outer (before ++ [(x, id)]) ds rest) :
    DeclsAt p t outer before (.var id x type init pos :: ds) (a ++ rest)
  | fn {before : List (String × NodeId)} {id : NodeId} {f : String} {params : List Binder}
    {ret : WrittenType} {decls : List Decl} {body : Expr} {pos : Position} {ds : List Decl}
    {k : Nat} {rest : List Line}
    (hk : p.blocks[k]? = some ⟨.ofList (before ++ [(f, id)]) :: outer, params, decls, body⟩)
    (hds : DeclsAt p t outer (before ++ [(f, id)]) ds rest) :
    DeclsAt p t outer before (.fn id f params ret decls body pos :: ds)
      (instrs [.pushLabel (.function k)] ++ rest)

/-- The lines are the block of a function or method. -/
def Block.Lines (p : Program) (t : Target) (b : Block) (lines : List Line) : Prop :=
  ∃ ds bs, lines = routineLines b.params.length b.decls.length ds bs ∧
    DeclsAt p t b.scope (b.params.map Binder.named) b.decls ds ∧ CodeOf t b.body bs

/-- A label is that of the block of a method in some frames. -/
def Program.MethodAt (p : Program) (Γ : List Naming) (m : MethodDecl) (q : Label) : Prop :=
  ∃ k, q = .function k ∧ p.blocks[k]? = some ⟨Γ, m.params, m.decls, m.body⟩

section

variable {p : Program} {t : Target} {n : Nat}

theorem DeclsAt.sizes {outer : List Naming} {before : List (String × NodeId)} {ds : List Decl}
    {lines : List Line} (h : DeclsAt p t outer before ds lines) :
    Line.sizes lines = Decl.widths t ds := by
  induction h with
  | nil => rfl
  | var hinit _ ih => rw [Line.sizes_append, hinit.sizes, ih, Decl.widths]
  | fn _ _ ih =>
    rw [Line.sizes_append, ih, Decl.widths]
    rfl

theorem Block.Lines.sizes {b : Block} {lines : List Line} (h : b.Lines p t lines) :
    Line.sizes lines = b.width t := by
  obtain ⟨ds, bs, rfl, hds, hbs⟩ := h
  rw [routineLines, Line.sizes_append, Line.sizes_append, Line.sizes_append, hds.sizes, hbs.sizes,
    sizes_returnCode, Block.width, Block.bodyWidth]
  rfl

/-- Declarations push the numbers of their functions, whose blocks are there. -/
theorem DeclsShape.numbered {ds : List Decl} {lines : List Line} {blocks : List (List Line)}
    (h : DeclsShape t n ds lines blocks) :
    ∀ (outer : List Naming) (before : List (String × NodeId)),
      p.HasBlocks n (Decl.blocksOfAll outer before ds) → DeclsAt p t outer before ds lines ∧
      List.Forall₂ (Block.Lines p t) (Decl.blocksOfAll outer before ds) blocks := by
  induction h with
  | nil =>
    intro outer before _
    exact ⟨.nil, .nil⟩
  | var hinit _ ih =>
    intro outer before hb
    obtain ⟨hds, hblocks⟩ := ih outer _ hb
    exact ⟨.var hinit.code hds, hblocks⟩
  | @fn n id f params ret decls body pos ds a b rest inner blocks _ hbody _ ihdecls ihds =>
    intro outer before hb
    simp only [Decl.blocksOfAll, Decl.blocks] at hb ⊢
    obtain ⟨hlocals, hinner⟩ := ihdecls _ _ hb.left.left
    have hself := hb.left.right.getElem?
    have hrest := hb.right
    rw [List.length_append, hinner.length_eq, ← Nat.add_assoc] at hrest
    rw [hinner.length_eq] at hself
    obtain ⟨hds, hblocks⟩ := ihds outer _ hrest
    refine ⟨.fn hself hds, ?_⟩
    exact List.rel_append (List.rel_append hinner
      (.cons ⟨a, b, rfl, hlocals, hbody.code⟩ .nil)) hblocks

/-- The labels of methods are their numbers, and their blocks are there. -/
theorem MethodsShape.numbered {Γ : List Naming} {ms : List MethodDecl} {qs : List (Nat × Label)}
    {blocks : List (List Line)} (h : MethodsShape t n ms qs blocks)
    (hb : p.HasBlocks n (ms.flatMap (MethodDecl.blocks Γ))) :
    List.Forall₂ (fun m q => p.MethodAt Γ m q.2) ms qs ∧
      List.Forall₂ (Block.Lines p t) (ms.flatMap (MethodDecl.blocks Γ)) blocks := by
  induction h with
  | nil => exact ⟨.nil, .nil⟩
  | @cons n m slot ms qs a b inner blocks _ hdecls hbody _ ih =>
    rw [List.flatMap_cons, MethodDecl.blocks] at hb ⊢
    obtain ⟨hlocals, hinner⟩ := hdecls.numbered _ _ hb.left.left
    have hself := hb.left.right.getElem?
    have hrest := hb.right
    rw [List.length_append, hinner.length_eq, ← Nat.add_assoc] at hrest
    rw [hinner.length_eq] at hself
    obtain ⟨hqs, hblocks⟩ := ih hrest
    refine ⟨.cons ⟨_, rfl, hself⟩ hqs, ?_⟩
    exact List.rel_append (List.rel_append hinner
      (.cons ⟨a, b, rfl, hlocals, hbody.code⟩ .nil)) hblocks

/-- The functions and methods inside classes behind the classes `earlier`. -/
def Program.classBlocks (p : Program) (earlier cs : List ClassDecl) : List Block :=
  (cs.zip (ClassDecl.namings earlier cs)).flatMap fun q => q.1.blocks [q.2, p.classNaming]

theorem Program.classBlocks_cons (p : Program) (earlier : List ClassDecl) (c : ClassDecl)
    (cs : List ClassDecl) : p.classBlocks earlier (c :: cs) =
      c.blocks [c.naming earlier, p.classNaming] ++ p.classBlocks (c :: earlier) cs := rfl

theorem ClassesShape.numbered {h : Ancestry} {done done' : Emit.Classes} {cs : List ClassDecl}
    {tables : List (List Label)} {blocks : List (List Line)}
    (hcs : ClassesShape t h n done cs done' tables blocks) :
    ∀ earlier, p.HasBlocks n (p.classBlocks earlier cs) →
      List.Forall₂ (Block.Lines p t) (p.classBlocks earlier cs) blocks := by
  induction hcs with
  | nil =>
    intro earlier _
    exact .nil
  | cons _ hmethods _ ih =>
    intro earlier hb
    rw [Program.classBlocks_cons, ClassDecl.blocks] at hb ⊢
    obtain ⟨-, hown⟩ := hmethods.numbered hb.left
    have hrest := hb.right
    rw [hown.length_eq] at hrest
    exact List.rel_append hown (ih _ hrest)

/-- All functions and methods of a program have their blocks, in order. -/
theorem CodeParts.Shape.numbered {c : CodeParts} {h : Ancestry} (hc : c.Shape p t h) :
    DeclsAt p t [] (p.classes.map ClassDecl.named) p.decls c.decls ∧
      List.Forall₂ (Block.Lines p t) p.blocks c.blocks := by
  have hall : p.HasBlocks 0 (p.classBlocks [] p.classes ++
      Decl.blocksOfAll [] (p.classes.map ClassDecl.named) p.decls) :=
    ⟨[], [], by rw [List.append_nil]; rfl, rfl⟩
  have hmethods := hc.classes.numbered [] hall.left
  have hrest := hall.right
  rw [Nat.zero_add, hmethods.length_eq] at hrest
  obtain ⟨hds, hfunctions⟩ := hc.decls.numbered _ _ hrest
  exact ⟨hds, List.rel_append hmethods hfunctions⟩

end

end Classlet
