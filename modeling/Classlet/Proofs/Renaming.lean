import Classlet.Compile
import Classlet.Proofs.Tree
import Mathlib.Data.List.Forall2
import Mathlib.Logic.Function.Basic

/-!
Programs up to their names. A renaming maps names to names, no two to the same one, and says
which positions may stand in for each other. Two programs are renamed into each other if they
are the same tree with the same node numbers, and the names and positions of one correspond
to those of the other. Types, the ancestry of classes and whatever can be reported about a
program are carried along.
-/

namespace Classlet

structure Renaming where
  name : String → String
  injective : Function.Injective name
  /-- The positions that a position may be replaced by. -/
  place : Position → Position → Prop

namespace Renaming

variable (ρ : Renaming)

theorem name_inj {x y : String} : ρ.name x = ρ.name y ↔ x = y := ρ.injective.eq_iff

theorem compare_name {x y : String} :
    compare (ρ.name x) (ρ.name y) = .eq ↔ compare x y = .eq := by
  rw [Std.compare_eq_iff_eq, Std.compare_eq_iff_eq, ρ.name_inj]

theorem beq_name (x y : String) : (ρ.name x == ρ.name y) = (x == y) := by
  by_cases h : x = y
  · simp [h]
  · have hne : ρ.name x ≠ ρ.name y := fun heq => h (ρ.injective heq)
    simp [h, hne]

theorem contains_name (xs : List String) (x : String) :
    (xs.map ρ.name).contains (ρ.name x) = xs.contains x := by
  induction xs with
  | nil => rfl
  | cons y xs ih => rw [List.map_cons, List.contains_cons, List.contains_cons, ih, ρ.beq_name]

end Renaming

/-! Trees. -/

inductive WrittenType.Renamed (ρ : Renaming) : WrittenType → WrittenType → Prop
  | int {p q : Position} (pos : ρ.place p q) : Renamed ρ (.int p) (.int q)
  | bool {p q : Position} (pos : ρ.place p q) : Renamed ρ (.bool p) (.bool q)
  | named {cls : String} {p q : Position} (pos : ρ.place p q) :
      Renamed ρ (.named cls p) (.named (ρ.name cls) q)
  | arrow {as bs : List WrittenType} {a b : WrittenType} {p q : Position}
      (params : List.Forall₂ (Renamed ρ) as bs) (ret : Renamed ρ a b) (pos : ρ.place p q) :
      Renamed ρ (.arrow ⟨as, a⟩ p) (.arrow ⟨bs, b⟩ q)

inductive Expr.Renamed (ρ : Renaming) : Expr → Expr → Prop
  | lit {value : Literal} {p q : Position} (pos : ρ.place p q) :
      Renamed ρ (.lit value p) (.lit value q)
  | name {id : NodeId} {x : String} {p q : Position} (pos : ρ.place p q) :
      Renamed ρ (.name id x p) (.name id (ρ.name x) q)
  | binary {op : BinOp} {a a' b b' : Expr} {p q : Position} (left : Renamed ρ a a')
      (right : Renamed ρ b b') (pos : ρ.place p q) :
      Renamed ρ (.binary op a b p) (.binary op a' b' q)
  | not {a a' : Expr} {p q : Position} (operand : Renamed ρ a a') (pos : ρ.place p q) :
      Renamed ρ (.not a p) (.not a' q)
  | cond {a a' b b' c c' : Expr} {p q : Position} (test : Renamed ρ a a') (yes : Renamed ρ b b')
      (no : Renamed ρ c c') (pos : ρ.place p q) : Renamed ρ (.cond a b c p) (.cond a' b' c' q)
  | print {a a' : Expr} {p q : Position} (operand : Renamed ρ a a') (pos : ρ.place p q) :
      Renamed ρ (.print a p) (.print a' q)
  | call {id : NodeId} {x : String} {es es' : List Expr} {p q : Position}
      (args : List.Forall₂ (Renamed ρ) es es') (pos : ρ.place p q) :
      Renamed ρ (.call id x es p) (.call id (ρ.name x) es' q)
  | send {id : NodeId} {x y : String} {es es' : List Expr} {p q : Position}
      (args : List.Forall₂ (Renamed ρ) es es') (pos : ρ.place p q) :
      Renamed ρ (.send id x y es p) (.send id (ρ.name x) (ρ.name y) es' q)
  | new {id : NodeId} {x : String} {es es' : List Expr} {p q : Position}
      (args : List.Forall₂ (Renamed ρ) es es') (pos : ρ.place p q) :
      Renamed ρ (.new id x es p) (.new id (ρ.name x) es' q)

structure Binder.Renamed (ρ : Renaming) (b b' : Binder) : Prop where
  id : b'.id = b.id
  name : b'.name = ρ.name b.name
  type : b.type.Renamed ρ b'.type
  pos : ρ.place b.pos b'.pos

inductive Decl.Renamed (ρ : Renaming) : Decl → Decl → Prop
  | var {id : NodeId} {x : String} {a a' : WrittenType} {e e' : Expr} {p q : Position}
      (type : a.Renamed ρ a') (init : e.Renamed ρ e') (pos : ρ.place p q) :
      Renamed ρ (.var id x a e p) (.var id (ρ.name x) a' e' q)
  | fn {id : NodeId} {x : String} {bs bs' : List Binder} {a a' : WrittenType}
      {ds ds' : List Decl} {e e' : Expr} {p q : Position}
      (params : List.Forall₂ (Binder.Renamed ρ) bs bs') (ret : a.Renamed ρ a')
      (decls : List.Forall₂ (Renamed ρ) ds ds') (body : e.Renamed ρ e') (pos : ρ.place p q) :
      Renamed ρ (.fn id x bs a ds e p) (.fn id (ρ.name x) bs' a' ds' e' q)

structure MethodDecl.Renamed (ρ : Renaming) (m m' : MethodDecl) : Prop where
  id : m'.id = m.id
  name : m'.name = ρ.name m.name
  params : List.Forall₂ (Binder.Renamed ρ) m.params m'.params
  ret : m.ret.Renamed ρ m'.ret
  decls : List.Forall₂ (Decl.Renamed ρ) m.decls m'.decls
  body : m.body.Renamed ρ m'.body
  pos : ρ.place m.pos m'.pos

structure ClassDecl.Renamed (ρ : Renaming) (c c' : ClassDecl) : Prop where
  id : c'.id = c.id
  name : c'.name = ρ.name c.name
  parent? : c'.parent? = c.parent?.map ρ.name
  fields : List.Forall₂ (Binder.Renamed ρ) c.fields c'.fields
  methods : List.Forall₂ (MethodDecl.Renamed ρ) c.methods c'.methods
  pos : ρ.place c.pos c'.pos

/-- The second program is the first one with the renaming applied to every name, with its
node numbers, and with positions of its own. -/
structure Program.Renamed (ρ : Renaming) (p p' : Program) : Prop where
  classes : List.Forall₂ (ClassDecl.Renamed ρ) p.classes p'.classes
  decls : List.Forall₂ (Decl.Renamed ρ) p.decls p'.decls
  body : p.body.Renamed ρ p'.body

/-! Induction over trees that are renamed into each other, where lists are related item by
item. -/

section

variable {ρ : Renaming}

@[elab_as_elim]
theorem WrittenType.Renamed.induction {P : WrittenType → WrittenType → Prop}
    (int : ∀ {p q}, P (.int p) (.int q))
    (bool : ∀ {p q}, P (.bool p) (.bool q))
    (named : ∀ {cls p q}, ρ.place p q → P (.named cls p) (.named (ρ.name cls) q))
    (arrow : ∀ {as bs a b p q}, List.Forall₂ P as bs → P a b →
      P (.arrow ⟨as, a⟩ p) (.arrow ⟨bs, b⟩ q)) {a a' : WrittenType} (h : a.Renamed ρ a') :
    P a a' := by
  refine @WrittenType.Renamed.rec ρ (fun a a' _ => P a a') (fun as as' _ => List.Forall₂ P as as')
    (fun _ => int) (fun _ => bool) (fun pos => named pos) ?_ .nil ?_ a a' h
  · intro as bs a b p q _ _ _ hparams hret
    exact arrow hparams hret
  · intro a b as bs _ _ ha has
    exact .cons ha has

@[elab_as_elim]
theorem Expr.Renamed.induction {P : Expr → Expr → Prop}
    (lit : ∀ {value p q}, ρ.place p q → P (.lit value p) (.lit value q))
    (name : ∀ {id x p q}, ρ.place p q → P (.name id x p) (.name id (ρ.name x) q))
    (binary : ∀ {op a a' b b' p q}, P a a' → P b b' → ρ.place p q →
      P (.binary op a b p) (.binary op a' b' q))
    (not : ∀ {a a' p q}, P a a' → ρ.place p q → P (.not a p) (.not a' q))
    (cond : ∀ {a a' b b' c c' p q}, a.Renamed ρ a' → P a a' → P b b' → P c c' → ρ.place p q →
      P (.cond a b c p) (.cond a' b' c' q))
    (print : ∀ {a a' p q}, P a a' → ρ.place p q → P (.print a p) (.print a' q))
    (call : ∀ {id x es es' p q}, List.Forall₂ (Renamed ρ) es es' → List.Forall₂ P es es' →
      ρ.place p q → P (.call id x es p) (.call id (ρ.name x) es' q))
    (send : ∀ {id x y es es' p q}, List.Forall₂ (Renamed ρ) es es' → List.Forall₂ P es es' →
      ρ.place p q → P (.send id x y es p) (.send id (ρ.name x) (ρ.name y) es' q))
    (new : ∀ {id x es es' p q}, List.Forall₂ (Renamed ρ) es es' → List.Forall₂ P es es' →
      ρ.place p q → P (.new id x es p) (.new id (ρ.name x) es' q))
    {e e' : Expr} (h : e.Renamed ρ e') : P e e' := by
  refine @Expr.Renamed.rec ρ (fun e e' _ => P e e') (fun es es' _ => List.Forall₂ P es es')
    (fun pos => lit pos) (fun pos => name pos) (fun _ _ pos ha hb => binary ha hb pos)
    (fun _ pos ha => not ha pos) (fun ha _ _ pos iha ihb ihc => cond ha iha ihb ihc pos)
    (fun _ pos ha => print ha pos) (fun hs pos has => call hs has pos)
    (fun hs pos has => send hs has pos) (fun hs pos has => new hs has pos) .nil ?_ e e' h
  intro a b as bs _ _ ha has
  exact .cons ha has

@[elab_as_elim]
theorem Decl.Renamed.induction {P : Decl → Decl → Prop}
    (var : ∀ {id x a a' e e' p q}, a.Renamed ρ a' → e.Renamed ρ e' → ρ.place p q →
      P (.var id x a e p) (.var id (ρ.name x) a' e' q))
    (fn : ∀ {id x bs bs' a a' ds ds' e e' p q}, List.Forall₂ (Binder.Renamed ρ) bs bs' →
      a.Renamed ρ a' → List.Forall₂ (Renamed ρ) ds ds' → List.Forall₂ P ds ds' →
      e.Renamed ρ e' → ρ.place p q → P (.fn id x bs a ds e p) (.fn id (ρ.name x) bs' a' ds' e' q))
    {d d' : Decl} (h : d.Renamed ρ d') : P d d' := by
  refine @Decl.Renamed.rec ρ (fun d d' _ => P d d') (fun ds ds' _ => List.Forall₂ P ds ds')
    (fun type init pos => var type init pos)
    (fun params ret decls body pos ih => fn params ret decls ih body pos) .nil ?_ d d' h
  intro a b as bs _ _ ha has
  exact .cons ha has

theorem Expr.Renamed.pos {e e' : Expr} (h : e.Renamed ρ e') : ρ.place e.pos e'.pos := by
  cases h <;> assumption

end

/-! Every program can be renamed. -/

section

variable (f : String → String) (g : Position → Position)

mutual

def WrittenType.rename : WrittenType → WrittenType
  | .int p => .int (g p)
  | .bool p => .bool (g p)
  | .named cls p => .named (f cls) (g p)
  | .arrow s p => .arrow (renameSignature s) (g p)
termination_by structural a => a

def WrittenType.renameSignature : Signature WrittenType → Signature WrittenType
  | ⟨as, a⟩ => ⟨renameList as, rename a⟩
termination_by structural s => s

def WrittenType.renameList : List WrittenType → List WrittenType
  | [] => []
  | a :: as => rename a :: renameList as
termination_by structural as => as

end

mutual

def Expr.rename : Expr → Expr
  | .lit value p => .lit value (g p)
  | .name id x p => .name id (f x) (g p)
  | .binary op a b p => .binary op (rename a) (rename b) (g p)
  | .not a p => .not (rename a) (g p)
  | .cond a b c p => .cond (rename a) (rename b) (rename c) (g p)
  | .print a p => .print (rename a) (g p)
  | .call id x es p => .call id (f x) (renameArgs es) (g p)
  | .send id x y es p => .send id (f x) (f y) (renameArgs es) (g p)
  | .new id x es p => .new id (f x) (renameArgs es) (g p)
termination_by structural e => e

def Expr.renameArgs : List Expr → List Expr
  | [] => []
  | e :: es => rename e :: renameArgs es
termination_by structural es => es

end

def Binder.rename (b : Binder) : Binder :=
  { id := b.id, name := f b.name, type := b.type.rename f g, pos := g b.pos }

mutual

def Decl.rename : Decl → Decl
  | .var id x a e p => .var id (f x) (a.rename f g) (e.rename f g) (g p)
  | .fn id x bs a ds e p =>
    .fn id (f x) (bs.map (Binder.rename f g)) (a.rename f g) (renameAll ds) (e.rename f g) (g p)
termination_by structural d => d

def Decl.renameAll : List Decl → List Decl
  | [] => []
  | d :: ds => rename d :: renameAll ds
termination_by structural ds => ds

end

def MethodDecl.rename (m : MethodDecl) : MethodDecl :=
  { id := m.id, name := f m.name, params := m.params.map (Binder.rename f g)
    ret := m.ret.rename f g, decls := Decl.renameAll f g m.decls, body := m.body.rename f g
    pos := g m.pos }

def ClassDecl.rename (c : ClassDecl) : ClassDecl :=
  { id := c.id, name := f c.name, parent? := c.parent?.map f
    fields := c.fields.map (Binder.rename f g), methods := c.methods.map (MethodDecl.rename f g)
    pos := g c.pos }

/-- A program with one function applied to its names and another one to its positions. -/
def Program.rename (p : Program) : Program :=
  { classes := p.classes.map (ClassDecl.rename f g), decls := Decl.renameAll f g p.decls
    body := p.body.rename f g, pos := g p.pos }

end

section

variable {ρ : Renaming} {g : Position → Position}

theorem forall₂_map_self {α : Type} {R : α → α → Prop} {f : α → α} (h : ∀ a, R a (f a))
    (as : List α) : List.Forall₂ R as (as.map f) :=
  List.forall₂_map_right_iff.mpr (List.forall₂_same.mpr fun a _ => h a)

mutual

theorem WrittenType.renamed_rename (hg : ∀ pos, ρ.place pos (g pos)) :
    ∀ a : WrittenType, a.Renamed ρ (a.rename ρ.name g)
  | .int p => .int (hg p)
  | .bool p => .bool (hg p)
  | .named _ p => .named (hg p)
  | .arrow ⟨as, a⟩ p =>
    .arrow (WrittenType.renamed_renameList hg as) (WrittenType.renamed_rename hg a) (hg p)

theorem WrittenType.renamed_renameList (hg : ∀ pos, ρ.place pos (g pos)) :
    ∀ as : List WrittenType,
      List.Forall₂ (WrittenType.Renamed ρ) as (WrittenType.renameList ρ.name g as)
  | [] => .nil
  | a :: as => .cons (WrittenType.renamed_rename hg a) (WrittenType.renamed_renameList hg as)

end

variable (hg : ∀ pos, ρ.place pos (g pos))

include hg

theorem Expr.renamed_rename (e : Expr) : e.Renamed ρ (e.rename ρ.name g) := by
  have hargs : ∀ {es : List Expr}, (∀ e ∈ es, e.Renamed ρ (e.rename ρ.name g)) →
      List.Forall₂ (Expr.Renamed ρ) es (renameArgs ρ.name g es) := by
    intro es hes
    induction es with
    | nil => exact .nil
    | cons e es ih =>
      exact .cons (hes e List.mem_cons_self) (ih fun x hx => hes x (List.mem_cons_of_mem _ hx))
  induction e with
  | lit value pos => exact .lit (hg pos)
  | name id x pos => exact .name (hg pos)
  | binary op left right pos ihl ihr => exact .binary ihl ihr (hg pos)
  | not operand pos ih => exact .not ih (hg pos)
  | cond test yes no pos iht ihy ihn => exact .cond iht ihy ihn (hg pos)
  | print operand pos ih => exact .print ih (hg pos)
  | call id callee args pos ih => exact .call (hargs ih) (hg pos)
  | send id receiver method args pos ih => exact .send (hargs ih) (hg pos)
  | new id cls args pos ih => exact .new (hargs ih) (hg pos)

theorem Binder.renamed_rename (b : Binder) : b.Renamed ρ (b.rename ρ.name g) :=
  ⟨rfl, rfl, WrittenType.renamed_rename hg b.type, hg b.pos⟩

theorem Decl.renamed_rename : (∀ d : Decl, d.Renamed ρ (d.rename ρ.name g)) ∧
    ∀ ds : List Decl, List.Forall₂ (Decl.Renamed ρ) ds (Decl.renameAll ρ.name g ds) := by
  apply Decl.induction
  · intro id x a e pos
    exact .var (WrittenType.renamed_rename hg a) (Expr.renamed_rename hg e) (hg pos)
  · intro id x bs a ds e pos ih
    exact .fn (forall₂_map_self (Binder.renamed_rename hg) bs) (WrittenType.renamed_rename hg a) ih
      (Expr.renamed_rename hg e) (hg pos)
  · exact .nil
  · intro d ds ihd ihds
    exact .cons ihd ihds

theorem MethodDecl.renamed_rename (m : MethodDecl) : m.Renamed ρ (m.rename ρ.name g) :=
  ⟨rfl, rfl, forall₂_map_self (Binder.renamed_rename hg) m.params,
    WrittenType.renamed_rename hg m.ret, (Decl.renamed_rename hg).2 m.decls,
    Expr.renamed_rename hg m.body, hg m.pos⟩

theorem ClassDecl.renamed_rename (c : ClassDecl) : c.Renamed ρ (c.rename ρ.name g) :=
  ⟨rfl, rfl, rfl, forall₂_map_self (Binder.renamed_rename hg) c.fields,
    forall₂_map_self (MethodDecl.renamed_rename hg) c.methods, hg c.pos⟩

theorem Program.renamed_rename (p : Program) : p.Renamed ρ (p.rename ρ.name g) :=
  ⟨forall₂_map_self (ClassDecl.renamed_rename hg) p.classes, (Decl.renamed_rename hg).2 p.decls,
    Expr.renamed_rename hg p.body⟩

end

/-! Types. -/

namespace Ty

mutual

/-- A type whose classes have other names. -/
def rename (f : String → String) : Ty → Ty
  | .int => .int
  | .bool => .bool
  | .null => .null
  | .ref c => .ref (f c)
  | .arrow s => .arrow (renameSignature f s)
  | .method s => .method (renameSignature f s)
  | .cls fs ms => .cls (renameList f fs) (renameSignatures f ms)
termination_by structural t => t

def renameSignature (f : String → String) : Signature Ty → Signature Ty
  | ⟨ps, r⟩ => ⟨renameList f ps, rename f r⟩
termination_by structural s => s

def renameList (f : String → String) : List Ty → List Ty
  | [] => []
  | t :: ts => rename f t :: renameList f ts
termination_by structural ts => ts

def renameSignatures (f : String → String) : List (Signature Ty) → List (Signature Ty)
  | [] => []
  | s :: ss => renameSignature f s :: renameSignatures f ss
termination_by structural ss => ss

end

variable (f : String → String)

@[simp] theorem renameList_eq (ts : List Ty) : renameList f ts = ts.map (rename f) := by
  induction ts with
  | nil => rfl
  | cons t ts ih => simp only [renameList, List.map_cons, ih]

@[simp] theorem renameSignatures_eq (ss : List (Signature Ty)) :
    renameSignatures f ss = ss.map (renameSignature f) := by
  induction ss with
  | nil => rfl
  | cons s ss ih => simp only [renameSignatures, List.map_cons, ih]

@[simp] theorem renameSignature_params (s : Signature Ty) :
    (renameSignature f s).params = s.params.map (rename f) := by
  cases s
  simp only [renameSignature, renameList_eq]

@[simp] theorem renameSignature_ret (s : Signature Ty) :
    (renameSignature f s).ret = rename f s.ret := by
  cases s
  rfl

theorem signature?_rename (t : Ty) :
    (rename f t).signature? = t.signature?.map (renameSignature f) := by
  cases t <;> rfl

theorem hasSignature_rename (t : Ty) : (rename f t).hasSignature = t.hasSignature := by
  cases t <;> rfl

theorem isMethod_rename (t : Ty) : (rename f t).isMethod = t.isMethod := by
  cases t <;> rfl

theorem referent?_rename (t : Ty) : (rename f t).referent? = t.referent?.map f := by
  cases t <;> rfl

theorem nameKind?_rename (t : Ty) : (rename f t).nameKind? = t.nameKind? := by
  cases t <;> rfl

end Ty

def ClassShape.rename (f : String → String) (s : ClassShape) : ClassShape :=
  { fields := s.fields.map (Ty.rename f), methods := s.methods.map (Ty.renameSignature f) }

theorem Ty.shape?_rename (f : String → String) (t : Ty) :
    (rename f t).shape? = t.shape?.map (ClassShape.rename f) := by
  cases t <;> simp [rename, shape?, ClassShape.rename]

theorem ClassShape.toTy_rename (f : String → String) (s : ClassShape) :
    (s.rename f).toTy = s.toTy.rename f := by
  simp [rename, toTy, Ty.rename]

section

variable {ρ : Renaming}

theorem WrittenType.lowerList_eq (as : List WrittenType) : lowerList as = as.map lower := by
  induction as with
  | nil => rfl
  | cons a as ih => simp only [lowerList, List.map_cons, ih]

theorem WrittenType.Renamed.lower {a a' : WrittenType} (h : a.Renamed ρ a') :
    a'.lower = a.lower.rename ρ.name := by
  refine WrittenType.Renamed.induction rfl rfl (fun _ => rfl) ?_ h
  · intro as bs a b p q params ret
    have hparams : bs.map WrittenType.lower =
        (as.map WrittenType.lower).map (Ty.rename ρ.name) := by
      induction params with
      | nil => rfl
      | cons ha _ ih => simp only [List.map_cons, ha, ih]
    simp only [WrittenType.lower, lowerSignature, lowerList_eq, hparams, ret, Ty.rename,
      Ty.renameSignature, Ty.renameList_eq]

theorem signatureOf_renamed {bs bs' : List Binder} {a a' : WrittenType}
    (hbs : List.Forall₂ (Binder.Renamed ρ) bs bs') (ha : a.Renamed ρ a') :
    signatureOf bs' a' = Ty.renameSignature ρ.name (signatureOf bs a) := by
  have hparams : bs'.map (fun b => b.type.lower) =
      (bs.map fun b => b.type.lower).map (Ty.rename ρ.name) := by
    induction hbs with
    | nil => rfl
    | cons hb _ ih => simp only [List.map_cons, hb.type.lower, ih]
  simp only [signatureOf, hparams, ha.lower, Ty.renameSignature, Ty.renameList_eq]

theorem MethodDecl.Renamed.signature {m m' : MethodDecl} (h : m.Renamed ρ m') :
    m'.signature = Ty.renameSignature ρ.name m.signature := signatureOf_renamed h.params h.ret

end

/-! Maps whose keys are names. -/

/-- One map has under the renamed names what the other one has under the names. -/
def Renaming.Maps (ρ : Renaming) {α β : Type} (V : α → β → Prop) (m : Std.TreeMap String α)
    (m' : Std.TreeMap String β) : Prop :=
  ∀ x, Option.Rel V m[x]? m'[ρ.name x]?

namespace Renaming.Maps

variable {ρ : Renaming} {α β : Type} {V : α → β → Prop} {m : Std.TreeMap String α}
  {m' : Std.TreeMap String β}

theorem lookup (h : ρ.Maps V m m') (x : String) :
    m[x]? = none ∧ m'[ρ.name x]? = none ∨
      ∃ a b, m[x]? = some a ∧ m'[ρ.name x]? = some b ∧ V a b := by
  have hx := h x
  generalize m[x]? = a, m'[ρ.name x]? = b at hx
  cases hx with
  | some hab => exact Or.inr ⟨_, _, rfl, rfl, hab⟩
  | none => exact Or.inl ⟨rfl, rfl⟩

theorem empty : ρ.Maps V ∅ ∅ := by
  intro x
  rw [Std.TreeMap.getElem?_emptyc, Std.TreeMap.getElem?_emptyc]
  exact .none

theorem contains (h : ρ.Maps V m m') (x : String) : m'.contains (ρ.name x) = m.contains x := by
  rw [Std.TreeMap.contains_eq_isSome_getElem?, Std.TreeMap.contains_eq_isSome_getElem?]
  rcases h.lookup x with ⟨hx, hx'⟩ | ⟨a, b, hx, hx', -⟩
  · rw [hx, hx']
    rfl
  · rw [hx, hx']
    rfl

theorem insert (h : ρ.Maps V m m') (x : String) {a : α} {b : β} (hab : V a b) :
    ρ.Maps V (m.insert x a) (m'.insert (ρ.name x) b) := by
  intro y
  rw [Std.TreeMap.getElem?_insert, Std.TreeMap.getElem?_insert]
  by_cases hxy : compare x y = .eq
  · rw [if_pos hxy, if_pos (ρ.compare_name.mpr hxy)]
    exact .some hab
  · rw [if_neg hxy, if_neg fun h => hxy (ρ.compare_name.mp h)]
    exact h y

theorem insertIfNew (h : ρ.Maps V m m') (x : String) {a : α} {b : β} (hab : V a b) :
    ρ.Maps V (m.insertIfNew x a) (m'.insertIfNew (ρ.name x) b) := by
  intro y
  rw [Std.TreeMap.getElem?_insertIfNew, Std.TreeMap.getElem?_insertIfNew]
  have hiff : (compare (ρ.name x) (ρ.name y) = .eq ∧ ρ.name x ∉ m') ↔
      (compare x y = .eq ∧ x ∉ m) := by
    rw [ρ.compare_name, ← Std.TreeMap.contains_iff_mem, ← Std.TreeMap.contains_iff_mem,
      h.contains]
  by_cases hxy : compare x y = .eq ∧ x ∉ m
  · rw [if_pos hxy, if_pos (hiff.mpr hxy)]
    exact .some hab
  · rw [if_neg hxy, if_neg fun h => hxy (hiff.mp h)]
    exact h y

theorem eq {m' : Std.TreeMap String α} (h : ρ.Maps Eq m m') (x : String) :
    m'[ρ.name x]? = m[x]? := by
  rcases h.lookup x with ⟨hx, hx'⟩ | ⟨a, b, hx, hx', hab⟩
  · rw [hx, hx']
  · rw [hx, hx', hab]

end Renaming.Maps

/-! The ancestry of classes. -/

structure Ancestry.Renamed (ρ : Renaming) (h h' : Ancestry) : Prop where
  parents : ρ.Maps (fun s s' => s' = ρ.name s) h.parents h'.parents
  size : h'.size = h.size

namespace Ancestry.Renamed

variable {ρ : Renaming} {h h' : Ancestry}

theorem parent? (hr : h.Renamed ρ h') (c : String) :
    h'.parent? (ρ.name c) = (h.parent? c).map ρ.name := by
  unfold Ancestry.parent?
  rcases hr.parents.lookup c with ⟨hc, hc'⟩ | ⟨s, s', hc, hc', heq⟩
  · rw [hc, hc']
    rfl
  · rw [hc, hc', heq]
    rfl

theorem setParent (hr : h.Renamed ρ h') (c s : String) :
    (h.setParent c s).Renamed ρ (h'.setParent (ρ.name c) (ρ.name s)) := by
  refine ⟨hr.parents.insert c rfl, ?_⟩
  have hsize := hr.size
  simp only [Ancestry.size, Ancestry.setParent, Std.TreeMap.size_insert,
    hr.parents.contains] at hsize ⊢
  rw [hsize]

theorem climb (hr : h.Renamed ρ h') (n : Nat) :
    ∀ c, h'.climb n (ρ.name c) = (h.climb n c).map ρ.name := by
  induction n with
  | zero =>
    intro c
    rfl
  | succ n ih =>
    intro c
    simp only [Ancestry.climb, hr.parent?]
    cases h.parent? c with
    | none => rfl
    | some s => simp only [Option.map_some, List.map_cons, ih]

theorem ancestors (hr : h.Renamed ρ h') (c : String) :
    h'.ancestors (ρ.name c) = (h.ancestors c).map ρ.name := by
  unfold Ancestry.ancestors
  rw [hr.size, hr.climb]

theorem descends (hr : h.Renamed ρ h') (c d : String) :
    h'.descends (ρ.name c) (ρ.name d) = h.descends c d := by
  unfold Ancestry.descends
  rw [hr.ancestors, ρ.contains_name, ρ.beq_name]

end Ancestry.Renamed

/-! Subtyping. -/

namespace Ty

variable {ρ : Renaming} {h h' : Ancestry}

theorem along_descends_rename (hr : h.Renamed ρ h') (v : Variance) (c d : String) :
    v.along h'.descends (ρ.name c) (ρ.name d) = v.along h.descends c d := by
  cases v with
  | co => exact hr.descends c d
  | contra => exact hr.descends d c

mutual

theorem compare_rename (hr : h.Renamed ρ h') : ∀ (a : Ty) (v : Variance) (b : Ty),
    (a.rename ρ.name).compare h' v (b.rename ρ.name) = a.compare h v b
  | .int, v, b => by cases b <;> rfl
  | .bool, v, b => by cases b <;> rfl
  | .null, v, b => by cases b <;> rfl
  | .ref c, v, b => by
    cases b with
    | ref d => exact along_descends_rename hr v c d
    | int | bool | null | arrow | method | cls => rfl
  | .arrow s, v, b => by
    cases b with
    | arrow t => exact compareSignature_rename hr s v t
    | int | bool | null | ref | method | cls => rfl
  | .method s, v, b => by
    cases b with
    | method t => exact compareSignature_rename hr s v t
    | int | bool | null | ref | arrow | cls => rfl
  | .cls fs ms, v, b => by
    cases b with
    | cls gs ns =>
      have hfs := compareList_rename hr fs v gs
      have hms := compareSignatures_rename hr ms v ns
      simp only [rename, compare, renameList_eq, renameSignatures_eq, List.length_map, hfs, hms]
    | int | bool | null | ref | arrow | method => rfl

theorem compareSignature_rename (hr : h.Renamed ρ h') :
    ∀ (s : Signature Ty) (v : Variance) (t : Signature Ty),
    compareSignature h' v (renameSignature ρ.name s) (renameSignature ρ.name t) =
      compareSignature h v s t
  | ⟨ps, r⟩, v, ⟨qs, u⟩ => by
    have hps := compareList_rename hr ps v.flip qs
    simp only [renameSignature, compareSignature, renameList_eq, List.length_map, hps,
      compare_rename hr r v u]

theorem compareList_rename (hr : h.Renamed ρ h') : ∀ (as : List Ty) (v : Variance) (bs : List Ty),
    compareList h' v (as.map (rename ρ.name)) (bs.map (rename ρ.name)) = compareList h v as bs
  | [], v, bs => rfl
  | a :: as, v, [] => rfl
  | a :: as, v, b :: bs => by
    simp only [List.map_cons, compareList, compare_rename hr a v b, compareList_rename hr as v bs]

theorem compareSignatures_rename (hr : h.Renamed ρ h') : ∀ (ss : List (Signature Ty))
    (v : Variance) (ts : List (Signature Ty)),
    compareSignatures h' v (ss.map (renameSignature ρ.name))
      (ts.map (renameSignature ρ.name)) = compareSignatures h v ss ts
  | [], v, ts => rfl
  | s :: ss, v, [] => rfl
  | s :: ss, v, t :: ts => by
    simp only [List.map_cons, compareSignatures, compareSignature_rename hr s v t,
      compareSignatures_rename hr ss v ts]

end

theorem subtypeOf_rename (hr : h.Renamed ρ h') (a b : Ty) :
    (a.rename ρ.name).subtypeOf h' (b.rename ρ.name) = a.subtypeOf h b := compare_rename hr a .co b

theorem join?_rename (hr : h.Renamed ρ h') (a b : Ty) :
    (a.rename ρ.name).join? h' (b.rename ρ.name) = (a.join? h b).map (rename ρ.name) := by
  unfold join?
  rw [subtypeOf_rename hr, subtypeOf_rename hr]
  split
  · rfl
  split
  · rfl
  cases a with
  | ref c =>
    have hmap : (h'.ancestors (ρ.name c)).map Ty.ref =
        ((h.ancestors c).map Ty.ref).map (rename ρ.name) := by
      rw [hr.ancestors, List.map_map, List.map_map]
      rfl
    have htest : (fun t => (b.rename ρ.name).subtypeOf h' t) ∘ rename ρ.name =
        fun t => b.subtypeOf h t := by
      funext t
      exact subtypeOf_rename hr b t
    simp only [rename]
    rw [hmap, List.find?_map, htest]
  | int | bool | null | arrow | method | cls => rfl

end Ty

theorem Signature.subtypeOf_rename {ρ : Renaming} {h h' : Ancestry} (hr : h.Renamed ρ h')
    (s t : Signature Ty) :
    (Ty.renameSignature ρ.name s).subtypeOf h' (Ty.renameSignature ρ.name t) =
      s.subtypeOf h t :=
  Ty.compareSignature_rename hr s .co t

/-! Reports. -/

/-- Two reports of corresponding positions and causes. -/
structure Located.Renamed (ρ : Renaming) {α : Type} (F : α → α → Prop) (e e' : Located α) :
    Prop where
  pos : ρ.place e.pos e'.pos
  cause : F e.cause e'.cause

def BindingFault.rename (f : String → String) : BindingFault → BindingFault
  | .redeclared kind name => .redeclared kind (f name)
  | .undeclared kind name => .undeclared kind (f name)
  | .noSuperclass cls superclass => .noSuperclass (f cls) (f superclass)
  | .noClass name => .noClass (f name)
  | .notAReference name => .notAReference (f name)
  | .noMethod cls method => .noMethod (f cls) (f method)
  | .fieldOverMethod cls name => .fieldOverMethod (f cls) (f name)
  | .methodOverField cls name => .methodOverField (f cls) (f name)
  | .repeatedMember kind cls name => .repeatedMember kind (f cls) (f name)

def BindingError.Renamed (ρ : Renaming) (e e' : BindingError) : Prop :=
  Located.Renamed ρ (fun cause cause' => cause' = cause.rename ρ.name) e e'

/-- How a call is named in a report: by a name, or by a receiver and a method. -/
inductive Renaming.Callee (ρ : Renaming) : String → String → Prop
  | name (x : String) : Callee ρ x (ρ.name x)
  | member (x y : String) : Callee ρ (x ++ "." ++ y) (ρ.name x ++ "." ++ ρ.name y)

inductive TypingFault.Renamed (ρ : Renaming) : TypingFault → TypingFault → Prop
  | conditionType {t : Ty} : Renamed ρ (.conditionType t) (.conditionType (t.rename ρ.name))
  | branchTypes {t u : Ty} :
      Renamed ρ (.branchTypes t u) (.branchTypes (t.rename ρ.name) (u.rename ρ.name))
  | functionEquality : Renamed ρ .functionEquality .functionEquality
  | operandTypes {op : String} {t u : Ty} :
      Renamed ρ (.operandTypes op t u) (.operandTypes op (t.rename ρ.name) (u.rename ρ.name))
  | negationType {t : Ty} : Renamed ρ (.negationType t) (.negationType (t.rename ρ.name))
  | notCallable {x x' : String} (callee : ρ.Callee x x') :
      Renamed ρ (.notCallable x) (.notCallable x')
  | argumentCount {x x' : String} {m n : Nat} (callee : ρ.Callee x x') :
      Renamed ρ (.argumentCount x m n) (.argumentCount x' m n)
  | argumentType {x x' : String} {n : Nat} {t u : Ty} (callee : ρ.Callee x x') :
      Renamed ρ (.argumentType x n t u)
        (.argumentType x' n (t.rename ρ.name) (u.rename ρ.name))
  | notAValue {kind : NameKind} {x : String} :
      Renamed ρ (.notAValue kind x) (.notAValue kind (ρ.name x))
  | notAClass {x : String} : Renamed ρ (.notAClass x) (.notAClass (ρ.name x))
  | initialType {x : String} {t u : Ty} :
      Renamed ρ (.initialType x t u)
        (.initialType (ρ.name x) (t.rename ρ.name) (u.rename ρ.name))
  | returnType {kind : NameKind} {x : String} {t u : Ty} :
      Renamed ρ (.returnType kind x t u)
        (.returnType kind (ρ.name x) (t.rename ρ.name) (u.rename ρ.name))
  | fieldOverride {x y : String} :
      Renamed ρ (.fieldOverride x y) (.fieldOverride (ρ.name x) (ρ.name y))
  | methodOverride {x y : String} :
      Renamed ρ (.methodOverride x y) (.methodOverride (ρ.name x) (ρ.name y))

def TypingError.Renamed (ρ : Renaming) (e e' : TypingError) : Prop :=
  Located.Renamed ρ (TypingFault.Renamed ρ) e e'

def GenerationFault.rename (f : String → String) : GenerationFault → GenerationFault
  | .unbound name => .unbound (f name)
  | .noDispatchTable cls => .noDispatchTable (f cls)

def GenerationError.Renamed (ρ : Renaming) (e e' : GenerationError) : Prop :=
  Located.Renamed ρ (fun cause cause' => cause' = cause.rename ρ.name) e e'

/-- Two reports of one kind that differ in the names they mention, and whose positions
correspond. -/
inductive Diagnostic.Renamed (ρ : Renaming) : Diagnostic → Diagnostic → Prop
  | binding {e e' : BindingError} (h : e.Renamed ρ e') : Renamed ρ (.binding e) (.binding e')
  | typing {e e' : TypingError} (h : e.Renamed ρ e') : Renamed ρ (.typing e) (.typing e')
  | generation {e e' : GenerationError} (h : e.Renamed ρ e') :
      Renamed ρ (.generation e) (.generation e')

/-- Two computations both succeed, with related values, or both fail, with related errors. -/
inductive Agrees {ε α β : Type} (E : ε → ε → Prop) (Q : α → β → Prop) :
    Except ε α → Except ε β → Prop
  | ok {a : α} {b : β} (h : Q a b) : Agrees E Q (.ok a) (.ok b)
  | error {e e' : ε} (h : E e e') : Agrees E Q (.error e) (.error e')

end Classlet
