import Classlet.Binding.Table
import Classlet.Proofs.Layout
import Classlet.Proofs.Nest
import Classlet.Proofs.Tree

/-!
What it means for the nodes of a program to be bound. The names around an
expression are listed in nested frames with their entries, which follow from
the places of the declarations alone; a node is bound if the entry found for its
name is the one that the tables have filed for it.
-/

namespace Classlet

/-- The entry of a declaration that is number `k` in its frame, from zero. -/
def Decl.entry (level k : Nat) (d : Decl) : Entry :=
  { level, type := d.type, offset := -2 - k }

/-- Adds parameters to a frame, the first one at place `i`. -/
def paramsOver (level : Nat) : Nat → List Binder → List (String × Entry) → List (String × Entry)
  | _, [], frame => frame
  | i, p :: ps, frame =>
    paramsOver level (i + 1) ps ((p.name, { level, type := p.type.lower, offset := i }) :: frame)

/-- Adds declarations to a frame that has `k` of them. -/
def declsOver (level : Nat) : Nat → List Decl → List (String × Entry) → List (String × Entry)
  | _, [], frame => frame
  | k, d :: ds, frame => declsOver level (k + 1) ds ((d.name, d.entry level k) :: frame)

theorem names_paramsOver (level i : Nat) (ps : List Binder) (frame : List (String × Entry)) :
    (paramsOver level i ps frame).map Prod.fst =
      (ps.map Binder.name).reverse ++ frame.map Prod.fst := by
  induction ps generalizing i frame with
  | nil => rfl
  | cons p ps ih => simp [paramsOver, ih]

theorem names_declsOver (level k : Nat) (ds : List Decl) (frame : List (String × Entry)) :
    (declsOver level k ds frame).map Prod.fst =
      (ds.map Decl.name).reverse ++ frame.map Prod.fst := by
  induction ds generalizing k frame with
  | nil => rfl
  | cons d ds ih => simp [declsOver, ih]

/-- The entries of names in their order, numbered from `i` on. -/
def entriesFrom {α : Type} (entry : Nat → α → Entry) : Nat → List (String × α) →
    List (String × Entry)
  | _, [] => []
  | i, (x, a) :: rest => (x, entry i a) :: entriesFrom entry (i + 1) rest

theorem lookup_entriesFrom {α : Type} (entry : Nat → α → Entry) (i : Nat)
    (l : List (String × α)) (x : String) : (entriesFrom entry i l).lookup x =
      (l.lookup x).map (entry (i + (l.map Prod.fst).idxOf x)) := by
  induction l generalizing i with
  | nil => rfl
  | cons p rest ih =>
    obtain ⟨y, a⟩ := p
    by_cases h : x = y
    · subst h
      simp [entriesFrom]
    · simp only [entriesFrom, lookup_cons_of_ne h, ih, List.map_cons,
        List.idxOf_cons_ne _ (Ne.symm h)]
      congr 2
      omega

namespace Layout

def fieldEntry (i : Nat) (t : Ty) : Entry := { level := 1, type := t, offset := -1 - i }

def methodEntry (j : Nat) (m : Implementation) : Entry :=
  { level := 1, type := .method m.decl.signature, offset := j }

/-- The members of a class with their entries. -/
def scope (l : Layout) : List (String × Entry) :=
  entriesFrom fieldEntry 0 l.fields ++ entriesFrom methodEntry 0 l.methods

theorem lookup_scope (l : Layout) (x : String) : l.scope.lookup x =
    ((l.fields.lookup x).map (fieldEntry ((l.fields.map Prod.fst).idxOf x))).or
      ((l.methods.lookup x).map (methodEntry ((l.methods.map Prod.fst).idxOf x))) := by
  rw [scope, List.lookup_append, lookup_entriesFrom, lookup_entriesFrom, Nat.zero_add,
    Nat.zero_add]

/-- The types of the fields and the signatures of the methods. -/
def shape (l : Layout) : ClassShape where
  fields := l.fields.map Prod.snd
  methods := l.methods.map fun m => m.2.decl.signature

end Layout

/-- The outermost frame as far as the classes go, the latest class first. -/
def classScope : List ClassDecl → List (String × Entry)
  | [] => []
  | c :: earlier =>
    (c.name, { level := 0
               type := ((layout? (c :: earlier) c.name).getD {}).shape.toTy
               offset := -2 - earlier.length }) :: classScope earlier

namespace Bindings

/-- The node is filed with a use of the entry from a frame of the given level. -/
def UsesAt (b : Bindings) (node : NodeId) (level : Nat) (e : Entry) : Prop :=
  ∃ u, b.used? node = some (u, e) ∧ u.level = level

/-- The node is filed with a call of the method on the receiver. -/
def SendsAt (b : Bindings) (node : NodeId) (level : Nat) (receiver method : Entry) : Prop :=
  ∃ u, b.sends[node]? = some u ∧ u.receiver.level = level ∧
    b.entry? u.receiver.entry = some receiver ∧ b.entry? u.method = some method

/-- The entry of the class that is registered under a name. -/
def registered? (b : Bindings) (cls : String) : Option Entry :=
  (b.record? cls).bind fun record => b.entry? record.entry

/-- The names of a map are those of a list, with the same entries. -/
def Lists (b : Bindings) (names : Names) (frame : List (String × Entry)) : Prop :=
  ∀ x, names[x]?.map b.entry? = (frame.lookup x).map some

end Bindings

namespace Expr

mutual

/-- All nodes of an expression are bound to what the names around it say. -/
def Bound (b : Bindings) (Γ : Nest Entry) : Expr → Prop
  | .lit _ _ => True
  | .name id x _ => ∃ e seen, Γ.find? x = some (e, seen) ∧ b.UsesAt id Γ.level e
  | .binary _ left right _ => left.Bound b Γ ∧ right.Bound b Γ
  | .not e _ | .print e _ => e.Bound b Γ
  | .cond test yes no _ => test.Bound b Γ ∧ yes.Bound b Γ ∧ no.Bound b Γ
  | .call id callee args _ =>
    (∃ e seen, Γ.find? callee = some (e, seen) ∧ b.UsesAt id Γ.level e) ∧ ArgsBound b Γ args
  | .send id receiver method args _ =>
    (∃ e seen cls m, Γ.find? receiver = some (e, seen) ∧ e.type = .ref cls ∧
      b.member? cls method = some m ∧ b.SendsAt id Γ.level e m) ∧ ArgsBound b Γ args
  | .new id cls args _ =>
    (∃ e, b.registered? cls = some e ∧ b.UsesAt id Γ.level e) ∧ ArgsBound b Γ args
termination_by structural e => e

def ArgsBound (b : Bindings) (Γ : Nest Entry) : List Expr → Prop
  | [] => True
  | e :: es => e.Bound b Γ ∧ ArgsBound b Γ es
termination_by structural es => es

end

theorem argsBound_iff (b : Bindings) (Γ : Nest Entry) (args : List Expr) :
    ArgsBound b Γ args ↔ ∀ a ∈ args, a.Bound b Γ := by
  induction args with
  | nil => simp [ArgsBound]
  | cons e es ih => simp [ArgsBound, ih]

theorem Bound.hereditary (b : Bindings) (Γ : Nest Entry) : Hereditary (Bound b Γ) := by
  refine ⟨?_, ?_, ?_, ?_, ?_, ?_, ?_⟩
  · exact fun h => h
  · exact fun h => h
  · exact fun h => h
  · exact fun h => h
  · exact fun h => (argsBound_iff b Γ _).mp h.2
  · exact fun h => (argsBound_iff b Γ _).mp h.2
  · exact fun h => (argsBound_iff b Γ _).mp h.2

theorem Bound.part {b : Bindings} {Γ : Nest Entry} {e : Expr} (h : e.Bound b Γ) :
    ∀ x ∈ e.parts, x.Bound b Γ := (hereditary b Γ).part h

/-- What is filed for a node that refers to a declaration, with entries that the
tables have. -/
def Filed (b : Bindings) : Expr → Prop
  | .name id _ _ | .call id _ _ _ | .new id _ _ _ => ∃ u e, b.used? id = some (u, e)
  | .send id _ _ _ _ => ∃ u receiver method, b.sends[id]? = some u ∧
      b.entry? u.receiver.entry = some receiver ∧ b.entry? u.method = some method
  | .lit _ _ | .binary _ _ _ _ | .not _ _ | .cond _ _ _ _ | .print _ _ => True

theorem Bound.node_filed {b : Bindings} {Γ : Nest Entry} {e : Expr} (h : e.Bound b Γ) :
    e.Filed b := by
  cases e with
  | name id y pos =>
    obtain ⟨e, seen, -, u, hu, -⟩ := h
    exact ⟨u, e, hu⟩
  | call id callee es pos =>
    obtain ⟨⟨e, seen, -, u, hu, -⟩, -⟩ := h
    exact ⟨u, e, hu⟩
  | send id receiver method es pos =>
    obtain ⟨⟨e, seen, cls, m, -, -, -, u, hu, -, hr, hm⟩, -⟩ := h
    exact ⟨u, e, m, hu, hr, hm⟩
  | new id cls es pos =>
    obtain ⟨⟨e, -, u, hu, -⟩, -⟩ := h
    exact ⟨u, e, hu⟩
  | lit | binary | not | cond | print => trivial

theorem Bound.filed {b : Bindings} {Γ : Nest Entry} {e : Expr} (h : e.Bound b Γ) :
    ∀ x ∈ e.parts, x.Filed b := fun x hx => (h.part x hx).node_filed

end Expr

namespace Decl

mutual

/-- All nodes of a declaration are bound, in a frame that has `k` declarations
and is inside the frames `outer`. -/
def Bound (b : Bindings) : Decl → List (String × Entry) → Nest Entry → Nat → Prop
  | .var _ _ _ init _, frame, outer, _ => init.Bound b (frame :: outer)
  | .fn _ name params ret decls body _, frame, outer, k =>
    let Γ := ((name, { level := outer.length
                       type := .arrow (signatureOf params ret)
                       offset := -2 - k }) :: frame) :: outer
    let own := paramsOver Γ.length 1 params []
    AllBound b decls own Γ 0 ∧ body.Bound b (declsOver Γ.length 0 decls own :: Γ) ∧
      (params.map Binder.name ++ decls.map Decl.name).Nodup
termination_by structural d => d

def AllBound (b : Bindings) : List Decl → List (String × Entry) → Nest Entry → Nat → Prop
  | [], _, _, _ => True
  | d :: ds, frame, outer, k =>
    d.Bound b frame outer k ∧
      AllBound b ds ((d.name, d.entry outer.length k) :: frame) outer (k + 1)
termination_by structural ds => ds

end

end Decl

/-- The inside of a function or method is bound, within the frames that it
sees, and it declares no name twice. -/
def RoutineBound (b : Bindings) (Γ : Nest Entry) (params : List Binder) (decls : List Decl)
    (body : Expr) : Prop :=
  Decl.AllBound b decls (paramsOver Γ.length 1 params []) Γ 0 ∧
    body.Bound b (declsOver Γ.length 0 decls (paramsOver Γ.length 1 params []) :: Γ) ∧
    (params.map Binder.name ++ decls.map Decl.name).Nodup

theorem Decl.bound_fn (b : Bindings) (id : NodeId) (name : String) (params : List Binder)
    (ret : WrittenType) (decls : List Decl) (body : Expr) (pos : Position)
    (frame : List (String × Entry)) (outer : Nest Entry) (k : Nat) :
    (Decl.fn id name params ret decls body pos).Bound b frame outer k ↔
      RoutineBound b (((name, (Decl.fn id name params ret decls body pos).entry outer.length k) ::
        frame) :: outer) params decls body := by
  rfl

end Classlet
