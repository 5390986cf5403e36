import Classlet.Proofs.Shape
import Classlet.Proofs.Snapshot

/-!
Where the code of the functions and methods of a program stands. A listing that has
the blocks which are generated for declarations has the code of every function under
its label, whatever else is in the listing.
-/

namespace Classlet

mutual

/-- The listing has the code of a function or method of a program under a label. -/
inductive RoutineAt (t : Target) (L : Listing) (p : Program) :
    Label → List Binder → List Decl → Expr → Prop
  | mk {l : Label} {params : List Binder} {decls : List Decl} {body : Expr} {ds bs : List Line}
    (hmem : (params, decls, body) ∈ p.routines)
    (hds : DeclsCode t L p decls ds) (hbody : CodeOf t body bs)
    (hparts : ∀ x ∈ body.parts, x ∈ p.parts)
    (hlines : L.Has (L.position l) (routineLines params.length decls.length ds bs)) :
    RoutineAt t L p l params decls body

/-- The lines are code of declarations, for functions that the listing has. -/
inductive DeclsCode (t : Target) (L : Listing) (p : Program) :
    List Decl → List Line → Prop
  | nil : DeclsCode t L p [] []
  | var {id : NodeId} {x : String} {type : WrittenType} {init : Expr} {pos : Position}
    {ds : List Decl} {a rest : List Line} (hinit : CodeOf t init a)
    (hparts : ∀ x ∈ init.parts, x ∈ p.parts) (hds : DeclsCode t L p ds rest) :
    DeclsCode t L p (.var id x type init pos :: ds) (a ++ rest)
  | fn {id : NodeId} {f : String} {params : List Binder} {ret : WrittenType} {decls : List Decl}
    {body : Expr} {pos : Position} {ds : List Decl} {l : Label} {rest : List Line}
    (hr : RoutineAt t L p l params decls body) (hds : DeclsCode t L p ds rest) :
    DeclsCode t L p (.fn id f params ret decls body pos :: ds)
      (Code.instrs [.pushLabel l] ++ rest)

end

/-- The listing has the closed blocks, and no label twice. -/
structure Listing.Includes (L : Listing) (blocks : List Line) : Prop where
  nodup : L.labels.Nodup
  blocks : blocks <:+: L.lines

theorem Listing.Includes.left {L : Listing} {a b : List Line} (h : L.Includes (a ++ b)) :
    L.Includes a :=
  ⟨h.nodup, (List.prefix_append a b).isInfix.trans h.blocks⟩

theorem Listing.Includes.right {L : Listing} {a b : List Line} (h : L.Includes (a ++ b)) :
    L.Includes b :=
  ⟨h.nodup, (List.suffix_append a b).isInfix.trans h.blocks⟩

/-- A block stands behind its label. -/
theorem Listing.Includes.has {L : Listing} {l : Label} {block : List Line}
    (h : L.Includes (.label l :: block)) : L.Has (L.position l) block := by
  obtain ⟨before, after, hL⟩ := h.blocks
  have hhas : L.Has (Line.sizes before) (.label l :: block) :=
    ⟨before, after, by rw [← hL, List.append_assoc], rfl⟩
  rw [hhas.position h.nodup]
  exact hhas.skip_label

section

variable {t : Target} {p : Program} {L : Listing} {n : Nat}

/-- The code of declarations, in a listing that has the blocks of their functions. -/
theorem DeclsShape.declsCode {ds : List Decl} {lines : List Line} {blocks : List (List Line)}
    (h : DeclsShape t n ds lines blocks) (hroutines : Decl.routinesOfAll ds ⊆ p.routines)
    (hparts : ∀ x ∈ Decl.partsOfAll ds, x ∈ p.parts) (hL : L.Includes (blockLines n blocks)) :
    DeclsCode t L p ds lines := by
  induction h with
  | nil => exact .nil
  | var hinit _ ih =>
    simp only [Decl.partsOfAll, Decl.parts, List.mem_append] at hparts
    exact .var hinit.code (fun x hx => hparts x (Or.inl hx))
      (ih hroutines (fun x hx => hparts x (Or.inr hx)) hL)
  | fn _ hbody _ ihdecls ihds =>
    simp only [Decl.partsOfAll, Decl.parts, List.mem_append] at hparts
    obtain ⟨hfirst, hrest⟩ := List.append_subset.mp hroutines
    obtain ⟨hmem, hinner⟩ := List.cons_subset.mp hfirst
    rw [blockLines_append, blockLines_append, blockLines_singleton, List.length_append,
      List.length_singleton, ← Nat.add_assoc] at hL
    have hlocals := ihdecls hinner (fun x hx => hparts x (Or.inl (Or.inl hx))) hL.left.left
    refine .fn (.mk hmem hlocals hbody.code ?_ hL.left.right.has) ?_
    · exact fun x hx => hparts x (Or.inl (Or.inr hx))
    · exact ihds hrest (fun x hx => hparts x (Or.inr hx)) hL.right

end

end Classlet
