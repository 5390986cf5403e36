import Classlet.Proofs.Completeness
import Classlet.Proofs.Conformance

/-!
The hierarchy of the classes of a program without a fault. A superclass is declared
before its subclasses, so no class is above itself. The check compares the members
that a class declares with those of its direct superclass only; but members that are
not declared again keep their places and types, and subtyping is transitive, so the
type of a class is a subtype of the type of every class above it, place by place.
-/

namespace Classlet

/-- No class is above itself. -/
def Ancestry.Acyclic (h : Ancestry) : Prop :=
  ∀ c, ¬ Relation.TransGen (fun c s => h.parent? c = some s) c c

/-- Where a superclass always has the lower rank, no class is above itself. -/
theorem Ancestry.acyclic_of_rank {h : Ancestry} (rank : String → Nat)
    (hrank : ∀ c s, h.parent? c = some s → rank s < rank c) : h.Acyclic := by
  have hup : ∀ c d, Relation.TransGen (fun c s => h.parent? c = some s) c d → rank d < rank c := by
    intro c d hcd
    induction hcd with
    | single hs => exact hrank _ _ hs
    | tail _ hs ih => exact Nat.lt_trans (hrank _ _ hs) ih
  intro c hc
  exact Nat.lt_irrefl _ (hup c c hc)

/-- At each place of the other class, the class has a field or method of a subtype. -/
structure ClassShape.Refines (h : Ancestry) (s s' : ClassShape) : Prop where
  fields : ∀ (i : Nat) t', s'.fields[i]? = some t' → ∃ t, s.fields[i]? = some t ∧ t.subtypeOf h t'
  methods : ∀ (j : Nat) m', s'.methods[j]? = some m' →
    ∃ m, s.methods[j]? = some m ∧ m.subtypeOf h m'

/-- A list that has something at each place of another one is no shorter. -/
theorem length_le_of_getElem? {α β : Type} {l : List α} {l' : List β}
    (h : ∀ (i : Nat) b, l'[i]? = some b → ∃ a, l[i]? = some a) : l'.length ≤ l.length := by
  by_contra hlt
  have hi : l.length < l'.length := by omega
  obtain ⟨a, ha⟩ := h l.length _ (List.getElem?_eq_getElem hi)
  simp at ha

/-- A comparison holds of all pairs if it holds at each place of the second list. -/
theorem all_zip_of_getElem? {α : Type} {r : α → α → Bool} {as bs : List α}
    (h : ∀ (i : Nat) b, bs[i]? = some b → ∃ a, as[i]? = some a ∧ r a b) :
    (as.zip bs).all fun x => r x.1 x.2 := by
  rw [List.all_eq_true]
  intro x hx
  obtain ⟨i, hi⟩ := List.mem_iff_getElem?.mp hx
  obtain ⟨ha, hb⟩ := List.getElem?_zip_eq_some.mp hi
  obtain ⟨a, ha', hr⟩ := h i x.2 hb
  obtain rfl : x.1 = a := Option.some.inj (ha.symm.trans ha')
  exact hr

namespace Ty

theorem compareList_eq_all (h : Ancestry) (v : Variance) (as bs : List Ty) :
    compareList h v as bs = (as.zip bs).all fun x => x.1.compare h v x.2 := by
  induction as generalizing bs with
  | nil => rfl
  | cons a as ih =>
    cases bs with
    | nil => rfl
    | cons b bs => rw [compareList, ih, List.zip_cons_cons, List.all_cons]

theorem compareSignatures_eq_all (h : Ancestry) (v : Variance) (as bs : List (Signature Ty)) :
    compareSignatures h v as bs = (as.zip bs).all fun x => compareSignature h v x.1 x.2 := by
  induction as generalizing bs with
  | nil => rfl
  | cons a as ih =>
    cases bs with
    | nil => rfl
    | cons b bs => rw [compareSignatures, ih, List.zip_cons_cons, List.all_cons]

end Ty

namespace ClassShape

variable {h : Ancestry} {s s' : ClassShape}

theorem Refines.subtypeOf (hs : s.Refines h s') : s.toTy.subtypeOf h s'.toTy := by
  have hfields : s'.fields.length ≤ s.fields.length :=
    length_le_of_getElem? fun i t' ht' => (hs.fields i t' ht').imp fun _ ht => ht.1
  have hmethods : s'.methods.length ≤ s.methods.length :=
    length_le_of_getElem? fun j m' hm' => (hs.methods j m' hm').imp fun _ hm => hm.1
  simp only [toTy, Ty.subtypeOf, Ty.compare, Variance.along, Bool.and_eq_true, decide_eq_true_eq,
    Ty.compareList_eq_all, Ty.compareSignatures_eq_all]
  exact ⟨⟨⟨hfields, hmethods⟩, all_zip_of_getElem? hs.fields⟩, all_zip_of_getElem? hs.methods⟩

end ClassShape

theorem Layout.Refines.shape {h : Ancestry} {l l' : Layout} (hl : l.Refines h l') :
    l.shape.Refines h l'.shape := by
  constructor
  · intro i t' ht'
    simp only [Layout.shape, List.getElem?_map, Option.map_eq_some_iff] at ht' ⊢
    obtain ⟨⟨x, t'⟩, hx, rfl⟩ := ht'
    obtain ⟨t, ht, hsub⟩ := hl.fields i x t' hx
    exact ⟨t, ⟨_, ht, rfl⟩, hsub⟩
  · intro j m' hm'
    simp only [Layout.shape, List.getElem?_map, Option.map_eq_some_iff] at hm' ⊢
    obtain ⟨⟨x, k'⟩, hx, rfl⟩ := hm'
    obtain ⟨k, hk, hsub⟩ := hl.methods j x k' hx
    exact ⟨_, ⟨_, hk, rfl⟩, hsub⟩

namespace Program

/-- The program declares a class of the first name before the class of the second. -/
def DeclaredBefore (p : Program) (s cls : String) : Prop :=
  ∃ before c after, p.classes = before ++ c :: after ∧ c.name = cls ∧
    s ∈ before.map ClassDecl.name

variable {p : Program} {b : Bindings} {h : Ancestry}

theorem Resolved.parent_eq (hp : p.Resolved b h) {c : ClassDecl} (hc : c ∈ p.classes) :
    h.parent? c.name = c.parent? := by
  obtain ⟨earlier, hfound⟩ := class?_of_mem hp.distinct (List.mem_reverse.mpr hc)
  rw [hp.parents, hfound, Option.bind_some]

theorem Resolved.declaredBefore (hp : p.Resolved b h) {cls s : String}
    (hs : h.parent? cls = some s) : p.DeclaredBefore s cls := by
  have hfound := hs
  rw [hp.parents, Option.bind_eq_some_iff] at hfound
  obtain ⟨⟨c, earlier⟩, hfound, -⟩ := hfound
  have hname : c.name = cls := class?_name hfound
  have hc : c ∈ p.classes :=
    List.mem_reverse.mp ((class?_suffix hfound).subset List.mem_cons_self)
  obtain ⟨before, after, hsplit⟩ := List.append_of_mem hc
  exact ⟨before, c, after, hsplit, hname, hp.parent_before hsplit (hname ▸ hs)⟩

/-- The place of a class among all classes grows from superclass to subclass. -/
theorem DeclaredBefore.idxOf_lt (hn : (p.classes.map ClassDecl.name).Nodup) {s cls : String}
    (hs : p.DeclaredBefore s cls) :
    (p.classes.map ClassDecl.name).idxOf s < (p.classes.map ClassDecl.name).idxOf cls := by
  obtain ⟨before, c, after, hsplit, rfl, hmem⟩ := hs
  rw [hsplit, List.map_append, List.map_cons] at hn ⊢
  have hfresh : c.name ∉ before.map ClassDecl.name := by
    intro hin
    exact (List.nodup_append.mp hn).2.2 _ hin _ List.mem_cons_self rfl
  rw [List.idxOf_append_of_mem hmem, List.idxOf_append_of_notMem hfresh, List.idxOf_cons_self,
    Nat.add_zero]
  exact List.idxOf_lt_length_of_mem hmem

theorem Resolved.acyclic (hp : p.Resolved b h) : h.Acyclic := by
  have hn : (p.classes.map ClassDecl.name).Nodup := by
    rw [← List.nodup_reverse, ← List.map_reverse]
    exact hp.distinct
  exact Ancestry.acyclic_of_rank _ fun c s hs => (hp.declaredBefore hs).idxOf_lt hn

/-- In a program without a fault every superclass is declared before its subclass and no
class is above itself; and the type of a class is a subtype of the type of each class
that it descends from, in all members at the places of that class. -/
theorem descends_subtypeOf (p : Program) (hn : p.ids.Nodup) (hr : p.resolve.errors = [])
    (ht : (p.typingContext.check p).errors = []) :
    (∀ c ∈ p.classes, p.resolve.ancestry.parent? c.name = c.parent?) ∧
    (∀ cls s, p.resolve.ancestry.parent? cls = some s → p.DeclaredBefore s cls) ∧
    p.resolve.ancestry.Acyclic ∧
    ∀ c ∈ p.classes, ∀ d ∈ p.classes, p.resolve.ancestry.descends c.name d.name →
      ∃ own above, p.resolve.bindings.shape? c.name = some own ∧
        p.resolve.bindings.shape? d.name = some above ∧
        own.toTy.subtypeOf p.resolve.ancestry above.toTy ∧
        own.Refines p.resolve.ancestry above := by
  have hp := p.resolve_resolved hn hr
  obtain ⟨t, -, htyped, -⟩ := p.typingContext.check_typed p hp ht
  refine ⟨fun c hc => hp.parent_eq hc, fun cls s hs => hp.declaredBefore hs, hp.acyclic, ?_⟩
  intro c hc d hd hdesc
  obtain ⟨l, hl, -⟩ := hp.methods c hc
  have hbelow : p.typingContext.ancestry.Below c.name d.name :=
    Ancestry.descends_iff_below.mp hdesc
  obtain ⟨l', hl', href⟩ := refines_below hp htyped hbelow hl
  exact ⟨l.shape, l'.shape, hp.shape_eq hl, hp.shape_eq hl', href.shape.subtypeOf, href.shape⟩

end Program

/-- Three classes, each below the one before it. The second one narrows the fields and the
result of the first one's method and widens its parameter, the third one declares only
a field of its own. -/
def narrowProgram : Program :=
  let pos := Position.ofLine 1
  { classes := [
      { id := 0, name := "A", parent? := none, pos
        fields := [⟨1, "x", .int pos, pos⟩, ⟨2, "next", .named "A" pos, pos⟩]
        methods := [{ id := 3, name := "find", params := [⟨4, "key", .bool pos, pos⟩]
                      ret := .named "A" pos, decls := [], body := .name 5 "next" pos, pos }] },
      { id := 6, name := "B", parent? := some "A", pos
        fields := [⟨7, "next", .named "B" pos, pos⟩, ⟨8, "x", .bool pos, pos⟩]
        methods := [{ id := 9, name := "find", params := [⟨10, "key", .int pos, pos⟩]
                      ret := .named "B" pos, decls := [], body := .name 11 "next" pos, pos }] },
      { id := 12, name := "C", parent? := some "B", pos
        fields := [⟨13, "y", .int pos, pos⟩]
        methods := [] }]
    decls := []
    body := .lit .null pos
    pos }

/-- The last class has subtypes of all members of the first one, which it does not name. -/
theorem narrowProgram_subtypes : narrowProgram.ids.Nodup ∧
    narrowProgram.resolve.errors = [] ∧
    (narrowProgram.typingContext.check narrowProgram).errors = [] ∧
    narrowProgram.resolve.ancestry.descends "C" "A" ∧
    narrowProgram.DeclaredBefore "A" "B" ∧ narrowProgram.resolve.ancestry.Acyclic ∧
    ∃ own above, narrowProgram.resolve.bindings.shape? "C" = some own ∧
      narrowProgram.resolve.bindings.shape? "A" = some above ∧
      own.toTy.subtypeOf narrowProgram.resolve.ancestry above.toTy ∧
      own.Refines narrowProgram.resolve.ancestry above := by
  have hids : narrowProgram.ids.Nodup := by decide +kernel
  have hr : narrowProgram.resolve.errors = [] := by decide +kernel
  have ht : (narrowProgram.typingContext.check narrowProgram).errors = [] := by decide +kernel
  have hdesc : narrowProgram.resolve.ancestry.descends "C" "A" := by decide +kernel
  have hparent : narrowProgram.resolve.ancestry.parent? "B" = some "A" := by decide +kernel
  obtain ⟨-, hbefore, hacyclic, hsub⟩ := narrowProgram.descends_subtypeOf hids hr ht
  refine ⟨hids, hr, ht, hdesc, hbefore "B" "A" hparent, hacyclic, ?_⟩
  have hnames : ∀ x ∈ ["A", "C"], ∃ c ∈ narrowProgram.classes, c.name = x := by decide +kernel
  obtain ⟨c, hc, hcname⟩ := hnames "C" (by simp)
  obtain ⟨a, ha, haname⟩ := hnames "A" (by simp)
  have hsub := hsub c hc a ha (by rw [hcname, haname]; exact hdesc)
  rwa [hcname, haname] at hsub

end Classlet
