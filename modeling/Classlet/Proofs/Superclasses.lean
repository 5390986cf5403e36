import Classlet.Proofs.Hierarchy
import Classlet.Proofs.MemberPlaces

/-!
Two records of superclasses. The class table and the binding of a class keep what the first
class of a name has found, while the ancestry takes over what each later class of that name
finds. So the two agree on a name exactly if the last of its classes that finds a superclass
finds the one that the first class has. Where they agree on all names no class is above
itself; otherwise a class may come to be above itself.
-/

namespace Classlet

/-- The superclass that is found for a class: one of the classes before it. -/
def ClassDecl.foundParent? (c : ClassDecl) (before : List ClassDecl) : Option String :=
  c.parent?.filter fun s => before.any fun d => d.name == s

/-- The superclass that the last class of a name finds, of those that find one. The classes
are given with the latest first. -/
def lastParent? (cls : String) : List ClassDecl → Option String
  | [] => none
  | c :: before =>
    (if c.name = cls then c.foundParent? before else none).or (lastParent? cls before)

namespace ClassDecl

variable {c : ClassDecl} {before : List ClassDecl} {s : String}

theorem foundParent?_eq_some :
    c.foundParent? before = some s ↔ c.parent? = some s ∧ s ∈ before.map ClassDecl.name := by
  simp [foundParent?]

theorem foundParent?_reverse : c.foundParent? before.reverse = c.foundParent? before := by
  simp [foundParent?]

end ClassDecl

theorem mem_names_of_lastParent? {cls s : String} {classes : List ClassDecl}
    (h : lastParent? cls classes = some s) : cls ∈ classes.map ClassDecl.name := by
  induction classes with
  | nil => cases h
  | cons c before ih =>
    rw [List.map_cons, List.mem_cons]
    by_cases hc : c.name = cls
    · exact Or.inl hc.symm
    · rw [lastParent?, if_neg hc, Option.none_or] at h
      exact Or.inr (ih h)

theorem lastParent?_of_notMem {cls : String} {classes : List ClassDecl}
    (h : cls ∉ classes.map ClassDecl.name) : lastParent? cls classes = none := by
  cases hp : lastParent? cls classes with
  | none => rfl
  | some s => exact absurd (mem_names_of_lastParent? hp) h

theorem lastParent?_append_of_notMem {cls : String} {later : List ClassDecl}
    (before : List ClassDecl) (h : cls ∉ later.map ClassDecl.name) :
    lastParent? cls (later ++ before) = lastParent? cls before := by
  induction later with
  | nil => rfl
  | cons c later ih =>
    rw [List.map_cons, List.mem_cons, not_or] at h
    rw [List.cons_append, lastParent?, if_neg (Ne.symm h.1), Option.none_or, ih h.2]

/-- Where no class of a name finds a superclass, none of them has found one. -/
theorem foundParent?_of_lastParent? {c : ClassDecl} {later before : List ClassDecl}
    (h : lastParent? c.name (later ++ c :: before) = none) : c.foundParent? before = none := by
  induction later with
  | nil =>
    rw [List.nil_append, lastParent?, if_pos rfl] at h
    exact (Option.or_eq_none_iff.mp h).1
  | cons d later ih =>
    rw [List.cons_append, lastParent?] at h
    exact ih (Option.or_eq_none_iff.mp h).2

/-- Every name has a first class. -/
theorem exists_first {cls : String} {classes : List ClassDecl}
    (h : cls ∈ classes.map ClassDecl.name) : ∃ before c after,
      classes = before ++ c :: after ∧ c.name = cls ∧ cls ∉ before.map ClassDecl.name := by
  obtain ⟨names, _, heq, hfirst⟩ := List.eq_append_cons_of_mem h
  obtain ⟨before, rest, rfl, rfl, hrest⟩ := List.map_eq_append_iff.mp heq
  obtain ⟨c, after, rfl, rfl, -⟩ := List.map_eq_cons_iff.mp hrest
  exact ⟨before, c, after, rfl, rfl, hfirst⟩

namespace Resolution

variable {r : Resolution}

/-- The superclass of a class, if it is registered. -/
def registeredParent? (r : Resolution) (c : ClassDecl) : Option String :=
  c.parent?.filter fun s => (r.bindings.record? s).isSome

theorem inherit_parents (r : Resolution) (c : ClassDecl) :
    (r.inherit c).2.2 = r.registeredParent? c ∧
      ∀ cls, (r.inherit c).1.ancestry.parent? cls =
        (if c.name = cls then r.registeredParent? c else none).or (r.ancestry.parent? cls) := by
  unfold inherit registeredParent?
  cases c.parent? with
  | none => simp
  | some s =>
    cases hs : r.bindings.record? s with
    | none => simp [hs, report, Option.filter_some]
    | some record =>
      simp only [hs, Option.filter_some, Option.isSome_some, if_true, true_and]
      intro cls
      rw [parent?_setParent]
      by_cases hc : c.name = cls
      · simp [hc]
      · simp [hc]

/-- What the header of a class adds to the ancestry. -/
theorem layClass_parents (r : Resolution) (c : ClassDecl) :
    (r.openHeader c).2.2 = r.registeredParent? c ∧
      ∀ cls, (r.layClass c).1.ancestry.parent? cls =
        (if c.name = cls then r.registeredParent? c else none).or (r.ancestry.parent? cls) := by
  obtain ⟨hfound, hparents⟩ := inherit_parents { r with scope := r.scope.takeDecl.2 } c
  have hopen : (r.openHeader c).1.ancestry =
      ({ r with scope := r.scope.takeDecl.2 }.inherit c).1.ancestry := by
    unfold openHeader
    simp only
    split <;> rfl
  have hlaid : (r.layClass c).1.ancestry = (r.fillHeader c).1.ancestry := rfl
  refine ⟨hfound, fun cls => ?_⟩
  rw [hlaid, (binds_fillHeader r c).ancestry, hopen]
  exact hparents cls

/-- The superclasses of the classes that have been laid out, the latest of them first. -/
structure Traces (r : Resolution) (done : List ClassDecl) : Prop where
  registered : ∀ cls, (r.bindings.record? cls).isSome ↔ cls ∈ done.map ClassDecl.name
  parents : ∀ cls, r.ancestry.parent? cls = lastParent? cls done
  rows : ∀ later c before, done = later ++ c :: before → c.name ∉ before.map ClassDecl.name →
    ∃ record, r.bindings.record? c.name = some record ∧
      r.bindings.classes[c.id]? =
        some { entry := record.entry, parent? := c.foundParent? before }

theorem Traces.registeredParent? {done : List ClassDecl} (h : r.Traces done) (c : ClassDecl) :
    r.registeredParent? c = c.foundParent? done := by
  unfold Resolution.registeredParent? ClassDecl.foundParent?
  congr 1
  funext s
  rw [Bool.eq_iff_iff, h.registered, List.any_eq_true, List.mem_map]
  simp only [beq_iff_eq]

/-- A class leaves the rows of the classes before it as they are. -/
theorem layClass_traces {done : List ClassDecl} (h : r.Traces done) {c : ClassDecl}
    (hid : c.id ∉ done.map ClassDecl.id) : (r.layClass c).1.Traces (c :: done) := by
  obtain ⟨hfound, hparents⟩ := layClass_parents r c
  rw [h.registeredParent? c] at hfound
  refine ⟨layClass_registered h.registered, ?_, ?_⟩
  · intro cls
    rw [hparents, h.registeredParent? c, h.parents, lastParent?]
  · intro later d before hsplit hfirst
    cases later with
    | nil =>
      obtain ⟨rfl, rfl⟩ := List.cons.inj hsplit
      have hnone : r.bindings.record? c.name = none := by
        rw [← Option.not_isSome_iff_eq_none, h.registered]
        exact hfirst
      refine ⟨r.newRecord c, ?_, ?_⟩
      · rw [layClass_record?, if_pos ⟨rfl, hnone⟩]
      · rw [layClass_classes, if_pos rfl, hfound]
    | cons e later =>
      obtain ⟨rfl, hrest⟩ := List.cons.inj hsplit
      obtain ⟨record, hrecord, hrow⟩ := h.rows later d before hrest hfirst
      have hd : d.id ∈ done.map ClassDecl.id := by simp [hrest]
      have hne : c.id ≠ d.id := fun heq => hid (heq ▸ hd)
      refine ⟨record, (extends_layClass r c).bindings.records _ _ hrecord, ?_⟩
      rw [layClass_classes, if_neg hne, hrow]

theorem layClasses_traces (cs : List ClassDecl) :
    ∀ (r : Resolution) (done : List ClassDecl), r.Traces done →
      ((cs.reverse ++ done).map ClassDecl.id).Nodup →
      (layClasses cs r).1.Traces (cs.reverse ++ done) := by
  induction cs with
  | nil =>
    intro r done h _
    exact h
  | cons c cs ih =>
    intro r done h hn
    rw [List.reverse_cons, List.append_assoc, List.singleton_append] at hn ⊢
    have hid : c.id ∉ done.map ClassDecl.id := by
      rw [List.map_append, List.nodup_append] at hn
      exact (List.nodup_cons.mp hn.2.1).1
    exact ih (r.layClass c).1 (c :: done) (layClass_traces h hid) hn

end Resolution

open Resolution

namespace Program

variable {p : Program}

theorem nodup_classIds (hn : p.ids.Nodup) : (p.classes.map ClassDecl.id).Nodup := by
  rw [Program.ids, List.nodup_append] at hn
  refine hn.1.sublist ?_
  rw [List.map_eq_flatMap]
  generalize p.classes = cs
  induction cs with
  | nil => exact List.Sublist.slnil
  | cons c cs ih =>
    rw [List.flatMap_cons, List.flatMap_cons]
    exact List.Sublist.append (List.sublist_cons_iff.mpr (Or.inr ⟨[], rfl, List.nil_sublist _⟩)) ih

theorem laid_traces (hn : p.ids.Nodup) : p.laid.1.Traces p.classes.reverse := by
  have hstart : p.opened.Traces [] := by
    refine ⟨?_, ?_, ?_⟩
    · intro cls
      simp [opened, enter, Bindings.record?]
    · intro cls
      simp [opened, enter, Ancestry.parent?, lastParent?]
    · intro later c before hsplit
      simp at hsplit
  have h := layClasses_traces p.classes p.opened [] hstart (by
    rw [List.append_nil, List.map_reverse, List.nodup_reverse]
    exact nodup_classIds hn)
  rwa [List.append_nil] at h

theorem resolve_traces (hn : p.ids.Nodup) : p.resolve.Traces p.classes.reverse := by
  have hlaid := laid_traces hn
  have hrecord : ∀ cls, p.resolve.bindings.record? cls = p.laid.1.bindings.record? cls := by
    intro cls
    simp only [Bindings.record?, p.binds_laid.records]
  refine ⟨?_, ?_, ?_⟩
  · intro cls
    rw [hrecord]
    exact hlaid.registered cls
  · intro cls
    rw [p.binds_laid.ancestry]
    exact hlaid.parents cls
  · intro later c before hsplit hfirst
    rw [hrecord, p.binds_laid.classes]
    exact hlaid.rows later c before hsplit hfirst

/-- The first class of a name has the rank of its place among all classes. -/
theorem idxOf_lt_of_first {before after : List ClassDecl} {c : ClassDecl} {s : String}
    (hsplit : p.classes = before ++ c :: after) (hfirst : c.name ∉ before.map ClassDecl.name)
    (hs : s ∈ before.map ClassDecl.name) :
    (p.classes.map ClassDecl.name).idxOf s < (p.classes.map ClassDecl.name).idxOf c.name := by
  rw [hsplit, List.map_append, List.idxOf_append_of_mem hs, List.idxOf_append_of_notMem hfirst]
  have hlt := List.idxOf_lt_length_of_mem hs
  omega

/-- The ancestry has for the name of a class the superclass that the class has found. -/
def SuperclassKept (p : Program) (before : List ClassDecl) (c : ClassDecl) : Prop :=
  p.resolve.ancestry.parent? c.name = c.foundParent? before

/-- The row of a name and the binding of its class are those of the first class of the name,
while the ancestry has the superclass that the last one finds, of those that find one. So
the superclass of the first class is kept exactly if the last one finds the same, and always
if there is no other class of the name; and if it is kept for all names, no class is above
itself. -/
theorem superclass_kept_iff (p : Program) (hn : p.ids.Nodup) :
    (∀ cls, p.resolve.ancestry.parent? cls = lastParent? cls p.classes.reverse) ∧
    (∀ before c after, p.classes = before ++ c :: after → c.name ∉ before.map ClassDecl.name →
      (∃ record, p.resolve.bindings.record? c.name = some record ∧
        p.resolve.bindings.classes[c.id]? =
          some { entry := record.entry, parent? := c.foundParent? before }) ∧
      (p.SuperclassKept before c ↔
        ∀ s, lastParent? c.name p.classes.reverse = some s → c.foundParent? before = some s) ∧
      (c.name ∉ after.map ClassDecl.name → p.SuperclassKept before c)) ∧
    ((∀ before c after, p.classes = before ++ c :: after →
      c.name ∉ before.map ClassDecl.name → p.SuperclassKept before c) →
      p.resolve.ancestry.Acyclic) := by
  have htraces := p.resolve_traces hn
  refine ⟨htraces.parents, ?_, ?_⟩
  · intro before c after hsplit hfirst
    have hrev : p.classes.reverse = after.reverse ++ c :: before.reverse := by simp [hsplit]
    have hfirst' : c.name ∉ before.reverse.map ClassDecl.name := by simpa using hfirst
    obtain ⟨record, hrecord, hrow⟩ := htraces.rows _ c _ hrev hfirst'
    rw [ClassDecl.foundParent?_reverse] at hrow
    refine ⟨⟨record, hrecord, hrow⟩, ?_, ?_⟩
    · rw [SuperclassKept, htraces.parents]
      constructor
      · intro heq s hs
        rw [← heq, hs]
      · intro hlast
        cases hs : lastParent? c.name p.classes.reverse with
        | some s => exact (hlast s hs).symm
        | none =>
          rw [hrev] at hs
          rw [← ClassDecl.foundParent?_reverse, foundParent?_of_lastParent? hs]
    · intro honce
      rw [SuperclassKept, htraces.parents, hrev,
        lastParent?_append_of_notMem _ (by simpa using honce), lastParent?, if_pos rfl,
        lastParent?_of_notMem hfirst', Option.or_none, ClassDecl.foundParent?_reverse]
  · intro hkept
    apply Ancestry.acyclic_of_rank (p.classes.map ClassDecl.name).idxOf
    intro cls s hs
    have hcls : cls ∈ p.classes.map ClassDecl.name := by
      rw [htraces.parents] at hs
      simpa using mem_names_of_lastParent? hs
    obtain ⟨before, c, after, hsplit, rfl, hfirst⟩ := exists_first hcls
    have hfound := hkept before c after hsplit hfirst
    rw [SuperclassKept, hs] at hfound
    exact idxOf_lt_of_first hsplit hfirst (ClassDecl.foundParent?_eq_some.mp hfound.symm).2

end Program

/-- A class is followed by a subclass of it, and then by another class of its name that
extends the subclass. -/
def reopenedProgram : Program :=
  let pos := Position.ofLine 1
  { classes := [
      { id := 0, name := "A", parent? := none, fields := [], methods := [], pos },
      { id := 1, name := "B", parent? := some "A", fields := [], methods := [], pos },
      { id := 2, name := "A", parent? := some "B", fields := [], methods := [], pos }]
    decls := []
    body := .lit (.int 0) pos
    pos }

/-- The superclass of the first class is not kept. Without the third class, all superclasses
are kept and no class is above itself. -/
theorem reopenedProgram_not_kept : reopenedProgram.ids.Nodup ∧
    (∃ record, reopenedProgram.resolve.bindings.record? "A" = some record ∧
      reopenedProgram.resolve.bindings.classes[0]? =
        some { entry := record.entry, parent? := none }) ∧
    ¬ reopenedProgram.SuperclassKept [] reopenedProgram.classes[0] ∧
    { reopenedProgram with
      classes := reopenedProgram.classes.take 2 }.resolve.ancestry.Acyclic := by
  have hids : reopenedProgram.ids.Nodup := by decide
  obtain ⟨-, hfirst, -⟩ := reopenedProgram.superclass_kept_iff hids
  obtain ⟨hrow, hkept, -⟩ :=
    hfirst [] reopenedProgram.classes[0] reopenedProgram.classes.tail rfl (by decide)
  refine ⟨hids, hrow, ?_, ?_⟩
  · rw [hkept]
    decide
  · obtain ⟨-, honce, hacyclic⟩ := Program.superclass_kept_iff
      { reopenedProgram with classes := reopenedProgram.classes.take 2 } (by decide)
    refine hacyclic fun before c after hsplit hbefore => ?_
    refine (honce before c after hsplit hbefore).2.2 ?_
    have hnames : ((before ++ c :: after).map ClassDecl.name).Nodup := by
      rw [← hsplit]
      decide
    rw [List.map_append, List.map_cons, List.nodup_append] at hnames
    exact (List.nodup_cons.mp hnames.2.1).1

/-- The first class has no superclass, and yet it comes to be above itself. -/
theorem reopenedProgram_cyclic :
    (reopenedProgram.resolve.bindings.classes[0]?.map fun k => k.parent?) = some none ∧
    reopenedProgram.resolve.ancestry.parent? "A" = some "B" ∧
    ¬ reopenedProgram.resolve.ancestry.Acyclic := by
  have hup : reopenedProgram.resolve.ancestry.parent? "A" = some "B" := by decide +kernel
  have hdown : reopenedProgram.resolve.ancestry.parent? "B" = some "A" := by decide +kernel
  refine ⟨by decide +kernel, hup, ?_⟩
  intro hacyclic
  exact hacyclic "A" (.tail (.single hup) hdown)

end Classlet
