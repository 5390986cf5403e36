import Classlet.Proofs.Joins
import Mathlib.Data.List.Chain

/-!
The ancestors of a class. The walk upwards stops after as many steps as there are classes
with a superclass. This loses no class, whether the walk comes to an end before or goes
round a cycle. If no class is above itself, the walk goes from each class to its superclass
up to a class that has none, and so it lists the classes above the first one once each.
-/

namespace Classlet

namespace Ancestry

variable {h : Ancestry} {c d : String}

/-- A class is properly below another one if one or more superclasses lead from it to the
other. -/
def ProperlyBelow (h : Ancestry) : String → String → Prop :=
  Relation.TransGen fun c s => h.parent? c = some s

instance (h : Ancestry) : Trans h.ProperlyBelow h.ProperlyBelow h.ProperlyBelow :=
  ⟨Relation.TransGen.trans⟩

/-- Each class on the way upwards is the superclass of the one before it. -/
theorem isChain_climb (h : Ancestry) (n : Nat) (c : String) :
    (c :: h.climb n c).IsChain fun c s => h.parent? c = some s := by
  induction n generalizing c with
  | zero => exact .singleton c
  | succ n ih =>
    unfold climb
    cases hs : h.parent? c with
    | none => exact .singleton c
    | some s => exact .cons_cons hs (ih s)

theorem pairwise_ancestors (h : Ancestry) (c : String) :
    (c :: h.ancestors c).Pairwise h.ProperlyBelow :=
  ((h.isChain_climb h.size c).imp fun _ _ hs => Relation.TransGen.single hs).pairwise

/-- The walk meets all classes above the first one. -/
theorem mem_ancestors_iff (ha : h.Acyclic) : d ∈ h.ancestors c ↔ h.ProperlyBelow c d := by
  constructor
  · exact fun hd => List.rel_of_pairwise_cons (h.pairwise_ancestors c) hd
  · intro hcd
    have hne : c ≠ d := by
      rintro rfl
      exact ha c hcd
    exact mem_ancestors_of_descends (descends_iff_below.mpr hcd.to_reflTransGen) hne

theorem nodup_ancestors (ha : h.Acyclic) (c : String) : (c :: h.ancestors c).Nodup := by
  refine (h.pairwise_ancestors c).imp fun hxy => ?_
  rintro rfl
  exact ha _ hxy

/-- The walk is not cut short: it would have met a superclass of the last class before, and
that superclass would be above itself. -/
theorem parent?_last (ha : h.Acyclic) (c : String) :
    h.parent? ((h.ancestors c).getLastD c) = none := by
  have hne : c :: h.ancestors c ≠ [] := List.cons_ne_nil _ _
  have hlast : (c :: h.ancestors c).getLast hne = (h.ancestors c).getLastD c :=
    List.getLast_eq_getLastD hne
  have hsplit := List.dropLast_concat_getLast hne
  rw [hlast] at hsplit
  generalize (h.ancestors c).getLastD c = last at hsplit
  cases hs : h.parent? last with
  | none => rfl
  | some s =>
    have hpairs := h.pairwise_ancestors c
    rw [← hsplit, List.pairwise_append] at hpairs
    have habove : h.ProperlyBelow last s := Relation.TransGen.single hs
    have hmet : s ∈ (c :: h.ancestors c).dropLast ++ [last] := by
      have hlastMem : last ∈ c :: h.ancestors c := by
        rw [← hsplit]
        exact List.mem_append_right _ (List.mem_singleton_self _)
      rw [hsplit]
      refine List.mem_cons_of_mem _ ((mem_ancestors_iff ha).mpr ?_)
      rcases List.mem_cons.mp hlastMem with rfl | hlastMem
      · exact habove
      · exact ((mem_ancestors_iff ha).mp hlastMem).trans habove
    rcases List.mem_append.mp hmet with hmet | hmet
    · have hbelow := hpairs.2.2 s hmet last (List.mem_singleton_self _)
      exact absurd (hbelow.trans habove) (ha s)
    · obtain rfl := List.mem_singleton.mp hmet
      exact absurd habove (ha s)

/-- The bounded walk loses nothing. Over every ancestry a class descends from exactly those
that superclasses lead to. If no class is above itself, the ancestors of a class are all the
classes above it, each of them once, from each class to its superclass, up to one that has
none. -/
theorem walk_complete (h : Ancestry) :
    (∀ c d, h.descends c d ↔ h.Below c d) ∧
    (h.Acyclic → ∀ c, (∀ d, d ∈ h.ancestors c ↔ h.ProperlyBelow c d) ∧ (h.ancestors c).Nodup ∧
      ((c :: h.ancestors c).IsChain fun c s => h.parent? c = some s) ∧
      h.parent? ((h.ancestors c).getLastD c) = none) := by
  refine ⟨fun _ _ => descends_iff_below, fun ha c => ⟨fun _ => mem_ancestors_iff ha, ?_, ?_, ?_⟩⟩
  · exact (h.nodup_ancestors ha c).of_cons
  · exact h.isChain_climb h.size c
  · exact parent?_last ha c

end Ancestry

/-- Four classes in a row, so that the walk from the lowest one takes as many steps as it
may. -/
def shapeAncestry : Ancestry :=
  (({} : Ancestry).setParent "Square" "Rect").setParent "Rect" "Shape" |>.setParent "Unit" "Square"

theorem acyclic_shapeAncestry : shapeAncestry.Acyclic := by
  have hempty : ∀ c, ({} : Ancestry).parent? c = none := fun c => by simp [Ancestry.parent?]
  refine Ancestry.acyclic_of_rank (fun c => ["Shape", "Rect", "Square"].idxOf c) fun c s hs => ?_
  simp only [shapeAncestry, Resolution.parent?_setParent, hempty] at hs
  split_ifs at hs with hunit hrect hsquare
  all_goals
    subst c
    cases hs
    decide

/-- The walk from the lowest class comes to the highest one. In a cycle it comes to all
classes of the cycle, also from outside. -/
theorem shapeAncestry_walk : shapeAncestry.Acyclic ∧
    shapeAncestry.ancestors "Unit" = ["Square", "Rect", "Shape"] ∧
    (∀ d, d ∈ ["Square", "Rect", "Shape"] ↔ shapeAncestry.ProperlyBelow "Unit" d) ∧
    shapeAncestry.parent? "Shape" = none ∧
    cyclicAncestry.Below "C" "B" ∧ ¬ cyclicAncestry.Below "A" "C" := by
  have hancestors : shapeAncestry.ancestors "Unit" = ["Square", "Rect", "Shape"] := by
    decide +kernel
  obtain ⟨-, hwalk⟩ := shapeAncestry.walk_complete
  obtain ⟨hmem, -, -, hlast⟩ := hwalk acyclic_shapeAncestry "Unit"
  obtain ⟨hdescends, -⟩ := cyclicAncestry.walk_complete
  rw [hancestors] at hmem hlast
  refine ⟨acyclic_shapeAncestry, hancestors, hmem, hlast, (hdescends _ _).mp ?_, ?_⟩
  · decide +kernel
  · rw [← hdescends]
    decide +kernel

end Classlet
