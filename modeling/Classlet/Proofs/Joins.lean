import Classlet.Proofs.SubtypeOrder

/-!
The join of two types is their least upper bound, over every ancestry. The classes that a
walk upwards meets lie each below the next ones, so the first of them that is above another
class lies below all others that are. Over an ancestry without cycles no two types are
subtypes of each other, and then the join does not depend on which type is the first.
-/

namespace Classlet

namespace Ancestry

variable {h : Ancestry} {c d : String}

/-- On the way upwards each class is below those that come later. -/
theorem pairwise_climb (h : Ancestry) (n : Nat) (c : String) : (h.climb n c).Pairwise h.Below := by
  induction n generalizing c with
  | zero => exact List.Pairwise.nil
  | succ n ih =>
    unfold climb
    cases h.parent? c with
    | none => exact List.Pairwise.nil
    | some s => exact List.Pairwise.cons (fun d hd => below_of_mem_climb hd) (ih s)

theorem mem_ancestors_of_descends (hd : h.descends c d) (hne : c ≠ d) : d ∈ h.ancestors c := by
  simp only [descends, Bool.or_eq_true, beq_iff_eq, List.contains_iff_mem] at hd
  exact hd.resolve_left hne

theorem descends_of_mem_ancestors (hd : d ∈ h.ancestors c) : h.descends c d := by
  simp only [descends, Bool.or_eq_true, List.contains_iff_mem]
  exact Or.inr hd

end Ancestry

namespace Ty

variable {h : Ancestry} {a b d t : Ty}

/-! The join. -/

/-- A least upper bound of two types. -/
structure IsJoin (h : Ancestry) (a b t : Ty) : Prop where
  left : a.subtypeOf h t
  right : b.subtypeOf h t
  least : ∀ d : Ty, a.subtypeOf h d → b.subtypeOf h d → t.subtypeOf h d

theorem IsJoin.unique (ha : h.Acyclic) {t' : Ty} (ht : IsJoin h a b t) (ht' : IsJoin h a b t') :
    t = t' :=
  subtypeOf_antisymm ha (ht.least t' ht'.left ht'.right) (ht'.least t ht.left ht.right)

theorem IsJoin.symm (ht : IsJoin h a b t) : IsJoin h b a t :=
  ⟨ht.right, ht.left, fun d hb ha => ht.least d ha hb⟩

/-- The type is one of data: the integers, the booleans, null or a reference. -/
def isData : Ty → Bool
  | .int | .bool | .null | .ref _ => true
  | .arrow _ | .method _ | .cls _ _ => false

/-- Of two types of data with a common supertype one is a subtype of the other, unless all
three are references. -/
theorem comparable_of_upper (ha : a.isData) (hb : b.isData) (had : a.subtypeOf h d)
    (hbd : b.subtypeOf h d) : a.subtypeOf h b ∨ b.subtypeOf h a ∨
      ∃ c e s, a = .ref c ∧ b = .ref e ∧ d = .ref s := by
  cases d with
  | ref s =>
    cases a with
    | ref c =>
      cases b with
      | ref e => exact Or.inr (Or.inr ⟨c, e, s, rfl, rfl, rfl⟩)
      | null => exact Or.inr (Or.inl rfl)
      | int | bool | arrow | method | cls => simp [subtypeOf, compare] at hbd
    | null => cases b <;> simp_all [subtypeOf, compare]
    | int | bool | arrow | method | cls => simp [subtypeOf, compare] at had
  | int | bool | null | arrow | method | cls =>
    cases a <;> cases b <;> simp_all [subtypeOf, compare, isData]

/-- The nearest class above `c`, other than `c`, of which `b` is a subtype. -/
def NearestAbove (h : Ancestry) (c : String) (b : Ty) (s : String) : Prop :=
  b.subtypeOf h (.ref s) ∧ ∃ before after, h.ancestors c = before ++ s :: after ∧
    ∀ x ∈ before, ¬ b.subtypeOf h (.ref x)

theorem join?_eq_some (hj : a.join? h b = some t) :
    (a.subtypeOf h b ∧ t = b) ∨ (b.subtypeOf h a ∧ t = a) ∨
      ∃ c s, a = .ref c ∧ t = .ref s ∧ ¬ b.subtypeOf h a ∧ NearestAbove h c b s := by
  unfold join? at hj
  by_cases hab : a.subtypeOf h b
  · rw [if_pos hab] at hj
    exact Or.inl ⟨hab, (Option.some.inj hj).symm⟩
  by_cases hba : b.subtypeOf h a
  · rw [if_neg hab, if_pos hba] at hj
    exact Or.inr (Or.inl ⟨hba, (Option.some.inj hj).symm⟩)
  rw [if_neg hab, if_neg hba] at hj
  cases a with
  | ref c =>
    obtain ⟨hb, front, back, hsplit, hfront⟩ := List.find?_eq_some_iff_append.mp hj
    obtain ⟨before, rest, hrest, rfl, hmap⟩ := List.map_eq_append_iff.mp hsplit
    obtain ⟨s, after, rfl, rfl, -⟩ := List.map_eq_cons_iff.mp hmap
    refine Or.inr (Or.inr ⟨c, s, rfl, rfl, hba, hb, before, after, hrest, ?_⟩)
    intro x hx hbx
    have hnot := hfront (.ref x) (List.mem_map.mpr ⟨x, hx, rfl⟩)
    rw [hbx] at hnot
    cases hnot
  | int | bool | null | arrow | method | cls => cases hj

theorem join?_eq_none (hj : a.join? h b = none) : ¬ a.subtypeOf h b ∧ ¬ b.subtypeOf h a ∧
    ∀ c, a = .ref c → ∀ s ∈ h.ancestors c, ¬ b.subtypeOf h (.ref s) := by
  unfold join? at hj
  by_cases hab : a.subtypeOf h b
  · rw [if_pos hab] at hj
    cases hj
  by_cases hba : b.subtypeOf h a
  · rw [if_neg hab, if_pos hba] at hj
    cases hj
  refine ⟨hab, hba, ?_⟩
  rintro c rfl s hs
  rw [if_neg hab, if_neg hba] at hj
  exact List.find?_eq_none.mp hj (.ref s) (List.mem_map.mpr ⟨s, hs, rfl⟩)

/-- A common supertype of a reference and of what is no subtype of it is a reference to a
class further up. -/
theorem mem_ancestors_of_upper {c : String} (hba : ¬ b.subtypeOf h (.ref c))
    (had : (Ty.ref c).subtypeOf h d) (hbd : b.subtypeOf h d) :
    ∃ s, d = .ref s ∧ s ∈ h.ancestors c := by
  cases d with
  | ref s =>
    refine ⟨s, rfl, Ancestry.mem_ancestors_of_descends had ?_⟩
    rintro rfl
    exact hba hbd
  | int | bool | null | arrow | method | cls => simp [subtypeOf, compare] at had

theorem isJoin_of_join? (hj : a.join? h b = some t) : IsJoin h a b t := by
  rcases join?_eq_some hj with ⟨hab, rfl⟩ | ⟨hba, rfl⟩ | ⟨c, s, rfl, rfl, hba, hb, before, after,
    hsplit, hbefore⟩
  · exact ⟨hab, subtypeOf_refl h t, fun d _ hbd => hbd⟩
  · exact ⟨subtypeOf_refl h t, hba, fun d had _ => had⟩
  · have hs : s ∈ h.ancestors c := by
      rw [hsplit]
      exact List.mem_append_right _ List.mem_cons_self
    refine ⟨Ancestry.descends_of_mem_ancestors hs, hb, ?_⟩
    intro d had hbd
    obtain ⟨x, rfl, hx⟩ := mem_ancestors_of_upper hba had hbd
    -- What comes before the first class above `b` is not above `b`.
    rw [hsplit, List.mem_append, List.mem_cons] at hx
    rcases hx with hx | rfl | hx
    · exact absurd hbd (hbefore x hx)
    · exact subtypeOf_refl h (.ref x)
    · have hup := h.pairwise_climb h.size c
      rw [← Ancestry.ancestors, hsplit, List.pairwise_append, List.pairwise_cons] at hup
      exact Ancestry.descends_iff_below.mpr (hup.2.1.1 x hx)

theorem not_upper_of_join? (ha : a.isData) (hb : b.isData) (hj : a.join? h b = none) (d : Ty) :
    ¬ (a.subtypeOf h d ∧ b.subtypeOf h d) := by
  rintro ⟨had, hbd⟩
  obtain ⟨hab, hba, hup⟩ := join?_eq_none hj
  rcases comparable_of_upper ha hb had hbd with h₁ | h₁ | ⟨c, e, s, rfl, rfl, rfl⟩
  · exact hab h₁
  · exact hba h₁
  · obtain ⟨x, hx, hmem⟩ := mem_ancestors_of_upper hba had hbd
    rw [hx] at hbd
    exact hup c rfl x hmem hbd

/-- Two types that have a join have one the other way around. -/
theorem join?_isSome_symm (hj : a.join? h b = some t) : ∃ t', b.join? h a = some t' := by
  rw [← Option.ne_none_iff_exists']
  intro hnone
  obtain ⟨hba, hab, -⟩ := join?_eq_none hnone
  have hjoin := isJoin_of_join? hj
  rcases join?_eq_some hj with ⟨h₁, -⟩ | ⟨h₁, -⟩ | ⟨c, s, rfl, rfl, -, hb, -⟩
  · exact hab h₁
  · exact hba h₁
  · cases b with
    | ref e => exact not_upper_of_join? rfl rfl hnone _ ⟨hjoin.right, hjoin.left⟩
    | null => exact hba rfl
    | int | bool | arrow | method | cls => simp [subtypeOf, compare] at hb

theorem join?_symm (ha : h.Acyclic) (hj : a.join? h b = some t) : b.join? h a = some t := by
  obtain ⟨t', ht'⟩ := join?_isSome_symm hj
  rw [ht', (isJoin_of_join? ht').unique ha (isJoin_of_join? hj).symm]

/-- A join is a least upper bound over every ancestry. Types of data without a join have no
common supertype, and without cycles the join is the same in either order. -/
theorem join?_least_upper (h : Ancestry) (a b : Ty) :
    (∀ t, a.join? h b = some t → IsJoin h a b t) ∧
    (a.isData → b.isData → a.join? h b = none → ∀ d : Ty, ¬ (a.subtypeOf h d ∧ b.subtypeOf h d)) ∧
    (h.Acyclic → a.join? h b = b.join? h a) := by
  refine ⟨fun t hj => isJoin_of_join? hj, not_upper_of_join?, fun ha => ?_⟩
  apply Option.ext
  intro t
  exact ⟨join?_symm ha, join?_symm ha⟩

end Ty

-- In a cycle each class is a least one, and the walk stops at the first that it meets.
example : (Ty.ref "C").join? cyclicAncestry (.ref "D") = some (.ref "A") ∧
    (Ty.ref "D").join? cyclicAncestry (.ref "C") = some (.ref "B") := by decide +kernel

end Classlet
