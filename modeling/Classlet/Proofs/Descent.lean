import Classlet.Proofs.Values
import Mathlib.Data.List.Nodup
import Mathlib.Data.List.Perm.Subperm
import Mathlib.Data.Nat.Find

/-!
A class descends from all classes that superclasses lead to. The walk upwards takes
as many steps as there are classes with a superclass, and this is enough: the
shortest way from one class to another goes through no class twice.
-/

namespace Classlet

namespace Ancestry

variable {h : Ancestry} {c d : String}

/-- The class that is reached after a number of steps upwards. -/
def up? (h : Ancestry) : Nat → String → Option String
  | 0, c => some c
  | n + 1, c => (h.parent? c).bind (h.up? n)

theorem up?_add (m n : Nat) (c : String) : h.up? (m + n) c = (h.up? m c).bind (h.up? n) := by
  induction m generalizing c with
  | zero => simp [up?]
  | succ m ih =>
    rw [Nat.add_right_comm]
    cases hp : h.parent? c with
    | none => simp [up?, hp]
    | some s => simp [up?, hp, ih]

theorem below_iff_up? : h.Below c d ↔ ∃ n, h.up? n c = some d := by
  constructor
  · intro hb
    induction hb using Relation.ReflTransGen.head_induction_on with
    | refl => exact ⟨0, rfl⟩
    | head hstep _ ih =>
      obtain ⟨n, hn⟩ := ih
      exact ⟨n + 1, by rw [up?, hstep, Option.bind_some, hn]⟩
  · rintro ⟨n, hn⟩
    induction n generalizing c with
    | zero =>
      cases hn
      exact Relation.ReflTransGen.refl
    | succ n ih =>
      obtain ⟨s, hs, hn⟩ := Option.bind_eq_some_iff.mp hn
      exact Relation.ReflTransGen.head hs (ih hn)

theorem mem_climb {n k : Nat} (hn : h.up? (k + 1) c = some d) (hk : k < n) : d ∈ h.climb n c := by
  induction n generalizing c k with
  | zero => omega
  | succ n ih =>
    obtain ⟨s, hs, hn⟩ := Option.bind_eq_some_iff.mp hn
    simp only [climb, hs, List.mem_cons]
    cases k with
    | zero =>
      cases hn
      exact Or.inl rfl
    | succ k => exact Or.inr (ih hn (by omega))

/-- On the shortest way all classes but the last have a superclass and are
different. -/
theorem shortest_le_size {n : Nat} (hn : h.up? n c = some d)
    (hshortest : ∀ m < n, h.up? m c ≠ some d) : n ≤ h.size := by
  have hnode : ∀ i < n, ∃ x, h.up? i c = some x ∧ x ∈ h.parents.keys := by
    intro i hi
    obtain ⟨k, rfl⟩ := Nat.exists_eq_add_of_lt hi
    rw [Nat.add_assoc, up?_add] at hn
    obtain ⟨x, hx, hrest⟩ := Option.bind_eq_some_iff.mp hn
    obtain ⟨s, hs, -⟩ := Option.bind_eq_some_iff.mp hrest
    refine ⟨x, hx, ?_⟩
    rw [Std.TreeMap.mem_keys, Std.TreeMap.mem_iff_isSome_getElem?]
    exact Option.isSome_of_mem hs
  have hdistinct : ((List.range n).map fun i => h.up? i c).Nodup := by
    rw [List.nodup_map_iff_inj_on List.nodup_range]
    intro i hi j hj heq
    -- Between two visits of one class there would be a way that could be left out.
    have hcut : ∀ i j, i < j → j < n → h.up? i c ≠ h.up? j c := by
      intro i j hij hj heq
      have hshort : h.up? (i + (n - j)) c = some d := by
        rw [up?_add, heq, ← up?_add, Nat.add_sub_cancel' (Nat.le_of_lt hj), hn]
      exact hshortest _ (by omega) hshort
    rw [List.mem_range] at hi hj
    rcases Nat.lt_trichotomy i j with hlt | rfl | hlt
    · exact absurd heq (hcut i j hlt hj)
    · rfl
    · exact absurd heq.symm (hcut j i hlt hi)
  have hsubset : (List.range n).map (fun i => h.up? i c) ⊆ h.parents.keys.map some := by
    intro y hy
    obtain ⟨i, hi, rfl⟩ := List.mem_map.mp hy
    obtain ⟨x, hx, hmem⟩ := hnode i (List.mem_range.mp hi)
    exact List.mem_map.mpr ⟨x, hmem, hx.symm⟩
  have hle := (List.subperm_of_subset hdistinct hsubset).length_le
  rwa [List.length_map, List.length_range, List.length_map, Std.TreeMap.length_keys] at hle

/-- A class descends from exactly those that superclasses lead to. -/
theorem descends_iff_below : h.descends c d ↔ h.Below c d := by
  refine ⟨below_of_descends, fun hb => ?_⟩
  have hway := below_iff_up?.mp hb
  have hle := shortest_le_size (Nat.find_spec hway) fun m hm => Nat.find_min hway hm
  have hn := Nat.find_spec hway
  simp only [descends, ancestors, Bool.or_eq_true, beq_iff_eq, List.contains_iff_mem]
  generalize Nat.find hway = n at hn hle
  cases n with
  | zero => exact Or.inl (Option.some.inj hn)
  | succ n => exact Or.inr (mem_climb hn hle)

end Ancestry

end Classlet
