import Classlet.Word

/-!
Natural numbers as words. A number below the limit is the word that counts it, and no
two of them are the same word.
-/

namespace Classlet.Word

/-- The number of words that are not negative. Each is the address of one place, in
the memory or in the code. -/
def limit : Nat := 9223372036854775808

theorem ofNat_add_one (n : Nat) : Int64.ofNat n + 1 = Int64.ofNat (n + 1) := by
  rw [Int64.ofNat_add]
  rfl

theorem ofNat_sub_one {n : Nat} (h : 0 < n) : Int64.ofNat n - 1 = Int64.ofNat (n - 1) := by
  obtain ⟨k, rfl⟩ : ∃ k, n = k + 1 := ⟨n - 1, by omega⟩
  rw [← ofNat_add_one, Nat.add_sub_cancel, Int64.add_sub_cancel]

theorem add_right_comm (a b c : Word) : a + b + c = a + c + b := by
  rw [Int64.add_assoc, Int64.add_comm b c, ← Int64.add_assoc]

theorem index?_ofNat {n : Nat} (h : n < limit) : index? (Int64.ofNat n) = some n := by
  have hint := Int64.toInt_ofNat_of_lt h
  have hnonneg : (0 : Int64) ≤ Int64.ofNat n := by
    rw [Int64.le_iff_toInt_le, hint]
    exact Int.natCast_nonneg n
  rw [index?, if_pos hnonneg]
  simp only [Int64.toNatClampNeg, hint, Int.toNat_natCast]

theorem ofNat_le_ofNat {a b : Nat} (ha : a < limit) (hb : b < limit) :
    Int64.ofNat a ≤ Int64.ofNat b ↔ a ≤ b := by
  rw [Int64.le_iff_toInt_le, Int64.toInt_ofNat_of_lt ha, Int64.toInt_ofNat_of_lt hb]
  omega

/-- An address in memory is not null. -/
theorem ofNat_ne_neg_one {a : Nat} (h : a < limit) : Int64.ofNat a ≠ -1 := by
  intro heq
  have htoInt := congrArg Int64.toInt heq
  rw [Int64.toInt_ofNat_of_lt h] at htoInt
  have hneg : (-1 : Int64).toInt = -1 := by decide
  omega

theorem ofNat_inj {a b : Nat} (ha : a < limit) (hb : b < limit)
    (h : Int64.ofNat a = Int64.ofNat b) : a = b := by
  have htoInt := congrArg Int64.toInt h
  rw [Int64.toInt_ofNat_of_lt ha, Int64.toInt_ofNat_of_lt hb] at htoInt
  omega

theorem ofNat_toNatClampNeg {w : Word} (h : 0 ≤ w) : Int64.ofNat w.toNatClampNeg = w := by
  rw [Int64.le_iff_toInt_le] at h
  rw [← Int64.ofInt_eq_ofNat, Int64.toNatClampNeg, Int.toNat_of_nonneg h, Int64.ofInt_toInt]

theorem toNatClampNeg_lt (w : Word) : w.toNatClampNeg < limit := by
  have hlt := Int64.toInt_lt w
  simp only [Int64.toNatClampNeg, limit]
  omega

theorem toNatClampNeg_le {a b : Word} (h : a ≤ b) : a.toNatClampNeg ≤ b.toNatClampNeg := by
  rw [Int64.le_iff_toInt_le] at h
  simp only [Int64.toNatClampNeg]
  omega

theorem toInt_of_index? {w : Word} {i : Nat} (h : index? w = some i) : w.toInt = i := by
  unfold index? at h
  split at h
  · rename_i hnonneg
    rw [Int64.le_iff_toInt_le, Int64.toInt_zero] at hnonneg
    rw [← Option.some.inj h, Int64.toNatClampNeg]
    omega
  · cases h

/-- Counting up does not wrap around below the limit. -/
theorem toInt_add_one {w : Word} (h : w.toInt + 1 < limit) : (w + 1).toInt = w.toInt + 1 := by
  have hle := Int64.le_toInt w
  rw [limit] at h
  rw [Int64.toInt_add, Int64.toInt_one, Int.bmod_eq_of_le] <;> omega

theorem toInt_sub_one {w : Word} (h : 0 ≤ w.toInt) : (w - 1).toInt = w.toInt - 1 := by
  have hlt := Int64.toInt_lt w
  rw [Int64.toInt_sub, Int64.toInt_one, Int.bmod_eq_of_le] <;> omega

end Classlet.Word
