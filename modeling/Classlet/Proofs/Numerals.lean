import Classlet.Code.Label

/-!
Numerals and labels read back as what was written, and their texts are single
words: they have no blanks and no line breaks.
-/

namespace Classlet

namespace Numeral

theorem ofNat_isDigit {n : Nat} {c : Char} (h : c ∈ ofNat n) : c.isDigit :=
  Nat.isDigit_of_mem_toDigits (by omega) (by omega) h

theorem ofNat_ne_nil (n : Nat) : ofNat n ≠ [] := Nat.toDigits_ne_nil

theorem readNat?_ofNat (n : Nat) : readNat? (ofNat n) = some n := by
  have hall : (ofNat n).all Char.isDigit = true :=
    List.all_eq_true.mpr fun c hc => ofNat_isDigit hc
  have hempty : (ofNat n).isEmpty = false := by simpa using ofNat_ne_nil n
  simp only [readNat?, hempty, hall, Bool.not_false, Bool.and_self, if_true, Option.some.injEq]
  exact Nat.ofDigitChars_ten_toDigits

theorem ofNat_injective {m n : Nat} (h : ofNat m = ofNat n) : m = n := by
  have hm := readNat?_ofNat m
  rw [h, readNat?_ofNat] at hm
  exact (Option.some.inj hm).symm

/-- A numeral of a natural number has no sign. -/
theorem readInt?_ofNat (n : Nat) : readInt? (ofNat n) = some (n : Int) := by
  have hdigit : ∀ c ∈ ofNat n, c.isDigit := fun c hc => ofNat_isDigit hc
  have hread := readNat?_ofNat n
  revert hdigit hread
  generalize ofNat n = cs
  intro hdigit hread
  unfold readInt?
  split
  · exact absurd (hdigit '+' (by simp)) (by decide)
  · exact absurd (hdigit '-' (by simp)) (by decide)
  · simp [hread]

theorem readInt?_ofInt (n : Int) : readInt? (ofInt n) = some n := by
  cases n with
  | ofNat n => exact readInt?_ofNat n
  | negSucc n =>
    simp only [ofInt, readInt?, readNat?_ofNat]
    exact congrArg some (Int.negSucc_eq n).symm

theorem ofInt?_toInt (w : Word) : Word.ofInt? w.toInt = some w := by
  have hlo := Int64.le_toInt w
  have hhi := Int64.toInt_lt w
  have hmax : Int64.maxValue.toInt = 2 ^ 63 - 1 := by decide
  unfold Word.ofInt?
  rw [if_pos ⟨by rw [Int64.toInt_minValue]; exact hlo, by omega⟩, Int64.ofInt_toInt]

/-- A word is read back from its text. -/
theorem read?_text (w : Word) : read? (text w).toList = some w := by
  unfold read? text
  rw [String.toList_ofList, readInt?_ofInt]
  exact ofInt?_toInt w

/-- The characters of a numeral. -/
theorem mem_text {w : Word} {c : Char} (h : c ∈ (text w).toList) : c = '-' ∨ c.isDigit := by
  unfold text at h
  rw [String.toList_ofList] at h
  cases hw : w.toInt with
  | ofNat n =>
    rw [hw] at h
    exact Or.inr (ofNat_isDigit h)
  | negSucc n =>
    rw [hw] at h
    rcases List.mem_cons.mp h with rfl | h
    · exact Or.inl rfl
    · exact Or.inr (ofNat_isDigit h)

theorem text_ne_nil (w : Word) : (text w).toList ≠ [] := by
  unfold text
  rw [String.toList_ofList]
  cases w.toInt with
  | ofNat n => exact ofNat_ne_nil n
  | negSucc n => simp [ofInt]

end Numeral

namespace Label

theorem toList_text (l : Label) : l.text.toList = match l with
    | .branch n => 'l' :: 'a' :: 'b' :: 'e' :: 'l' :: Numeral.ofNat n
    | .function n => 'f' :: 'u' :: 'n' :: 'c' :: 't' :: 'i' :: 'o' :: 'n' :: Numeral.ofNat n := by
  cases l <;> simp [text, String.toList_append, String.toList_ofList]

/-- Different labels have different texts. -/
theorem text_injective {l l' : Label} (h : l.text = l'.text) : l = l' := by
  have hlist := congrArg String.toList h
  rw [toList_text, toList_text] at hlist
  cases l with
  | branch n =>
    cases l' with
    | branch n' =>
      simp only [List.cons.injEq, true_and] at hlist
      rw [Numeral.ofNat_injective hlist]
    | function n' => simp at hlist
  | function n =>
    cases l' with
    | branch n' => simp at hlist
    | function n' =>
      simp only [List.cons.injEq, true_and] at hlist
      rw [Numeral.ofNat_injective hlist]

/-- The characters of a label. -/
theorem mem_text {l : Label} {c : Char} (h : c ∈ l.text.toList) :
    c ∈ ['l', 'a', 'b', 'e', 'f', 'u', 'n', 'c', 't', 'i', 'o'] ∨ c.isDigit := by
  rw [toList_text] at h
  cases l with
  | branch n =>
    simp only [List.mem_cons] at h ⊢
    rcases h with h | h | h | h | h | h
    all_goals first | exact Or.inr (Numeral.ofNat_isDigit h) | simp [h]
  | function n =>
    simp only [List.mem_cons] at h ⊢
    rcases h with h | h | h | h | h | h | h | h | h
    all_goals first | exact Or.inr (Numeral.ofNat_isDigit h) | simp [h]

theorem text_ne_nil (l : Label) : l.text.toList ≠ [] := by
  rw [toList_text]
  cases l <;> simp

/-- The text of a label is no numeral, because of its first letter. -/
theorem read?_text (l : Label) : Numeral.read? l.text.toList = none := by
  have hletter : ∀ (c : Char) (cs : List Char), c.isDigit = false → c ≠ '+' → c ≠ '-' →
      Numeral.read? (c :: cs) = none := by
    intro c cs hc hplus hminus
    have hread : Numeral.readNat? (c :: cs) = none := by
      simp [Numeral.readNat?, hc]
    unfold Numeral.read? Numeral.readInt?
    split
    · rename_i heq
      exact absurd (List.cons.inj heq).1 hplus
    · rename_i heq
      exact absurd (List.cons.inj heq).1 hminus
    · simp [hread]
  rw [toList_text]
  cases l with
  | branch n => exact hletter _ _ (by decide) (by decide) (by decide)
  | function n => exact hletter _ _ (by decide) (by decide) (by decide)

end Label

end Classlet
