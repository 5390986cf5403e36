import Classlet.Proofs.Descent

/-!
Subtyping is reflexive and transitive over every ancestry, cyclic or not. Both laws
are proved in the two directions at once, since the parameters of a signature turn the
direction around. Lists are only compared as far as both go, so the list in the middle
of two comparisons must reach as far as one of the outer lists; the lengths that are
required of signatures and of classes see to that.
-/

namespace Classlet

namespace Ancestry

variable {h : Ancestry} {c d e : String}

theorem descends_refl (h : Ancestry) (c : String) : h.descends c c := by
  simp [descends]

theorem descends_trans (hcd : h.descends c d) (hde : h.descends d e) : h.descends c e := by
  rw [descends_iff_below] at hcd hde ⊢
  exact hcd.trans hde

end Ancestry

namespace Ty

variable {h : Ancestry}

mutual

theorem compare_refl (h : Ancestry) (v : Variance) : ∀ a : Ty, a.compare h v a
  | .int | .bool | .null => rfl
  | .ref c => by cases v <;> exact h.descends_refl c
  | .arrow s => compareSignature_refl h v s
  | .method s => compareSignature_refl h v s
  | .cls fs ms => by
    simp only [compare, Bool.and_eq_true]
    refine ⟨⟨⟨?_, ?_⟩, compareList_refl h v fs⟩, compareSignatures_refl h v ms⟩
    · cases v <;> simp [Variance.along]
    · cases v <;> simp [Variance.along]

theorem compareSignature_refl (h : Ancestry) (v : Variance) :
    ∀ s : Signature Ty, compareSignature h v s s
  | ⟨ps, r⟩ => by
    simp only [compareSignature, Bool.and_eq_true, beq_self_eq_true, true_and]
    exact ⟨compare_refl h v r, compareList_refl h v.flip ps⟩

theorem compareList_refl (h : Ancestry) (v : Variance) : ∀ as : List Ty, compareList h v as as
  | [] => rfl
  | a :: as => by
    simp only [compareList, Bool.and_eq_true]
    exact ⟨compare_refl h v a, compareList_refl h v as⟩

theorem compareSignatures_refl (h : Ancestry) (v : Variance) :
    ∀ ss : List (Signature Ty), compareSignatures h v ss ss
  | [] => rfl
  | s :: ss => by
    simp only [compareSignatures, Bool.and_eq_true]
    exact ⟨compareSignature_refl h v s, compareSignatures_refl h v ss⟩

end

theorem along_descends_trans {v : Variance} {c d e : String} (hcd : v.along h.descends c d)
    (hde : v.along h.descends d e) : v.along h.descends c e := by
  cases v with
  | co => exact Ancestry.descends_trans hcd hde
  | contra => exact Ancestry.descends_trans hde hcd

/-- The lengths of the members of three classes, each compared with the next. -/
theorem along_le_trans {v : Variance} {l m n : Nat}
    (hlm : v.along (fun i j => decide (j ≤ i)) l m)
    (hmn : v.along (fun i j => decide (j ≤ i)) m n) :
    v.along (fun i j => decide (j ≤ i)) l n ∧ min l n ≤ m := by
  cases v <;> simp only [Variance.along, decide_eq_true_eq] at * <;> omega

mutual

theorem compare_trans : ∀ (a : Ty) {v : Variance} {b c : Ty},
    a.compare h v b → b.compare h v c → a.compare h v c
  | .int, v, b, c, hab, hbc => by
    cases b <;> simp [compare] at hab <;> cases c <;> simp_all [compare]
  | .bool, v, b, c, hab, hbc => by
    cases b <;> simp [compare] at hab <;> cases c <;> simp_all [compare]
  | .null, v, b, c, hab, hbc => by
    cases b <;> simp [compare] at hab <;> cases c <;> simp_all [compare]
  | .ref c, v, b, e, hab, hbc => by
    cases b with
    | ref d =>
      cases e with
      | ref e => exact along_descends_trans hab hbc
      | null => exact hbc
      | int | bool | arrow | method | cls => simp [compare] at hbc
    | null => cases e <;> simp_all [compare]
    | int | bool | arrow | method | cls => simp [compare] at hab
  | .arrow s, v, b, c, hab, hbc => by
    cases b <;> simp only [compare, Bool.false_eq_true] at hab
    cases c <;> simp only [compare, Bool.false_eq_true] at hbc
    exact compareSignature_trans s hab hbc
  | .method s, v, b, c, hab, hbc => by
    cases b <;> simp only [compare, Bool.false_eq_true] at hab
    cases c <;> simp only [compare, Bool.false_eq_true] at hbc
    exact compareSignature_trans s hab hbc
  | .cls fs ms, v, b, c, hab, hbc => by
    cases b <;> simp only [compare, Bool.false_eq_true, Bool.and_eq_true] at hab
    cases c <;> simp only [compare, Bool.false_eq_true, Bool.and_eq_true] at hbc
    obtain ⟨⟨⟨hf, hm⟩, hfs⟩, hms⟩ := hab
    obtain ⟨⟨⟨hf', hm'⟩, hfs'⟩, hms'⟩ := hbc
    obtain ⟨hfl, hfmin⟩ := along_le_trans hf hf'
    obtain ⟨hml, hmmin⟩ := along_le_trans hm hm'
    simp only [compare, Bool.and_eq_true]
    exact ⟨⟨⟨hfl, hml⟩, compareList_trans fs hfs hfs' hfmin⟩,
      compareSignatures_trans ms hms hms' hmmin⟩

theorem compareSignature_trans : ∀ (s : Signature Ty) {v : Variance} {s' s'' : Signature Ty},
    compareSignature h v s s' → compareSignature h v s' s'' → compareSignature h v s s''
  | ⟨ps, r⟩, v, ⟨qs, t⟩, ⟨us, w⟩, hab, hbc => by
    simp only [compareSignature, Bool.and_eq_true, beq_iff_eq] at hab hbc ⊢
    obtain ⟨⟨hlen, hret⟩, hparams⟩ := hab
    obtain ⟨⟨hlen', hret'⟩, hparams'⟩ := hbc
    exact ⟨⟨hlen.trans hlen', compare_trans r hret hret'⟩,
      compareList_trans ps hparams hparams' (by omega)⟩

theorem compareList_trans : ∀ (as : List Ty) {v : Variance} {bs cs : List Ty},
    compareList h v as bs → compareList h v bs cs → min as.length cs.length ≤ bs.length →
    compareList h v as cs
  | [], _, _, _, _, _, _ => rfl
  | _ :: _, _, _, [], _, _, _ => rfl
  | a :: as, v, bs, c :: cs, hab, hbc, hlen => by
    cases bs with
    | nil => simp at hlen
    | cons b bs =>
      simp only [compareList, Bool.and_eq_true] at hab hbc ⊢
      refine ⟨compare_trans a hab.1 hbc.1, compareList_trans as hab.2 hbc.2 ?_⟩
      simp only [List.length_cons] at hlen
      omega

theorem compareSignatures_trans : ∀ (ss : List (Signature Ty)) {v : Variance}
    {ss' ss'' : List (Signature Ty)}, compareSignatures h v ss ss' →
    compareSignatures h v ss' ss'' → min ss.length ss''.length ≤ ss'.length →
    compareSignatures h v ss ss''
  | [], _, _, _, _, _, _ => rfl
  | _ :: _, _, _, [], _, _, _ => rfl
  | s :: ss, v, ss', s'' :: ss'', hab, hbc, hlen => by
    cases ss' with
    | nil => simp at hlen
    | cons s' ss' =>
      simp only [compareSignatures, Bool.and_eq_true] at hab hbc ⊢
      refine ⟨compareSignature_trans s hab.1 hbc.1, compareSignatures_trans ss hab.2 hbc.2 ?_⟩
      simp only [List.length_cons] at hlen
      omega

end

theorem subtypeOf_refl (h : Ancestry) (a : Ty) : a.subtypeOf h a := compare_refl h .co a

theorem subtypeOf_trans {a b c : Ty} (hab : a.subtypeOf h b) (hbc : b.subtypeOf h c) :
    a.subtypeOf h c := compare_trans a hab hbc

end Ty

namespace Signature

variable {h : Ancestry}

theorem subtypeOf_refl (h : Ancestry) (s : Signature Ty) : s.subtypeOf h s :=
  Ty.compareSignature_refl h .co s

theorem subtypeOf_trans {s s' s'' : Signature Ty} (hs : s.subtypeOf h s')
    (hs' : s'.subtypeOf h s'') : s.subtypeOf h s'' := Ty.compareSignature_trans s hs hs'

end Signature

end Classlet
