import Classlet.Proofs.Hierarchy

/-!
Subtyping orders the types. Over every ancestry it is reflexive and transitive; where no
class is above itself it is antisymmetric as well, so that no two different types are
subtypes of each other. A comparison read from the other side is the comparison in the
other direction, hence two types that are subtypes of each other are compared in both
directions at once, and one induction over the first type meets the parameters of a
signature in both directions too.
-/

namespace Classlet

namespace Ancestry

variable {h : Ancestry} {c d : String}

theorem Acyclic.descends_antisymm (ha : h.Acyclic) (hcd : h.descends c d)
    (hdc : h.descends d c) : c = d := by
  rw [descends_iff_below] at hcd hdc
  rcases Relation.reflTransGen_iff_eq_or_transGen.mp hcd with heq | hup
  · exact heq.symm
  · exact absurd (hup.trans_left hdc) (ha c)

end Ancestry

namespace Ty

variable {h : Ancestry} {a b : Ty}

/-! Reading a comparison from the other side turns its direction around. -/

theorem along_flip {α : Type} (v : Variance) (r : α → α → Bool) (x y : α) :
    v.flip.along r y x = v.along r x y := by
  cases v <;> rfl

mutual

theorem compare_flip (h : Ancestry) (v : Variance) :
    ∀ a b : Ty, a.compare h v b = b.compare h v.flip a
  | .int, b | .bool, b | .null, b => by cases b <;> cases v <;> rfl
  | .ref c, b => by cases b <;> cases v <;> rfl
  | .arrow s, b => by
    cases b <;> first | rfl | exact compareSignature_flip h v s _
  | .method s, b => by
    cases b <;> first | rfl | exact compareSignature_flip h v s _
  | .cls fs ms, b => by
    cases b with
    | cls gs ns =>
      simp only [compare, along_flip, compareList_flip h v fs gs, compareSignatures_flip h v ms ns]
    | int | bool | null | ref | arrow | method => rfl

theorem compareSignature_flip (h : Ancestry) (v : Variance) :
    ∀ s t : Signature Ty, compareSignature h v s t = compareSignature h v.flip t s
  | ⟨ps, r⟩, ⟨qs, u⟩ => by
    simp only [compareSignature, compare_flip h v r u, compareList_flip h v.flip ps qs,
      Bool.beq_comm (a := ps.length)]

theorem compareList_flip (h : Ancestry) (v : Variance) :
    ∀ as bs : List Ty, compareList h v as bs = compareList h v.flip bs as
  | [], bs => by cases bs <;> rfl
  | _ :: _, [] => rfl
  | a :: as, b :: bs => by
    simp only [compareList, compare_flip h v a b, compareList_flip h v as bs]

theorem compareSignatures_flip (h : Ancestry) (v : Variance) :
    ∀ ss ts : List (Signature Ty), compareSignatures h v ss ts = compareSignatures h v.flip ts ss
  | [], ts => by cases ts <;> rfl
  | _ :: _, [] => rfl
  | s :: ss, t :: ts => by
    simp only [compareSignatures, compareSignature_flip h v s t, compareSignatures_flip h v ss ts]

end

theorem subtypeOf_iff_contra : b.subtypeOf h a ↔ a.compare h .contra b := by
  rw [subtypeOf, compare_flip h .co b a]
  rfl

/-! Without cycles no two types are subtypes of each other. -/

mutual

theorem compare_antisymm (ha : h.Acyclic) : ∀ (a : Ty) {b : Ty},
    a.compare h .co b → a.compare h .contra b → a = b
  | .int, b, hab, hba | .bool, b, hab, hba | .null, b, hab, hba => by
    cases b <;> simp [compare] at hab hba ⊢
  | .ref c, b, hab, hba => by
    cases b with
    | ref d => exact congrArg Ty.ref (ha.descends_antisymm hab hba)
    | int | bool | null | arrow | method | cls => simp [compare] at hab
  | .arrow s, b, hab, hba => by
    cases b with
    | arrow t => exact congrArg Ty.arrow (compareSignature_antisymm ha s hab hba)
    | int | bool | null | ref | method | cls => simp [compare] at hab
  | .method s, b, hab, hba => by
    cases b with
    | method t => exact congrArg Ty.method (compareSignature_antisymm ha s hab hba)
    | int | bool | null | ref | arrow | cls => simp [compare] at hab
  | .cls fs ms, b, hab, hba => by
    cases b with
    | cls gs ns =>
      simp only [compare, Variance.along, Bool.and_eq_true, decide_eq_true_eq] at hab hba
      obtain ⟨⟨⟨hf, hm⟩, hfs⟩, hms⟩ := hab
      obtain ⟨⟨⟨hf', hm'⟩, hfs'⟩, hms'⟩ := hba
      rw [compareList_antisymm ha fs (by omega) hfs hfs',
        compareSignatures_antisymm ha ms (by omega) hms hms']
    | int | bool | null | ref | arrow | method => simp [compare] at hab

theorem compareSignature_antisymm (ha : h.Acyclic) : ∀ (s : Signature Ty) {t : Signature Ty},
    compareSignature h .co s t → compareSignature h .contra s t → s = t
  | ⟨ps, r⟩, ⟨qs, u⟩, hst, hts => by
    simp only [compareSignature, Variance.flip, Bool.and_eq_true, beq_iff_eq] at hst hts
    rw [compare_antisymm ha r hst.1.2 hts.1.2,
      compareList_antisymm ha ps hst.1.1 hts.2 hst.2]

theorem compareList_antisymm (ha : h.Acyclic) : ∀ (as : List Ty) {bs : List Ty},
    as.length = bs.length → compareList h .co as bs → compareList h .contra as bs → as = bs
  | [], bs, hlen, _, _ => (List.length_eq_zero_iff.mp hlen.symm).symm
  | a :: as, bs, hlen, hab, hba => by
    cases bs with
    | nil => simp at hlen
    | cons b bs =>
      simp only [compareList, Bool.and_eq_true] at hab hba
      rw [compare_antisymm ha a hab.1 hba.1,
        compareList_antisymm ha as (Nat.succ.inj hlen) hab.2 hba.2]

theorem compareSignatures_antisymm (ha : h.Acyclic) : ∀ (ss : List (Signature Ty))
    {ts : List (Signature Ty)}, ss.length = ts.length → compareSignatures h .co ss ts →
    compareSignatures h .contra ss ts → ss = ts
  | [], ts, hlen, _, _ => (List.length_eq_zero_iff.mp hlen.symm).symm
  | s :: ss, ts, hlen, hst, hts => by
    cases ts with
    | nil => simp at hlen
    | cons t ts =>
      simp only [compareSignatures, Bool.and_eq_true] at hst hts
      rw [compareSignature_antisymm ha s hst.1 hts.1,
        compareSignatures_antisymm ha ss (Nat.succ.inj hlen) hst.2 hts.2]

end

theorem subtypeOf_antisymm (ha : h.Acyclic) (hab : a.subtypeOf h b) (hba : b.subtypeOf h a) :
    a = b :=
  compare_antisymm ha a hab (subtypeOf_iff_contra.mp hba)

/-- A signature is a subtype with parameters that vary against it and a result that varies
with it. -/
theorem compareSignature_iff {s t : Signature Ty} :
    compareSignature h .co s t ↔ s.ret.subtypeOf h t.ret ∧
      List.Forall₂ (fun p q => q.subtypeOf h p) s.params t.params := by
  rcases s with ⟨ps, r⟩
  rcases t with ⟨qs, u⟩
  have hlist : compareList h .contra ps qs ↔
      ∀ p q, (p, q) ∈ ps.zip qs → q.subtypeOf h p := by
    simp only [compareList_eq_all, List.all_eq_true, Prod.forall, subtypeOf_iff_contra]
  simp only [compareSignature, Variance.flip, Bool.and_eq_true, beq_iff_eq, hlist,
    List.forall₂_iff_zip, subtypeOf]
  tauto

/-- Subtyping is a preorder over every ancestry, and a partial order over one without
cycles. On references it is the way upwards, and it turns around at parameters. -/
theorem subtypeOf_orders (h : Ancestry) :
    (∀ a : Ty, a.subtypeOf h a) ∧
    (∀ a b c : Ty, a.subtypeOf h b → b.subtypeOf h c → a.subtypeOf h c) ∧
    (h.Acyclic → ∀ a b : Ty, a.subtypeOf h b → b.subtypeOf h a → a = b) ∧
    (∀ c d : String, (Ty.ref c).subtypeOf h (.ref d) ↔ h.Below c d) ∧
    (∀ s t : Signature Ty, (Ty.arrow s).subtypeOf h (.arrow t) ↔
      s.ret.subtypeOf h t.ret ∧ List.Forall₂ (fun p q => q.subtypeOf h p) s.params t.params) :=
  ⟨subtypeOf_refl h, fun _ _ _ => subtypeOf_trans, fun ha _ _ => subtypeOf_antisymm ha,
    fun _ _ => Ancestry.descends_iff_below, fun _ _ => compareSignature_iff⟩

end Ty

/-- Two classes that are each above the other, with a class below either. -/
def cyclicAncestry : Ancestry :=
  ((({} : Ancestry).setParent "A" "B").setParent "B" "A").setParent "C" "A" |>.setParent "D" "B"

-- The classes of a cycle are subtypes of each other, and so are signatures over them.
example : (Ty.ref "A").subtypeOf cyclicAncestry (.ref "B") ∧
    (Ty.ref "B").subtypeOf cyclicAncestry (.ref "A") ∧
    (Ty.arrow ⟨[.ref "A"], .int⟩).subtypeOf cyclicAncestry (.arrow ⟨[.ref "B"], .int⟩) ∧
    (Ty.arrow ⟨[.ref "B"], .int⟩).subtypeOf cyclicAncestry (.arrow ⟨[.ref "A"], .int⟩) := by
  decide +kernel

end Classlet
