import Classlet.Proofs.Evaluation
import Classlet.Typing.Operator
import Classlet.Ty.Join
import Mathlib.Logic.Relation

/-!
The values of a type. A truth value is the word 0 or 1, and a reference to a
class is null or an object of a class below it. There are no values of function
types, of method types or of class types. A subtype has no other values than the
type above it, a conditional has the values of both branches, and an operator
that is given a type gives every two values of its operand types a value of that
type, unless it divides.
-/

namespace Classlet

namespace Ancestry

/-- A class is below another one if superclasses lead from it to the other. -/
def Below (h : Ancestry) : String → String → Prop :=
  Relation.ReflTransGen fun c s => h.parent? c = some s

theorem below_of_mem_climb {h : Ancestry} {n : Nat} {c d : String} (hd : d ∈ h.climb n c) :
    h.Below c d := by
  induction n generalizing c with
  | zero => cases hd
  | succ n ih =>
    unfold climb at hd
    cases hp : h.parent? c with
    | none => simp [hp] at hd
    | some s =>
      simp only [hp, List.mem_cons] at hd
      rcases hd with rfl | hd
      · exact Relation.ReflTransGen.single hp
      · exact Relation.ReflTransGen.head hp (ih hd)

theorem below_of_descends {h : Ancestry} {c d : String} (hd : h.descends c d) : h.Below c d := by
  simp only [descends, Bool.or_eq_true, beq_iff_eq, List.contains_iff_mem] at hd
  rcases hd with rfl | hd
  · exact Relation.ReflTransGen.refl
  · exact below_of_mem_climb hd

end Ancestry

/-- A value is one of a type, given the objects there are. -/
def Value.OfType (h : Ancestry) (objects : List Object) : Value → Ty → Prop
  | .word _, .int => True
  | .word w, .bool => w = 0 ∨ w = 1
  | .word w, .null | .word w, .ref _ => w = -1
  | .object i, .ref cls => ∃ o, objects[i]? = some o ∧ h.Below o.cls cls
  | _, _ => False

/-- Every value of the first type is one of the second. -/
def Ty.Embeds (h : Ancestry) (a b : Ty) : Prop :=
  ∀ objects v, Value.OfType h objects v a → Value.OfType h objects v b

/-- Related lists are related place by place. -/
theorem forall₂_getElem? {α β : Type} {R : α → β → Prop} {l : List α} {l' : List β}
    (h : List.Forall₂ R l l') {i : Nat} {a : α} (ha : l[i]? = some a) :
    ∃ b, l'[i]? = some b ∧ R a b := by
  induction h generalizing i with
  | nil => simp at ha
  | @cons x y l l' hr _ ih =>
    cases i with
    | zero =>
      obtain rfl : x = a := by simpa using ha
      exact ⟨y, rfl, hr⟩
    | succ i => exact ih (by simpa using ha)

theorem getElem?_of_prefix {α : Type} {l l' : List α} (hp : l <+: l') {i : Nat} {a : α}
    (ha : l[i]? = some a) : l'[i]? = some a := by
  obtain ⟨rest, rfl⟩ := hp
  obtain ⟨hi, rfl⟩ := List.getElem?_eq_some_iff.mp ha
  rw [List.getElem?_append_left hi, List.getElem?_eq_getElem hi]

namespace Value

variable {h : Ancestry} {objects objects' : List Object} {v : Value}

/-- A value stays one of its type when more objects are made. -/
theorem OfType.mono {t : Ty} (hv : v.OfType h objects t) (hp : objects <+: objects') :
    v.OfType h objects' t := by
  cases v with
  | word w => cases t <;> exact hv
  | object i =>
    cases t with
    | ref cls =>
      obtain ⟨o, ho, hb⟩ := hv
      exact ⟨o, getElem?_of_prefix hp ho, hb⟩
    | int | bool | null | arrow | method | cls => exact hv

theorem ofType_int (hv : v.OfType h objects .int) : ∃ w, v = .word w := by
  cases v with
  | word w => exact ⟨w, rfl⟩
  | object i => exact hv.elim

theorem ofType_bool (hv : v.OfType h objects .bool) : ∃ b, v = .ofBool b := by
  cases v with
  | word w =>
    rcases hv with rfl | rfl
    · exact ⟨false, rfl⟩
    · exact ⟨true, rfl⟩
  | object i => exact hv.elim

theorem ofBool_ofType (h : Ancestry) (objects : List Object) (b : Bool) :
    (Value.ofBool b).OfType h objects .bool := by
  cases b
  · exact Or.inl rfl
  · exact Or.inr rfl

theorem bool?_ofBool (b : Bool) : (Value.ofBool b).bool? = some b := by
  cases b <;> decide

theorem ofType_literal (l : Literal) : l.value.OfType h objects l.type := by
  cases l with
  | int w => trivial
  | bool b => exact ofBool_ofType h objects b
  | null => exact rfl

/-- Two values of a type can be compared. -/
theorem same?_isSome {w : Value} {t : Ty} (hv : v.OfType h objects t)
    (hw : w.OfType h objects t) : ∃ b, v.same? w = some b := by
  cases v with
  | word a =>
    cases w with
    | word b => exact ⟨_, rfl⟩
    | object j =>
      cases t with
      | ref cls =>
        have ha : a = -1 := hv
        exact ⟨false, by simp [same?, ha]⟩
      | int | bool | null | arrow | method | cls => exact hw.elim
  | object i =>
    cases w with
    | word b =>
      cases t with
      | ref cls =>
        have hb : b = -1 := hw
        exact ⟨false, by simp [same?, hb]⟩
      | int | bool | null | arrow | method | cls => exact hv.elim
    | object j => exact ⟨_, rfl⟩

end Value

namespace Ty

variable {h : Ancestry}

theorem Embeds.refl (h : Ancestry) (a : Ty) : a.Embeds h a := fun _ _ hv => hv

theorem Embeds.trans {a b c : Ty} (hab : a.Embeds h b) (hbc : b.Embeds h c) : a.Embeds h c :=
  fun objects v hv => hbc objects v (hab objects v hv)

theorem embeds_ref {c d : String} (hb : h.Below c d) : (Ty.ref c).Embeds h (.ref d) := by
  intro objects v hv
  cases v with
  | word w => exact hv
  | object i =>
    obtain ⟨o, ho, hc⟩ := hv
    exact ⟨o, ho, Relation.ReflTransGen.trans hc hb⟩

/-- A comparison that passes says that the lower type has no other values than
the upper one. Types without values are below every type. -/
theorem embeds_of_compare {a b : Ty} :
    (a.compare h .co b → a.Embeds h b) ∧ (a.compare h .contra b → b.Embeds h a) := by
  have empty : ∀ s t : Ty, (∀ objects v, ¬ Value.OfType h objects v s) → s.Embeds h t :=
    fun s t hs objects v hv => (hs objects v hv).elim
  have harrow : ∀ s objects v, ¬ Value.OfType h objects v (.arrow s) := by
    intro s objects v hv
    cases v <;> exact hv
  have hmethod : ∀ s objects v, ¬ Value.OfType h objects v (.method s) := by
    intro s objects v hv
    cases v <;> exact hv
  have hcls : ∀ fs ms objects v, ¬ Value.OfType h objects v (.cls fs ms) := by
    intro fs ms objects v hv
    cases v <;> exact hv
  have hboolInt : Ty.bool.Embeds h .int := by
    intro objects v hv
    obtain ⟨b, rfl⟩ := Value.ofType_bool hv
    trivial
  have hnullRef : ∀ c, Ty.null.Embeds h (.ref c) := by
    intro c objects v hv
    cases v with
    | word w => exact hv
    | object i => exact hv.elim
  constructor
  · intro hc
    cases a with
    | int => cases b <;> first | exact .refl h _ | simp [compare] at hc
    | bool => cases b <;> first | exact .refl h _ | exact hboolInt | simp [compare] at hc
    | null => cases b <;> first | exact .refl h _ | exact hnullRef _ | simp [compare] at hc
    | ref c =>
      cases b with
      | ref d => exact embeds_ref (Ancestry.below_of_descends hc)
      | int | bool | null | arrow | method | cls => simp [compare] at hc
    | arrow s => exact empty _ _ (harrow s)
    | method s => exact empty _ _ (hmethod s)
    | cls fs ms => exact empty _ _ (hcls fs ms)
  · intro hc
    cases b with
    | int => cases a <;> first | exact .refl h _ | simp [compare] at hc
    | bool => cases a <;> first | exact .refl h _ | exact hboolInt | simp [compare] at hc
    | null => cases a <;> first | exact .refl h _ | exact hnullRef _ | simp [compare] at hc
    | ref d =>
      cases a with
      | ref c => exact embeds_ref (Ancestry.below_of_descends hc)
      | int | bool | null | arrow | method | cls => simp [compare] at hc
    | arrow s => exact empty _ _ (harrow s)
    | method s => exact empty _ _ (hmethod s)
    | cls fs ms => exact empty _ _ (hcls fs ms)

theorem embeds_of_subtypeOf {a b : Ty} (hs : a.subtypeOf h b) : a.Embeds h b :=
  embeds_of_compare.1 hs

/-- The type of a conditional has the values of both branches. -/
theorem embeds_of_join? {a b t : Ty} (hj : a.join? h b = some t) :
    a.Embeds h t ∧ b.Embeds h t := by
  unfold join? at hj
  by_cases hab : a.subtypeOf h b
  · simp only [hab, if_true, Option.some.injEq] at hj
    subst hj
    exact ⟨embeds_of_subtypeOf hab, .refl h _⟩
  · by_cases hba : b.subtypeOf h a
    · simp only [hab, hba, if_true, if_false, Bool.false_eq_true, Option.some.injEq] at hj
      subst hj
      exact ⟨.refl h _, embeds_of_subtypeOf hba⟩
    · simp only [hab, hba, if_false, Bool.false_eq_true] at hj
      cases a with
      | ref c =>
        have hb := List.find?_some hj
        obtain ⟨d, hd, rfl⟩ := List.mem_map.mp (List.mem_of_find?_eq_some hj)
        exact ⟨embeds_ref (Ancestry.below_of_mem_climb hd), embeds_of_subtypeOf hb⟩
      | int | bool | null | arrow | method | cls => simp at hj

end Ty

/-- The outcome of an operation or an evaluation that has a meaning. -/
def Eval.Safe {α : Type} (r : Except Abort α) (Q : α → Prop) : Prop :=
  match r with
  | .ok a => Q a
  | .error .stuck => False
  | .error _ => True

/-- An operator that is given a type has values of that type. -/
theorem BinOp.apply_safe {h : Ancestry} {op : BinOp} {l r t : Ty}
    (ht : op.resultType h l r = .ok t) {objects : List Object} {v w : Value}
    (hv : v.OfType h objects l) (hw : w.OfType h objects r) :
    Eval.Safe (op.apply v w) fun u => u.OfType h objects t := by
  -- All operators but equality take two operands of one type.
  have operands : ∀ operand result, op.signature? = some (operand, result) →
      v.OfType h objects operand ∧ w.OfType h objects operand ∧ t = result := by
    intro operand result hs
    unfold resultType at ht
    simp only [hs] at ht
    split at ht
    · rename_i hsub
      simp only [Bool.and_eq_true] at hsub
      cases ht
      exact ⟨Ty.embeds_of_subtypeOf hsub.1 _ _ hv, Ty.embeds_of_subtypeOf hsub.2 _ _ hw, rfl⟩
    · cases ht
  cases op with
  | equal =>
    simp only [resultType, signature?] at ht
    split at ht
    · cases ht
    · split at ht
      · rename_i hsub
        cases ht
        have hsame : ∃ b, v.same? w = some b := by
          simp only [Bool.or_eq_true] at hsub
          rcases hsub with hsub | hsub
          · exact Value.same?_isSome (Ty.embeds_of_subtypeOf hsub _ _ hv) hw
          · exact Value.same?_isSome hv (Ty.embeds_of_subtypeOf hsub _ _ hw)
        obtain ⟨b, hb⟩ := hsame
        simp only [apply, hb]
        exact Value.ofBool_ofType h objects b
      · cases ht
  | lessEqual | greaterEqual =>
    obtain ⟨hv, hw, rfl⟩ := operands .int .bool rfl
    obtain ⟨a, rfl⟩ := Value.ofType_int hv
    obtain ⟨b, rfl⟩ := Value.ofType_int hw
    exact Value.ofBool_ofType h objects _
  | and | or =>
    obtain ⟨hv, hw, rfl⟩ := operands .bool .bool rfl
    obtain ⟨a, rfl⟩ := Value.ofType_bool hv
    obtain ⟨b, rfl⟩ := Value.ofType_bool hw
    simp only [apply, Value.bool?_ofBool]
    exact Value.ofBool_ofType h objects _
  | add | sub | mul =>
    obtain ⟨hv, hw, rfl⟩ := operands .int .int rfl
    obtain ⟨a, rfl⟩ := Value.ofType_int hv
    obtain ⟨b, rfl⟩ := Value.ofType_int hw
    trivial
  | div =>
    obtain ⟨hv, hw, rfl⟩ := operands .int .int rfl
    obtain ⟨a, rfl⟩ := Value.ofType_int hv
    obtain ⟨b, rfl⟩ := Value.ofType_int hw
    simp only [apply, Value.word?]
    cases Word.quotient? a b <;> trivial

end Classlet
