import Classlet.Proofs.Acceptance
import Classlet.Proofs.TypingRules
import Classlet.Proofs.Values

/-!
Types without values. Functions, methods and classes are no values, and so there is no
value of the type of one. A name of such a type is not an expression and an operation has
none as its result, so only a call can have such a type, and what passes on the value of
a call: a conditional and a `print`. Every expression of a program has a type.
-/

namespace Classlet

namespace Ty

variable {h : Ancestry} {a b t : Ty}

/-- There is no value of the type. -/
def Void (t : Ty) : Prop := t.nameKind?.isSome

theorem not_void_of_ofType {objects : List Object} {v : Value} (hv : v.OfType h objects t) :
    ¬ t.Void := by
  intro ht
  cases t with
  | int | bool | null | ref => cases ht
  | arrow | method | cls => cases v <;> exact hv

theorem exists_ofType (ht : ¬ t.Void) : ∃ v, Value.OfType h [] v t := by
  cases t with
  | int => exact ⟨.word 0, trivial⟩
  | bool => exact ⟨.word 0, Or.inl rfl⟩
  | null => exact ⟨.word (-1), rfl⟩
  | ref c => exact ⟨.word (-1), rfl⟩
  | arrow | method | cls => exact absurd rfl ht

theorem Void.of_embeds (hb : b.Void) (he : a.Embeds h b) : a.Void := by
  by_contra ha
  obtain ⟨v, hv⟩ := exists_ofType (h := h) ha
  exact not_void_of_ofType (he [] v hv) hb

theorem void_of_subtypeOf (hs : a.subtypeOf h b) : a.Void ↔ b.Void := by
  unfold subtypeOf at hs
  cases a <;> cases b <;> first | exact Iff.rfl | simp [compare] at hs

/-- Either branch of a conditional has values if the conditional has. -/
theorem void_of_join? (hj : a.join? h b = some t) : (a.Void ↔ t.Void) ∧ (b.Void ↔ t.Void) := by
  unfold join? at hj
  by_cases hab : a.subtypeOf h b
  · simp only [hab, if_true, Option.some.injEq] at hj
    subst hj
    exact ⟨void_of_subtypeOf hab, Iff.rfl⟩
  · by_cases hba : b.subtypeOf h a
    · simp only [hab, hba, if_true, if_false, Bool.false_eq_true, Option.some.injEq] at hj
      subst hj
      exact ⟨Iff.rfl, void_of_subtypeOf hba⟩
    · simp only [hab, hba, if_false, Bool.false_eq_true] at hj
      cases a with
      | ref c =>
        have hb := List.find?_some hj
        obtain ⟨d, -, rfl⟩ := List.mem_map.mp (List.mem_of_find?_eq_some hj)
        exact ⟨Iff.rfl, void_of_subtypeOf hb⟩
      | int | bool | null | arrow | method | cls => simp at hj

end Ty

theorem BinOp.not_void {h : Ancestry} {op : BinOp} {l r t : Ty}
    (ht : op.resultType h l r = .ok t) : ¬ t.Void := by
  cases op with
  | equal =>
    obtain ⟨rfl, -⟩ := resultType_equal.mp ht
    simp [Ty.Void, Ty.nameKind?]
  | lessEqual | greaterEqual | and | or | add | sub | mul | div =>
    obtain ⟨rfl, -⟩ := (resultType_of_signature? rfl).mp ht
    simp [Ty.Void, Ty.nameKind?]

namespace TypingContext

variable {c : TypingContext}

theorem DeclsTyped.part :
    (∀ d : Decl, c.DeclTyped d → ∀ x ∈ d.parts, ∃ s, c.HasType x s) ∧
    ∀ ds : List Decl, c.DeclsTyped ds → ∀ x ∈ Decl.partsOfAll ds, ∃ s, c.HasType x s := by
  apply Decl.induction
  · intro id name type init pos ht
    obtain ⟨t, hinit, -⟩ := ht
    exact hinit.part
  · intro id name params ret decls body pos ih ht x hx
    obtain ⟨t, hbody, -⟩ := ht.2
    rcases List.mem_append.mp hx with hx | hx
    · exact ih ht.1 x hx
    · exact hbody.part x hx
  · intro _ x hx
    cases hx
  · intro d ds ihd ihs ht x hx
    rcases List.mem_append.mp hx with hx | hx
    · exact ihd ht.1 x hx
    · exact ihs ht.2 x hx

/-- Every expression of a program that obeys the typing rules has a type. -/
theorem ProgramTyped.part {p : Program} {t : Ty} (h : c.ProgramTyped p t) :
    ∀ x ∈ p.parts, ∃ s, c.HasType x s := by
  intro x hx
  rcases List.mem_append.mp hx with hx | hx
  · obtain ⟨d, hd, hx⟩ := List.mem_flatMap.mp hx
    obtain ⟨m, hm, hx⟩ := List.mem_flatMap.mp hx
    obtain ⟨hdecls, s, hbody, -⟩ := h.methods d hd m hm
    rcases List.mem_append.mp hx with hx | hx
    · exact DeclsTyped.part.2 _ hdecls x hx
    · exact hbody.part x hx
  · rcases List.mem_append.mp hx with hx | hx
    · exact DeclsTyped.part.2 _ h.decls x hx
    · exact h.body.part x hx

end TypingContext

end Classlet
