/-!
Names in nested frames. The innermost frame comes first, and in each frame the
name that was declared last. Looking a name up also gives the frames as they
were when the name was declared: its own frame up to that name, and the frames
around it. This is all that a function of that name can see.
-/

namespace Classlet

theorem lookup_cons_of_ne {α : Type} {x y : String} (h : x ≠ y) (a : α)
    (l : List (String × α)) : ((y, a) :: l).lookup x = l.lookup x := by
  rw [List.lookup_cons, beq_false_of_ne h]

/-- Names and what they stand for, in nested frames. -/
abbrev Nest (α : Type) := List (List (String × α))

namespace Nest

variable {α β : Type}

/-- The part of a frame that starts with a name. -/
def cut? (x : String) : List (String × α) → Option (α × List (String × α))
  | [] => none
  | (y, a) :: rest => if y = x then some (a, (y, a) :: rest) else cut? x rest

/-- What a name stands for, with the frames that were there when it was
declared. -/
def find? (x : String) : Nest α → Option (α × Nest α)
  | [] => none
  | frame :: outer =>
    match cut? x frame with
    | some (a, seen) => some (a, seen :: outer)
    | none => find? x outer

/-- Declares a name in the innermost frame. -/
def declare (x : String) (a : α) : Nest α → Nest α
  | [] => [[(x, a)]]
  | frame :: outer => ((x, a) :: frame) :: outer

/-- The number of frames around the innermost one. -/
def level (Γ : Nest α) : Nat := Γ.length - 1

theorem lookup_eq_cut? (x : String) (frame : List (String × α)) :
    frame.lookup x = (cut? x frame).map Prod.fst := by
  induction frame with
  | nil => rfl
  | cons p rest ih =>
    obtain ⟨y, a⟩ := p
    by_cases h : y = x
    · subst h
      simp [cut?]
    · rw [lookup_cons_of_ne (Ne.symm h), ih, cut?, if_neg h]

theorem mem_of_cut? {x : String} {frame seen : List (String × α)} {a : α}
    (h : cut? x frame = some (a, seen)) : (x, a) ∈ frame := by
  induction frame with
  | nil => simp [cut?] at h
  | cons p rest ih =>
    obtain ⟨y, b⟩ := p
    by_cases hy : y = x
    · subst hy
      simp only [cut?, if_true, Option.some.injEq, Prod.mk.injEq] at h
      simp [h.1]
    · simp only [cut?, hy, if_false] at h
      exact List.mem_cons_of_mem _ (ih h)

/-- What is found for a name is in one of the frames. -/
theorem mem_of_find? {x : String} {Γ seen : Nest α} {a : α} (h : Γ.find? x = some (a, seen)) :
    ∃ frame ∈ Γ, (x, a) ∈ frame := by
  induction Γ with
  | nil => simp [find?] at h
  | cons frame outer ih =>
    cases hc : cut? x frame with
    | none =>
      simp only [find?, hc] at h
      obtain ⟨f, hf, hx⟩ := ih h
      exact ⟨f, List.mem_cons_of_mem _ hf, hx⟩
    | some p =>
      obtain ⟨b, rest⟩ := p
      simp only [find?, hc, Option.some.injEq, Prod.mk.injEq] at h
      obtain ⟨rfl, -⟩ := h
      exact ⟨frame, List.mem_cons_self .., mem_of_cut? hc⟩

/-- The frames that a name was declared in are among those it is found in. -/
theorem length_of_find? {x : String} {Γ seen : Nest α} {a : α} (h : Γ.find? x = some (a, seen)) :
    0 < seen.length ∧ seen.length ≤ Γ.length := by
  induction Γ with
  | nil => simp [find?] at h
  | cons frame outer ih =>
    cases hc : cut? x frame with
    | none =>
      simp only [find?, hc] at h
      obtain ⟨hpos, hle⟩ := ih h
      exact ⟨hpos, Nat.le_succ_of_le hle⟩
    | some p =>
      simp only [find?, hc, Option.some.injEq, Prod.mk.injEq] at h
      obtain ⟨-, rfl⟩ := h
      exact ⟨Nat.succ_pos _, Nat.le_refl _⟩

/-- Two frames have the same names in the same order, and what a name stands for
in them is related. The relation is given both frames up to the name as well, with
the frames around them. -/
inductive FrameAgree (R : Nest α → Nest β → String → α → β → Prop) (outer : Nest α)
    (outer' : Nest β) : List (String × α) → List (String × β) → Prop
  | nil : FrameAgree R outer outer' [] []
  | cons {x : String} {a : α} {b : β} {frame : List (String × α)} {frame' : List (String × β)} :
    R (((x, a) :: frame) :: outer) (((x, b) :: frame') :: outer') x a b →
    FrameAgree R outer outer' frame frame' →
    FrameAgree R outer outer' ((x, a) :: frame) ((x, b) :: frame')

/-- All frames of two nests agree. -/
inductive Agree (R : Nest α → Nest β → String → α → β → Prop) : Nest α → Nest β → Prop
  | nil : Agree R [] []
  | cons {frame : List (String × α)} {frame' : List (String × β)} {outer : Nest α}
      {outer' : Nest β} :
    FrameAgree R outer outer' frame frame' → Agree R outer outer' →
    Agree R (frame :: outer) (frame' :: outer')

section Agree

variable {R R' : Nest α → Nest β → String → α → β → Prop}

/-- Another relation that follows within the frames. -/
theorem Agree.mono_within {Γ : Nest α} {env : Nest β} (h : Agree R Γ env)
    (hR : ∀ Γ' env' x a b, 0 < Γ'.length → Γ'.length ≤ Γ.length → R Γ' env' x a b →
      R' Γ' env' x a b) :
    Agree R' Γ env := by
  induction h with
  | nil => exact .nil
  | @cons frame frame' outer outer' hf _ ih =>
    refine .cons ?_ (ih fun Γ' env' x a b hpos hle => hR Γ' env' x a b hpos (Nat.le_succ_of_le hle))
    clear ih
    induction hf with
    | nil => exact .nil
    | cons hr _ ih => exact .cons (hR _ _ _ _ _ (Nat.succ_pos _) (Nat.le_refl _) hr) (ih hR)

theorem Agree.mono {Γ : Nest α} {env : Nest β} (h : Agree R Γ env)
    (hR : ∀ Γ env x a b, R Γ env x a b → R' Γ env x a b) : Agree R' Γ env :=
  h.mono_within fun Γ' env' x a b _ _ => hR Γ' env' x a b

theorem FrameAgree.cut? {outer : Nest α} {outer' : Nest β} {frame : List (String × α)}
    {frame' : List (String × β)} (h : FrameAgree R outer outer' frame frame') (x : String) :
    match Nest.cut? x frame with
    | none => Nest.cut? x frame' = none
    | some (a, seen) => ∃ b seen', Nest.cut? x frame' = some (b, seen') ∧
        R (seen :: outer) (seen' :: outer') x a b ∧ FrameAgree R outer outer' seen seen' := by
  induction h with
  | nil => rfl
  | @cons y a b frame frame' hr hf ih =>
    by_cases hy : y = x
    · subst hy
      simp only [Nest.cut?, if_true]
      exact ⟨b, _, rfl, hr, .cons hr hf⟩
    · simp only [Nest.cut?, hy, if_false]
      exact ih

/-- A name is found in both nests at once, with frames that agree again. -/
theorem Agree.find? {Γ seen : Nest α} {env : Nest β} (h : Agree R Γ env) {x : String} {a : α}
    (hx : Γ.find? x = some (a, seen)) :
    ∃ b seen', env.find? x = some (b, seen') ∧ R seen seen' x a b ∧ Agree R seen seen' := by
  induction h with
  | nil => simp [Nest.find?] at hx
  | @cons frame frame' outer outer' hf ho ih =>
    have hcut := hf.cut? x
    cases hc : Nest.cut? x frame with
    | none =>
      simp only [hc] at hcut
      simp only [Nest.find?, hc] at hx
      obtain ⟨b, seen', hb, hr, hs⟩ := ih hx
      exact ⟨b, seen', by simpa [Nest.find?, hcut] using hb, hr, hs⟩
    | some q =>
      obtain ⟨a', rest⟩ := q
      simp only [hc] at hcut
      simp only [Nest.find?, hc, Option.some.injEq, Prod.mk.injEq] at hx
      obtain ⟨rfl, rfl⟩ := hx
      obtain ⟨b, rest', hb, hr, hs⟩ := hcut
      exact ⟨b, rest' :: outer', by simp [Nest.find?, hb], hr, .cons hs ho⟩

theorem Agree.declare {frame : List (String × α)} {outer : Nest α} {env : Nest β}
    (h : Agree R (frame :: outer) env) {x : String} {a : α} {b : β}
    (hr : R (((x, a) :: frame) :: outer) (env.declare x b) x a b) :
    Agree R (((x, a) :: frame) :: outer) (env.declare x b) := by
  cases h with
  | cons hf ho => exact .cons (.cons hr hf) ho

end Agree

end Nest

end Classlet
