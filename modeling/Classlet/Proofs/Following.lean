import Classlet.Proofs.Correspondence

/-!
What it means that the machine follows an evaluation. If the evaluation has a value
the machine gets to where it has that value too; if it divides or calls a method on
null where it cannot, the machine gets to an instruction that fails; and if its
calls nest too deeply the machine has run for at least as many instructions. In all
cases the machine may run out of memory on the way.
-/

namespace Classlet

/-- From a snapshot the machine gets to one as described, or runs out of memory. -/
def Setting.Reaches (S : Setting) (s : Snapshot) (Q : Nat → Snapshot → Prop) : Prop :=
  ∃ n s', Steps S.listing S.size S.route n s s' ∧ (¬ s'.Room S.size ∨ Q n s')

/-- The next instruction of a snapshot fails. -/
def Setting.FailsAt (S : Setting) (s : Snapshot) (fault : Fault) : Prop :=
  ∃ i, S.listing.Has s.ip [.instr i] ∧ Faults S.listing i s fault

/-- The machine follows an evaluation from a snapshot on. -/
def Follows {α : Type} (S : Setting) (depth : Nat) (r : Except Abort (α × Store)) (s : Snapshot)
    (Q : α → Store → Snapshot → Prop) : Prop :=
  match r with
  | .ok (a, st) => S.Reaches s fun _ s' => Q a st s'
  | .error .depth => S.Reaches s fun n _ => depth ≤ n
  | .error .division => S.Reaches s fun _ s' => ∃ a, S.FailsAt s' (.divisionByZero a)
  | .error .receiver => S.Reaches s fun _ s' => S.FailsAt s' (.addressOutOfRange (-1))
  | .error .stuck => True

section

variable {S : Setting} {α β : Type} {depth : Nat} {s s₁ : Snapshot}

theorem Setting.Reaches.here {Q : Nat → Snapshot → Prop} (h : Q 0 s) : S.Reaches s Q :=
  ⟨0, s, .refl s, Or.inr h⟩

theorem Setting.Reaches.mono {Q Q' : Nat → Snapshot → Prop} (h : S.Reaches s Q)
    (hQ : ∀ n s', Q n s' → Q' n s') : S.Reaches s Q' := by
  obtain ⟨n, s', hs, h⟩ := h
  exact ⟨n, s', hs, h.imp id (hQ n s')⟩

/-- What is reached after some instructions is reached from before them. -/
theorem Setting.Reaches.after {k : Nat} {Q : Nat → Snapshot → Prop}
    (hs : Steps S.listing S.size S.route k s s₁) (h : S.Reaches s₁ fun n s' => Q (k + n) s') :
    S.Reaches s Q := by
  obtain ⟨n, s', hs', h⟩ := h
  exact ⟨k + n, s', hs.trans hs', h⟩

theorem Follows.mono {r : Except Abort (α × Store)} {Q Q' : α → Store → Snapshot → Prop}
    (h : Follows S depth r s Q) (hQ : ∀ a st s', Q a st s' → Q' a st s') :
    Follows S depth r s Q' := by
  rcases r with e | ⟨a, st⟩
  · cases e <;> exact h
  · exact Setting.Reaches.mono h fun _ s' => hQ a st s'

theorem Follows.weaken {depth' : Nat} {r : Except Abort (α × Store)}
    {Q : α → Store → Snapshot → Prop} (h : Follows S depth' r s Q) (hle : depth ≤ depth') :
    Follows S depth r s Q := by
  rcases r with e | ⟨a, st⟩
  · cases e with
    | depth => exact Setting.Reaches.mono h fun n _ hn => Nat.le_trans hle hn
    | division | receiver | stuck => exact h
  · exact h

/-- Instructions before an evaluation count for its depth. -/
theorem Follows.after {k : Nat} {r : Except Abort (α × Store)} {Q : α → Store → Snapshot → Prop}
    (hs : Steps S.listing S.size S.route k s s₁) (h : Follows S depth r s₁ Q) :
    Follows S (k + depth) r s Q := by
  rcases r with e | ⟨a, st⟩
  · cases e with
    | depth =>
      exact Setting.Reaches.after hs (Setting.Reaches.mono h fun n _ hn => Nat.add_le_add_left hn k)
    | division => exact Setting.Reaches.after hs h
    | receiver => exact Setting.Reaches.after hs h
    | stuck => exact h
  · exact Setting.Reaches.after hs h

theorem Follows.steps {k : Nat} {r : Except Abort (α × Store)} {Q : α → Store → Snapshot → Prop}
    (hs : Steps S.listing S.size S.route k s s₁) (h : Follows S depth r s₁ Q) :
    Follows S depth r s Q :=
  (h.after hs).weaken (Nat.le_add_left _ _)

theorem Follows.ok {k : Nat} {a : α} {st : Store} {Q : α → Store → Snapshot → Prop}
    (hs : Steps S.listing S.size S.route k s s₁) (hQ : Q a st s₁) :
    Follows S depth (.ok (a, st)) s Q :=
  ⟨k, s₁, hs, Or.inr hQ⟩

/-- Instructions after an evaluation. -/
theorem Follows.finish {r : Except Abort (α × Store)} {P Q : α → Store → Snapshot → Prop}
    (h : Follows S depth r s P)
    (hP : ∀ a st s', P a st s' → ∃ k s'', Steps S.listing S.size S.route k s' s'' ∧ Q a st s'') :
    Follows S depth r s Q := by
  rcases r with e | ⟨a, st⟩
  · cases e <;> exact h
  · obtain ⟨n, s', hs, hroom | hq⟩ := h
    · exact ⟨n, s', hs, Or.inl hroom⟩
    · obtain ⟨k, s'', hs', hQ⟩ := hP a st s' hq
      exact ⟨n + k, s'', hs.trans hs', Or.inr hQ⟩

/-- Without room there is nothing to follow. -/
theorem Follows.of_room {r : Except Abort (α × Store)} {Q : α → Store → Snapshot → Prop}
    (h : s.Room S.size → Follows S depth r s Q) : Follows S depth r s Q := by
  by_cases hroom : s.Room S.size
  · exact h hroom
  · rcases r with e | ⟨a, st⟩
    · cases e with
      | stuck => trivial
      | depth | division | receiver => exact ⟨0, s, .refl s, Or.inl hroom⟩
    · exact ⟨0, s, .refl s, Or.inl hroom⟩

/-- What a sound evaluation is known to give can be used as well. -/
theorem Follows.and_safe {r : Except Abort (α × Store)} {Q : α → Store → Snapshot → Prop}
    {P : α × Store → Prop} (h : Follows S depth r s Q) (hsafe : Eval.Safe r P) :
    Follows S depth r s fun a st s' => P (a, st) ∧ Q a st s' := by
  rcases r with e | ⟨a, st⟩
  · cases e <;> exact h
  · exact Setting.Reaches.mono h fun _ s' hq => ⟨hsafe, hq⟩

theorem Follows.bind {m : Eval α} {f : α → Eval β} {st : Store}
    {P : α → Store → Snapshot → Prop} {Q : β → Store → Snapshot → Prop}
    (hm : Follows S depth (m.run st) s P)
    (hf : ∀ a st' s', P a st' s' → Follows S depth ((f a).run st') s' Q) :
    Follows S depth ((m >>= f).run st) s Q := by
  rw [StateT.run_bind]
  rcases hr : m.run st with e | ⟨a, st'⟩
  · rw [hr] at hm
    cases e <;> exact hm
  · rw [hr] at hm
    obtain ⟨n, s', hs, hroom | hP⟩ := hm
    · refine Follows.steps hs (.of_room fun h => absurd h hroom)
    · exact Follows.steps hs (hf a st' s' hP)

end

end Classlet
