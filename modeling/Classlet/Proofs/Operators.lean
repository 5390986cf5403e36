import Classlet.Proofs.Following
import Classlet.Proofs.Words

/-!
The code of operators. With the words of two operands on the stack, the code of an
operator puts the word of its result in their place, or comes to a division that
fails. Comparison of objects is comparison of their addresses, which differ from
each other and from null as long as there is room in memory.
-/

namespace Classlet

open Code

section

variable {L : Listing} {M : Nat} {K : Route}

/-- Code that pushes one of two words, after a jump that decides which. -/
theorem steps_choice {P : Prop} [Decidable P] {test : JumpTest} {l done : Label} {x y : Word}
    {s : Snapshot} {rest : List Cell} (hn : L.labels.Nodup)
    (hc : L.Has s.ip (instrs [.jump test l, .push x, .jump .always done] ++
      [.label l, .instr (.push y), .label done]))
    (hd : Does L M K (.jump test l) s
      { s with ip := if P then L.position l else s.ip + 2, stack := rest }) :
    ∃ n, Steps L M K n s
      { s with ip := s.ip + 8, stack := .word (if P then y else x) :: rest } := by
  have hjump : L.Has s.ip [.instr (.jump test l)] :=
    Listing.Has.left (b := _ :: _ :: _) hc
  have hpush : L.Has (s.ip + 2) [.instr (.push x)] :=
    Listing.Has.left (b := _ :: _) (Listing.Has.right (a := [.instr (.jump test l)]) hc)
  have hskip : L.Has (s.ip + 4) [.instr (.jump .always done)] :=
    Listing.Has.left (Listing.Has.right (a := [.instr (.jump test l), .instr (.push x)]) hc)
  have htarget : L.Has (s.ip + 6) [.label l, .instr (.push y), .label done] := hc.right
  have hpush' : L.Has (s.ip + 6) [.instr (.push y)] :=
    Listing.Has.left (b := [.label done]) htarget.skip_label
  have hdone : L.position done = s.ip + 8 :=
    Listing.Has.position hn (Listing.Has.right (a := [.instr (.push y)]) htarget.skip_label)
  by_cases hP : P
  · simp only [hP, if_true, htarget.position hn] at hd ⊢
    exact ⟨_, .cons hjump hd (.single hpush' (.push y))⟩
  · simp only [hP, if_false] at hd ⊢
    have hlast : Does L M K (.jump .always done)
        { s with ip := s.ip + 4, stack := .word x :: rest }
        { s with ip := s.ip + 8, stack := .word x :: rest } := hdone ▸ .jump done
    exact ⟨_, .cons hjump hd (.cons hpush (.push x) (.single hskip hlast))⟩

end

/-- The word of a value is on the stack above `rest`, and nothing else has
changed. -/
def Settles (s : Snapshot) (addresses : List Nat) (stop : Nat) (rest : List Cell) (st : Store)
    (v : Value) (st' : Store) (s' : Snapshot) : Prop :=
  st' = st ∧ ∃ c, s' = { s with ip := stop, stack := c :: rest } ∧ v.Kept addresses c

namespace Value

theorem kept_ofBool {addresses : List Nat} {b : Bool} {c : Cell}
    (h : (ofBool b).Kept addresses c) : c = .word (if b then 1 else 0) := h

theorem eq_ofBool_of_bool? {v : Value} {b : Bool} (h : v.bool? = some b) : v = ofBool b := by
  cases v with
  | object i => cases h
  | word w =>
    simp only [bool?] at h
    split at h
    · rename_i hw
      cases h
      rw [hw]
      rfl
    · split at h
      · rename_i hw
        cases h
        rw [hw]
        rfl
      · cases h

end Value

section

variable {S : Setting} {st : Store} {s : Snapshot} {addresses : List Nat}

theorem Setting.StoreAt.address_lt (h : S.StoreAt st s addresses) (hroom : s.Room S.size)
    (hM : S.size < Word.limit) {i a : Nat} (ha : addresses[i]? = some a) : a < Word.limit := by
  have hbelow := h.below a (List.mem_of_getElem? ha)
  unfold Snapshot.Room at hroom
  omega

/-- Two objects at one address are the same. -/
theorem Setting.StoreAt.address_inj (h : S.StoreAt st s addresses) {i j a : Nat}
    (hi : addresses[i]? = some a) (hj : addresses[j]? = some a) : i = j :=
  ((List.getElem?_inj (List.getElem?_eq_some_iff.mp hi).1
    (h.increasing.imp (fun hlt => Nat.ne_of_lt hlt))).mp (hi.trans hj.symm))

/-- Values that can be compared are the same if their words are. -/
theorem Setting.StoreAt.same (h : S.StoreAt st s addresses) (hroom : s.Room S.size)
    (hM : S.size < Word.limit) {v w : Value} {x y : Word} {b : Bool} (hb : v.same? w = some b)
    (hv : v.Encodes addresses x) (hw : w.Encodes addresses y) : x = y ↔ b = true := by
  cases v with
  | word x' =>
    obtain rfl : x = x' := hv
    cases w with
    | word y' =>
      obtain rfl : y = y' := hw
      cases hb
      simp
    | object j =>
      obtain ⟨a, ha, rfl⟩ := hw
      simp only [Value.same?, Option.ite_none_right_eq_some, Option.some.injEq] at hb
      obtain ⟨rfl, rfl⟩ := hb
      simpa using Ne.symm (Word.ofNat_ne_neg_one (h.address_lt hroom hM ha))
  | object i =>
    obtain ⟨a, ha, rfl⟩ := hv
    cases w with
    | word y' =>
      obtain rfl : y = y' := hw
      simp only [Value.same?, Option.ite_none_right_eq_some, Option.some.injEq] at hb
      obtain ⟨rfl, rfl⟩ := hb
      simpa using Word.ofNat_ne_neg_one (h.address_lt hroom hM ha)
    | object j =>
      obtain ⟨a', ha', rfl⟩ := hw
      cases hb
      rw [decide_eq_true_iff]
      constructor
      · intro heq
        have hsame := Word.ofNat_inj (h.address_lt hroom hM ha) (h.address_lt hroom hM ha') heq
        exact h.address_inj ha (hsame ▸ ha')
      · rintro rfl
        rw [ha] at ha'
        cases ha'
        rfl

/-- The code of a comparison has the truth value of what the jump decides. -/
theorem reaches_choice (hn : S.listing.labels.Nodup) {P : Prop} [Decidable P] {test : JumpTest}
    {yes done : Label} {rest : List Cell} {b : Bool} (hb : P ↔ b = true)
    (hc : S.listing.Has s.ip (instrs [.jump test yes, .push 0, .jump .always done] ++
      [.label yes, .instr (.push 1), .label done]))
    (hd : Does S.listing S.size S.route (.jump test yes) s
      { s with ip := if P then S.listing.position yes else s.ip + 2, stack := rest }) :
    S.Reaches s fun _ s' => Settles s addresses (s.ip + 8) rest st (.ofBool b) st s' := by
  obtain ⟨n, hsteps⟩ := steps_choice hn hc hd
  refine ⟨n, _, hsteps, Or.inr ⟨rfl, _, rfl, ?_⟩⟩
  change Cell.word (if P then 1 else 0) = .word (if b then 1 else 0)
  simp only [hb]

variable {depth : Nat} {v w : Value} {x y : Cell} {rest : List Cell}
  (hv : v.Kept addresses x) (hw : w.Kept addresses y) (hs : s.stack = y :: x :: rest)

include hv hw

/-- An operation on words follows if it follows on the words of its operands. -/
theorem follows_words {f : Word → Word → Except Abort Value} {Q : Value → Store → Snapshot → Prop}
    (h : ∀ a b, x = .word a → y = .word b →
      Follows S depth ((liftM (f a b) : Eval Value).run st) s Q) :
    Follows S depth ((liftM (match v.word?, w.word? with
      | some a, some b => f a b
      | _, _ => .error .stuck) : Eval Value).run st) s Q := by
  cases v with
  | object i => exact trivial
  | word a =>
    cases w with
    | object j => exact trivial
    | word b => exact h a b hv hw

theorem follows_bools {f : Bool → Bool → Bool} {Q : Value → Store → Snapshot → Prop}
    (h : ∀ a b : Bool, x = .word (if a then 1 else 0) → y = .word (if b then 1 else 0) →
      S.Reaches s fun _ s' => Q (.ofBool (f a b)) st s') :
    Follows S depth ((liftM (match v.bool?, w.bool? with
      | some a, some b => .ok (.ofBool (f a b))
      | _, _ => .error .stuck : Except Abort Value) : Eval Value).run st) s Q := by
  cases ha : v.bool? with
  | none => exact trivial
  | some a =>
    cases hb : w.bool? with
    | none => exact trivial
    | some b =>
      obtain rfl := Value.eq_ofBool_of_bool? ha
      obtain rfl := Value.eq_ofBool_of_bool? hb
      exact h a b (Value.kept_ofBool hv) (Value.kept_ofBool hw)

include hs

theorem follows_equal (hn : S.listing.labels.Nodup) (hM : S.size < Word.limit)
    (hst : S.StoreAt st s addresses) {yes done : Label}
    (hc : S.listing.Has s.ip (instrs [.jump .equal yes, .push 0, .jump .always done] ++
      [.label yes, .instr (.push 1), .label done])) :
    Follows S depth ((liftM (BinOp.equal.apply v w) : Eval Value).run st) s
      (Settles s addresses (s.ip + 8) rest st) := by
  refine .of_room fun hroom => ?_
  obtain ⟨a, ha, hva⟩ := hv.encodes
  obtain ⟨b, hb, hwb⟩ := hw.encodes
  simp only [BinOp.apply]
  cases hsame : v.same? w with
  | none => exact trivial
  | some same =>
    exact reaches_choice hn (hst.same hroom hM hsame hva hwb) hc (.jumpEqual yes hs ha hb)

theorem follows_lessEqual (hn : S.listing.labels.Nodup) {yes done : Label}
    (hc : S.listing.Has s.ip (instrs [.jump .lessEqual yes, .push 0, .jump .always done] ++
      [.label yes, .instr (.push 1), .label done])) :
    Follows S depth ((liftM (BinOp.lessEqual.apply v w) : Eval Value).run st) s
      (Settles s addresses (s.ip + 8) rest st) := by
  refine follows_words hv hw fun a b hx hy => ?_
  rw [hx, hy] at hs
  exact reaches_choice hn decide_eq_true_iff.symm hc (.jumpLessEqual yes hs)

/-- The same code compares the other way with the operands the other way. -/
theorem follows_greaterEqual (hn : S.listing.labels.Nodup) {yes done : Label}
    (hc : S.listing.Has s.ip (instrs [.jump .lessEqual yes, .push 0, .jump .always done] ++
      [.label yes, .instr (.push 1), .label done])) :
    Follows S depth ((liftM (BinOp.greaterEqual.apply w v) : Eval Value).run st) s
      (Settles s addresses (s.ip + 8) rest st) := by
  refine follows_words hw hv fun b a hy hx => ?_
  rw [hx, hy] at hs
  exact reaches_choice hn decide_eq_true_iff.symm hc (.jumpLessEqual yes hs)

theorem follows_or (hn : S.listing.labels.Nodup) {no done : Label}
    (hc : S.listing.Has s.ip
      (instrs [.plain (.arith .add), .push 0, .jump .equal no, .push 1, .jump .always done] ++
        [.label no, .instr (.push 0), .label done])) :
    Follows S depth ((liftM (BinOp.or.apply v w) : Eval Value).run st) s
      (Settles s addresses (s.ip + 11) rest st) := by
  refine follows_bools hv hw fun a b hx hy => ?_
  rw [hx, hy] at hs
  have hadd : Straight S.listing S.size S.route [.plain (.arith .add), .push 0] s
      { s with ip := s.ip + 3
               stack := .word 0 :: .word ((if a then 1 else 0) + if b then 1 else 0) :: rest } :=
    ⟨_, .arith hs rfl, rfl, _, .push 0, rfl, rfl⟩
  have hjump : Does S.listing S.size S.route (.jump .equal no)
      { s with ip := s.ip + 3
               stack := .word 0 :: .word ((if a then 1 else 0) + if b then 1 else 0) :: rest }
      { s with ip := if ((if a then 1 else 0) + if b then 1 else 0 : Word) = 0
                 then S.listing.position no else s.ip + 5
               stack := rest } :=
    .jumpEqual no rfl rfl rfl
  obtain ⟨n, hsteps⟩ := steps_choice hn
    (Listing.Has.right (a := instrs [.plain (.arith .add), .push 0]) hc) hjump
  refine ⟨_, _, (hadd.steps (Listing.Has.left (a := instrs [.plain (.arith .add), .push 0])
    hc)).trans hsteps, Or.inr ⟨rfl, _, rfl, ?_⟩⟩
  change Cell.word (if ((if a then 1 else 0) + if b then 1 else 0 : Word) = 0 then 0 else 1) =
    .word (if (a || b) then 1 else 0)
  congr 1
  cases a <;> cases b <;> decide

/-- One instruction does for all other operators. -/
theorem follows_arith {op : BinOp} {o : Arith} (ho : op.arith? = some o)
    (hc : S.listing.Has s.ip (instrs [.plain (.arith o)])) :
    Follows S depth ((liftM (op.apply v w) : Eval Value).run st) s
      (Settles s addresses (s.ip + 1) rest st) := by
  have done : ∀ a b z, x = .word a → y = .word b → o.apply? a b = some z →
      S.Reaches s fun _ s' => Settles s addresses (s.ip + 1) rest st (.word z) st s' := by
    intro a b z hx hy hz
    rw [hx, hy] at hs
    exact ⟨1, _, .single hc (.arith hs hz), Or.inr ⟨rfl, _, rfl, rfl⟩⟩
  cases op with
  | equal | lessEqual | greaterEqual | or => cases ho
  | and =>
    cases ho
    refine follows_bools hv hw fun a b hx hy => ?_
    have hand : (.ofBool (a && b) : Value) =
        .word ((if a then 1 else 0) * if b then 1 else 0) := by
      cases a <;> cases b <;> rfl
    rw [hand]
    exact done _ _ _ hx hy rfl
  | add | sub | mul =>
    cases ho
    exact follows_words hv hw fun a b hx hy => done a b _ hx hy rfl
  | div =>
    cases ho
    refine follows_words hv hw fun a b hx hy => ?_
    cases hq : Word.quotient? a b with
    | some q => exact done a b q hx hy hq
    | none =>
      rw [hx, hy] at hs
      exact .here ⟨_, _, hc, .division hs hq⟩

end

end Classlet
