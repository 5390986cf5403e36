import Classlet.Proofs.Endings

/-!
The code of an expression as a stretch of a listing. It only goes forward: the label of each
jump is placed behind the jump, at the latest at the end of the code. A `js` in it follows an
instruction that loads an address, so it is never a return. The code of a binary expression
is that of its operands and then that of the operation, which has neither a `js` nor a
`print`.
-/

namespace Classlet

open Code

/-! Lines that go forward. -/

namespace Line

/-- The label of each jump is placed behind it or is among those that are placed later, and
each `js` is behind a `lw`. -/
def Forward (later : List Label) (lines : List Line) : Prop :=
  ∀ before i after, lines = before ++ Line.instr i :: after →
    (∀ l, i.jumped? = some l → l ∈ labels after ∨ l ∈ later) ∧
      (i = .plain .call → ∃ front, before = front ++ [Line.instr (.plain .load)])

theorem mem_labels {l : Label} {lines : List Line} (h : l ∈ labels lines) :
    ∃ before after, lines = before ++ Line.label l :: after := by
  obtain ⟨line, hline, hl⟩ := List.mem_filterMap.mp h
  cases line with
  | instr i => cases hl
  | label l' =>
    obtain rfl : l' = l := Option.some.inj hl
    exact List.append_of_mem hline

namespace Forward

variable {later later' : List Label} {a b : List Line}

theorem mono (h : Forward later a) (hsub : later ⊆ later') : Forward later' a := by
  intro before i after ha
  obtain ⟨hjump, hcall⟩ := h before i after ha
  exact ⟨fun l hl => (hjump l hl).imp id fun hlater => hsub hlater, hcall⟩

theorem append (ha : Forward (labels b ++ later) a) (hb : Forward later b) :
    Forward later (a ++ b) := by
  intro before i after h
  rcases List.append_eq_append_iff.mp h with ⟨mid, rfl, hmid⟩ | ⟨mid, rfl, hmid⟩
  · obtain ⟨hjump, hcall⟩ := hb mid i after hmid
    refine ⟨hjump, fun hi => ?_⟩
    obtain ⟨front, rfl⟩ := hcall hi
    exact ⟨a ++ front, by rw [List.append_assoc]⟩
  · cases mid with
    | nil =>
      obtain ⟨hjump, hcall⟩ := hb [] i after hmid.symm
      refine ⟨hjump, fun hi => ?_⟩
      obtain ⟨front, hfront⟩ := hcall hi
      simp at hfront
    | cons line mid =>
      rw [List.cons_append] at hmid
      obtain ⟨rfl, rfl⟩ := List.cons.inj hmid
      obtain ⟨hjump, hcall⟩ := ha before i mid rfl
      refine ⟨fun l hl => ?_, hcall⟩
      have hmem := hjump l hl
      rw [List.mem_append] at hmem
      rw [labels_append, List.mem_append]
      tauto

/-- Lines behind others that have all the labels they jump to. -/
theorem append_closed (ha : Forward [] a) (hb : Forward later b) : Forward later (a ++ b) :=
  (ha.mono (List.nil_subset _)).append hb

/-- The code of expressions, one after the other. -/
theorem flatten {codes : List (List Line)} (h : ∀ a ∈ codes, Forward [] a) :
    Forward [] codes.flatten := by
  induction codes with
  | nil =>
    intro before i after hnil
    simp at hnil
  | cons a codes ih =>
    rw [List.flatten_cons]
    exact (h a List.mem_cons_self).append_closed (ih fun b hb => h b (List.mem_cons_of_mem _ hb))

/-- Lines without a `js`, whose jumps lead behind them. -/
theorem of_jumps (hcall : .instr (.plain .call) ∉ a) (hjumps : refs Instr.jumped? a ⊆ later) :
    Forward later a := by
  rintro before i after rfl
  refine ⟨fun l hl => Or.inr (hjumps ?_), fun hi => absurd ?_ hcall⟩
  · rw [refs_append, refs_instr, hl, Option.toList_some, List.singleton_append]
    exact List.mem_append_right _ List.mem_cons_self
  · rw [hi]
    exact List.mem_append_right _ List.mem_cons_self

theorem load_call : Forward later (instrs [.plain .load, .plain .call]) := by
  intro before i after h
  cases before with
  | nil =>
    obtain ⟨hi, -⟩ := List.cons.inj h
    cases hi
    refine ⟨fun l hl => ?_, fun hcall => ?_⟩
    · cases hl
    · cases hcall
  | cons line before =>
    obtain ⟨rfl, hrest⟩ := List.cons.inj h
    cases before with
    | nil =>
      obtain ⟨hi, -⟩ := List.cons.inj hrest
      cases hi
      refine ⟨fun l hl => ?_, fun _ => ⟨[], rfl⟩⟩
      cases hl
    | cons line before => simp at hrest

end Forward

end Line

/-- The run goes on behind the instruction. -/
def Instr.passes : Instr → Bool
  | .plain .call | .jump _ _ => false
  | .plain _ | .push _ | .pushLabel _ => true

namespace Code

open Line (Forward)

theorem forward_instrs {later : List Label} {is : List Instr} (h : is.all Instr.passes = true) :
    Forward later (instrs is) := by
  rw [List.all_eq_true] at h
  refine Forward.of_jumps ?_ ?_
  · intro hcall
    obtain ⟨i, hi, hline⟩ := List.mem_map.mp hcall
    cases hline
    cases h _ hi
  · have hnone : is.filterMap Instr.jumped? = [] := by
      rw [List.filterMap_eq_nil_iff]
      intro i hi
      have hpasses := h i hi
      cases i with
      | jump test l => cases hpasses
      | push | pushLabel | plain => rfl
    rw [Line.refs_instrs, hnone]
    exact List.nil_subset _

theorem passes_pushFrame (distance : Nat) : (pushFrame distance).all Instr.passes = true := by
  simp [pushFrame, Instr.passes]

theorem passes_allocate (args : Nat) (slot : Word) :
    (allocate args slot).all Instr.passes = true := by
  have hmoves : (List.replicate args moveToHeap).flatten.all Instr.passes = true := by
    rw [List.all_eq_true]
    intro i hi
    obtain ⟨is, his, hi⟩ := List.mem_flatten.mp hi
    obtain rfl := List.eq_of_mem_replicate his
    exact List.all_eq_true.mp (by decide : moveToHeap.all Instr.passes = true) i hi
  rw [allocate, List.all_append, List.all_append, hmoves]
  rfl

/-- The end of a call. -/
theorem forward_callee {later : List Label} {is : List Instr} (h : is.all Instr.passes = true)
    (offset : Int) : Forward later (instrs (is ++ loadAt offset ++ [Instr.plain .call])) := by
  have hsplit : instrs (is ++ loadAt offset ++ [Instr.plain .call]) =
      instrs (is ++ [Instr.push (Int64.ofInt offset), .plain (.arith .add)]) ++
        instrs [.plain .load, .plain .call] := by
    simp [instrs, loadAt]
  rw [hsplit]
  refine (forward_instrs ?_).append .load_call
  rw [List.all_append, h]
  rfl

section

variable {a b c : List Line}

/-- Operands, and then lines with jumps to labels among them. -/
theorem forward_operation {jumps rest : List Line} (ha : Forward [] a) (hb : Forward [] b)
    (hjumps : Forward (Line.labels rest) jumps) (hrest : Forward [] rest) :
    Forward [] (a ++ b ++ jumps ++ rest) := by
  have htail : Forward [] (jumps ++ rest) := by
    refine Forward.append ?_ hrest
    rwa [List.append_nil]
  rw [List.append_assoc]
  exact (ha.append_closed hb).append_closed htail

theorem forward_comparisonLines (test : JumpTest) (yes done : Label) (ha : Forward [] a)
    (hb : Forward [] b) : Forward [] (comparisonLines test yes done a b) := by
  refine forward_operation ha hb (Forward.of_jumps ?_ (List.Subset.refl [yes, done]))
    (Forward.of_jumps ?_ (List.Subset.refl []))
  · simp [instrs]
  · simp

theorem forward_disjunctionLines (no done : Label) (ha : Forward [] a) (hb : Forward [] b) :
    Forward [] (disjunctionLines no done a b) := by
  refine forward_operation ha hb (Forward.of_jumps ?_ (List.Subset.refl [no, done]))
    (Forward.of_jumps ?_ (List.Subset.refl []))
  · simp [instrs]
  · simp

theorem forward_conditionalLines (yes done : Label) (ha : Forward [] a) (hb : Forward [] b)
    (hc : Forward [] c) : Forward [] (conditionalLines yes done a b c) := by
  have hlabel : ∀ l, Forward [] [.label l] := by
    intro l
    refine Forward.of_jumps ?_ (List.Subset.refl [])
    simp
  have hyes : Forward [] ([Line.label yes] ++ b ++ [Line.label done]) :=
    ((hlabel yes).append_closed hb).append_closed (hlabel done)
  have hskip : Forward [] (instrs [.jump .always done] ++
      ([Line.label yes] ++ b ++ [Line.label done])) := by
    refine Forward.append (Forward.of_jumps ?_ ?_) hyes
    · simp [instrs]
    · simp [Line.refs_instrs, Instr.jumped?]
  have hno := hc.append_closed hskip
  have hjump : Forward [] (instrs [.push 1, .jump .equal yes] ++ (c ++
      (instrs [.jump .always done] ++ ([Line.label yes] ++ b ++ [Line.label done])))) := by
    refine Forward.append (Forward.of_jumps ?_ ?_) hno
    · simp [instrs]
    · simp [Line.refs_instrs, List.filterMap_cons, Instr.jumped?]
  have hall := ha.append_closed hjump
  simpa only [conditionalLines, List.append_assoc] using hall

end

/-- The code of an expression goes forward. -/
theorem forward_of_codeOf {t : Target} {e : Expr} {lines : List Line} (h : CodeOf t e lines) :
    Forward [] lines := by
  have hcall : ∀ {args : List Expr} {codes : List (List Line)} {tail : List Instr},
      (∀ x ∈ args, ∀ {lines}, CodeOf t x lines → Forward [] lines) →
      List.Forall₂ (CodeOf t) args codes → Forward [] (instrs tail) →
      Forward [] (instrs [.plain (.pushReg .fp)] ++ codes.reverse.flatten ++ instrs tail) := by
    intro args codes tail ih hargs htail
    have hcode : Forward [] codes.reverse.flatten :=
      .flatten fun a ha => forall_codes hargs ih a (List.mem_reverse.mp ha)
    exact ((forward_instrs rfl).append_closed hcode).append_closed htail
  induction e generalizing lines with
  | lit value pos =>
    cases h
    exact forward_instrs rfl
  | name id x pos =>
    cases h
    refine forward_instrs ?_
    rw [List.all_append, passes_pushFrame]
    rfl
  | binary op left right pos ihl ihr =>
    cases h with
    | equal ha hb => exact forward_comparisonLines _ _ _ (ihl ha) (ihr hb)
    | lessEqual ha hb => exact forward_comparisonLines _ _ _ (ihl ha) (ihr hb)
    | greaterEqual ha hb => exact forward_comparisonLines _ _ _ (ihr hb) (ihl ha)
    | or ha hb => exact forward_disjunctionLines _ _ (ihl ha) (ihr hb)
    | arith _ ha hb => exact ((ihl ha).append_closed (ihr hb)).append_closed (forward_instrs rfl)
  | not operand pos ih =>
    cases h with
    | not ha => exact (ih ha).append_closed (forward_instrs rfl)
  | cond test yes no pos iht ihy ihn =>
    cases h with
    | cond ha hb hc => exact forward_conditionalLines _ _ (iht ha) (ihy hb) (ihn hc)
  | print operand pos ih =>
    cases h with
    | print ha => exact (ih ha).append_closed (forward_instrs rfl)
  | call id callee args pos ih =>
    cases h with
    | @call _ _ _ _ u e codes hu hargs =>
      refine hcall (fun x hx => ih x hx) hargs ?_
      rw [callAt, ← List.append_assoc, ← List.append_assoc]
      refine forward_callee ?_ _
      rw [List.all_append, passes_pushFrame]
      cases e.isMethod <;> rfl
  | send id receiver method args pos ih =>
    cases h with
    | send hu hr hm hargs =>
      refine hcall (fun x hx => ih x hx) hargs ?_
      rw [callMethod, ← List.append_assoc, ← List.append_assoc]
      refine forward_callee ?_ _
      rw [List.all_append, List.all_append, passes_pushFrame]
      rfl
  | new id cls args pos ih =>
    cases h with
    | new hu hargs =>
      have hcode := Forward.flatten (forall_codes hargs ih)
      exact hcode.append_closed (forward_instrs (passes_allocate _ _))

end Code

/-! Stretches of a listing. -/

namespace Listing

/-- The instructions between two places: the next one begins at the second place at the latest,
jumps lead forward and not behind it, and a `js` follows a `lw`. -/
structure Flows (L : Listing) (lo hi : Nat) : Prop where
  next : ∀ place i, lo ≤ place → place < hi → L.Has place [.instr i] → place + i.size ≤ hi
  jump : ∀ place test l, lo ≤ place → place < hi → L.Has place [.instr (.jump test l)] →
    place < L.position l ∧ L.position l ≤ hi
  js : ∀ before op, lo ≤ before + 1 → before + 1 < hi →
    L.Has before (Code.instrs [.plain op, .plain .call]) → op = .load

variable {L : Listing}

theorem Flows.mono {lo lo' hi : Nat} (h : L.Flows lo hi) (hle : lo ≤ lo') : L.Flows lo' hi where
  next place i hlo := h.next place i (Nat.le_trans hle hlo)
  jump place test l hlo := h.jump place test l (Nat.le_trans hle hlo)
  js before op hlo := h.js before op (Nat.le_trans hle hlo)

/-- An instruction between the ends of some lines is one of the lines. -/
theorem Has.locate {pos place : Nat} {lines : List Line} {i : Instr} (h : L.Has pos lines)
    (hi : L.Has place [.instr i]) (hlo : pos ≤ place) (hhi : place < pos + Line.sizes lines) :
    ∃ before after, lines = before ++ Line.instr i :: after ∧ place = pos + Line.sizes before := by
  obtain ⟨front, back, hL, rfl⟩ := h
  obtain ⟨front', back', hL', rfl⟩ := hi
  have hpos := i.size_pos
  rw [hL] at hL'
  rcases List.append_eq_append_iff.mp hL' with ⟨mid, rfl, hmid⟩ | ⟨mid, rfl, hmid⟩
  · rw [Line.sizes_append] at hlo hhi ⊢
    rcases List.append_eq_append_iff.mp hmid with ⟨more, rfl, -⟩ | ⟨more, rfl, hmore⟩
    · rw [Line.sizes_append] at hhi
      omega
    · cases more with
      | nil =>
        rw [List.append_nil] at hhi
        omega
      | cons line more =>
        obtain ⟨rfl, -⟩ := List.cons.inj hmore
        exact ⟨mid, more, rfl, rfl⟩
  · -- No line is between the two places, so they are the same.
    rw [Line.sizes_append] at hlo hhi ⊢
    cases mid with
    | cons line mid =>
      obtain ⟨rfl, -⟩ := List.cons.inj hmid
      rw [Line.sizes_cons, Line.size] at hlo
      omega
    | nil =>
      cases lines with
      | nil =>
        simp only [Line.sizes_nil] at hhi
        omega
      | cons line lines =>
        obtain ⟨rfl, -⟩ := List.cons.inj hmid
        exact ⟨[], lines, rfl, by simp⟩

theorem Has.flows {pos : Nat} {lines : List Line} (hn : L.labels.Nodup) (h : L.Has pos lines)
    (hforward : Line.Forward [] lines) : L.Flows pos (pos + Line.sizes lines) where
  next place i hlo hhi hi := by
    obtain ⟨before, after, rfl, rfl⟩ := h.locate hi hlo hhi
    rw [Line.sizes_append, Line.sizes_cons, Line.size]
    omega
  jump place test l hlo hhi hi := by
    obtain ⟨before, after, rfl, rfl⟩ := h.locate hi hlo hhi
    have hl := ((hforward before _ after rfl).1 l rfl).resolve_right (List.not_mem_nil)
    obtain ⟨front, back, rfl⟩ := Line.mem_labels hl
    have hlabel := Has.right (a := [.instr (.jump test l)] ++ front) (b := .label l :: back)
      h.right
    rw [hlabel.position hn]
    simp only [Line.sizes_append, Line.sizes_cons, Line.sizes_nil, Line.size, Instr.size]
    omega
  js before op hlo hhi hcode := by
    have hcall : L.Has (before + 1) [.instr (.plain .call)] :=
      Has.right (a := [.instr (.plain op)]) hcode
    obtain ⟨front, after, rfl, hplace⟩ := h.locate hcall hlo hhi
    obtain ⟨front, rfl⟩ := (hforward _ _ after rfl).2 rfl
    have hload : L.Has (pos + Line.sizes front) [.instr (.plain .load)] := by
      rw [List.append_assoc] at h
      exact h.right.left
    have hop : L.Has before [.instr (.plain op)] := Has.left (b := [.instr (.plain .call)]) hcode
    rw [Line.sizes_append] at hplace
    obtain ⟨-, heq⟩ := hop.eq_of_end hload hplace
    cases heq
    rfl

end Listing

namespace Site

variable {t : Target} {L : Listing} {x : Site}

/-- The code of an expression is such a stretch. -/
theorem Stands.flows (hn : L.labels.Nodup) (h : x.Stands t L) : L.Flows x.start (x.stop t) := by
  obtain ⟨lines, hcode, hlines⟩ := h
  have hflows := hlines.flows hn (forward_of_codeOf hcode)
  rwa [hcode.sizes] at hflows

end Site

/-! Binary expressions. -/

/-- The code of a binary expression is that of its operands, one after the other, and then
instructions that neither call nor print. -/
theorem CodeOf.operation {t : Target} {op : BinOp} {left right : Expr} {pos : Position}
    {lines : List Line} (h : CodeOf t (.binary op left right pos) lines) :
    ∃ operands rest, lines = operands ++ rest ∧
      Line.sizes operands = left.width t + right.width t ∧
      ∀ i, .instr i ∈ rest → i ≠ .plain .call ∧ i ≠ .plain .print := by
  have hsplit : ∀ {first second jumps rest : List Line},
      Line.sizes first + Line.sizes second = left.width t + right.width t →
      (∀ i, .instr i ∈ jumps ++ rest → i ≠ .plain .call ∧ i ≠ .plain .print) →
      ∃ operands rest', first ++ second ++ jumps ++ rest = operands ++ rest' ∧
        Line.sizes operands = left.width t + right.width t ∧
        ∀ i, .instr i ∈ rest' → i ≠ .plain .call ∧ i ≠ .plain .print := by
    intro first second jumps rest hsizes hrest
    refine ⟨first ++ second, jumps ++ rest, ?_, ?_, hrest⟩
    · rw [List.append_assoc (first ++ second)]
    · rw [Line.sizes_append, hsizes]
  cases h with
  | equal ha hb => exact hsplit (by rw [ha.sizes, hb.sizes]) (by simp [instrs])
  | lessEqual ha hb => exact hsplit (by rw [ha.sizes, hb.sizes]) (by simp [instrs])
  | greaterEqual ha hb =>
    exact hsplit (by rw [ha.sizes, hb.sizes, Nat.add_comm]) (by simp [instrs])
  | or ha hb => exact hsplit (by rw [ha.sizes, hb.sizes]) (by simp [instrs])
  | @arith _ _ _ _ _ a b ho ha hb =>
    refine ⟨a ++ b, _, rfl, ?_, ?_⟩
    · rw [Line.sizes_append, ha.sizes, hb.sizes]
    · simp [instrs]

namespace Site

variable {t : Target} {L : Listing} {x : Site}

/-- Behind the operands of a binary expression is no call and no `print`. -/
theorem Stands.operation (h : x.Stands t L) {op : BinOp} {left right : Expr} {pos : Position}
    (hx : x.expr = .binary op left right pos) {place : Nat} {i : Instr}
    (hi : L.Has place [.instr i]) (hlo : x.start + (left.width t + right.width t) ≤ place)
    (hhi : place < x.stop t) : i ≠ .plain .call ∧ i ≠ .plain .print := by
  obtain ⟨lines, hcode, hlines⟩ := h
  rw [stop, ← hcode.sizes] at hhi
  rw [hx] at hcode
  obtain ⟨operands, rest, rfl, hsizes, hrest⟩ := hcode.operation
  rw [Line.sizes_append] at hhi
  obtain ⟨before, after, rfl, -⟩ := hlines.right.locate hi (by omega) (by omega)
  exact hrest i (List.mem_append_right _ List.mem_cons_self)

end Site

end Classlet
