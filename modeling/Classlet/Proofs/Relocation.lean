import Classlet.Proofs.Labels
import Classlet.Proofs.Snapshot
import Classlet.Proofs.Words

/-!
Code for memories of two sizes. The size of the memory is in the code in one place only:
`new` pushes the address of the slot of a class, which is told from the end of the memory,
and loads from it at once. No other load comes right after a push. So the code for one
memory tells which of its words have to be changed to make it code for another: relocated
by the difference of the sizes, it is what is generated for the other memory, label by
label and place by place.
-/

namespace Classlet

open Code

namespace Line

def isLoad : Line → Bool
  | .instr (.plain .load) => true
  | _ => false

/-- Whether lines begin with a load, so that a push right before them is a slot. -/
def loadsFirst : List Line → Bool
  | [] => false
  | line :: _ => line.isLoad

/-- A line, moved by the difference of two sizes if it pushes a word and a load is next. -/
def relocate (d : Word) : Line → (next : Bool) → Line
  | .instr (.push w), true => .instr (.push (w + d))
  | line, _ => line

/-- Lines with all slots moved. -/
def relocateAll (d : Word) : List Line → List Line
  | [] => []
  | line :: after => line.relocate d (loadsFirst after) :: relocateAll d after

/-- The second lines are the first ones with all slots moved, and no push before them is a
slot. -/
structure Relocates (d : Word) (a b : List Line) : Prop where
  eq : b = relocateAll d a
  separate : loadsFirst a = false

variable {d : Word}

theorem size_relocate (line : Line) (next : Bool) :
    (line.relocate d next).size = line.size := by
  unfold relocate
  split <;> rfl

theorem sizes_relocateAll (lines : List Line) : sizes (relocateAll d lines) = sizes lines := by
  induction lines with
  | nil => rfl
  | cons line after ih => rw [relocateAll, sizes_cons, sizes_cons, size_relocate, ih]

theorem relocate_eq_label_iff (next : Bool) {line : Line} {l : Label} :
    line.relocate d next = .label l ↔ line = .label l := by
  unfold relocate
  split
  · exact ⟨nofun, nofun⟩
  · exact Iff.rfl

theorem relocate_false (line : Line) : line.relocate d false = line := by
  unfold relocate
  split
  · contradiction
  · rfl

theorem loadsFirst_eq_true {lines : List Line} (h : loadsFirst lines = true) :
    ∃ rest, lines = .instr (.plain .load) :: rest := by
  cases lines with
  | nil => cases h
  | cons line rest =>
    rw [loadsFirst] at h
    unfold isLoad at h
    split at h
    · exact ⟨rest, rfl⟩
    · cases h

theorem loadsFirst_append (a : List Line) {b : List Line} (hb : loadsFirst b = false) :
    loadsFirst (a ++ b) = loadsFirst a := by
  cases a with
  | nil => exact hb
  | cons line a => rfl

theorem relocateAll_append (a : List Line) {b : List Line} (hb : loadsFirst b = false) :
    relocateAll d (a ++ b) = relocateAll d a ++ relocateAll d b := by
  induction a with
  | nil => rfl
  | cons line a ih =>
    rw [List.cons_append, relocateAll, relocateAll, ih, loadsFirst_append a hb, List.cons_append]

/-- Whatever comes before, the lines after it are moved alike. -/
theorem exists_relocateAll_append (a b : List Line) :
    ∃ a', relocateAll d (a ++ b) = a' ++ relocateAll d b ∧ sizes a' = sizes a := by
  induction a with
  | nil => exact ⟨[], rfl, rfl⟩
  | cons line a ih =>
    obtain ⟨a', hall, hsizes⟩ := ih
    refine ⟨line.relocate d (loadsFirst (a ++ b)) :: a', ?_, ?_⟩
    · rw [List.cons_append, relocateAll, hall, List.cons_append]
    · rw [sizes_cons, sizes_cons, size_relocate, hsizes]

theorem Relocates.nil : Relocates d [] [] := ⟨rfl, rfl⟩

theorem Relocates.append {a a' b b' : List Line} (ha : Relocates d a a')
    (hb : Relocates d b b') : Relocates d (a ++ b) (a' ++ b') := by
  refine ⟨?_, ?_⟩
  · rw [relocateAll_append a hb.separate, ha.eq, hb.eq]
  · rw [loadsFirst_append a hb.separate, ha.separate]

theorem Relocates.flatten {as bs : List (List Line)} (h : List.Forall₂ (Relocates d) as bs) :
    Relocates d as.flatten bs.flatten := by
  induction h with
  | nil => exact .nil
  | cons hab _ ih => exact hab.append ih

/-- Code without a push has no slots. -/
theorem relocateAll_plain (ops : List PlainOp) (after : List Line) :
    relocateAll d (instrs (ops.map .plain) ++ after) =
      instrs (ops.map .plain) ++ relocateAll d after := by
  induction ops with
  | nil => rfl
  | cons op ops ih => exact congrArg (.instr (.plain op) :: ·) ih

theorem relocates_plain (ops : List PlainOp)
    (h : loadsFirst (instrs (ops.map .plain)) = false) :
    Relocates d (instrs (ops.map .plain)) (instrs (ops.map .plain)) := by
  have hall := relocateAll_plain (d := d) ops []
  rw [List.append_nil, relocateAll, List.append_nil] at hall
  exact ⟨hall.symm, h⟩

theorem relocates_pushFrame (distance : Nat) :
    Relocates d (instrs (pushFrame distance)) (instrs (pushFrame distance)) := by
  have hops : pushFrame distance =
      (.pushReg .fp :: List.replicate distance .load).map .plain := by
    simp [pushFrame]
  rw [hops]
  exact relocates_plain _ rfl

theorem relocates_loadAt (offset : Int) :
    Relocates d (instrs (loadAt offset)) (instrs (loadAt offset)) := ⟨rfl, rfl⟩

theorem relocates_moves (n : Nat) :
    Relocates d (instrs (List.replicate n moveToHeap).flatten)
      (instrs (List.replicate n moveToHeap).flatten) := by
  induction n with
  | zero => exact .nil
  | succ n ih =>
    rw [List.replicate_succ, List.flatten_cons, instrs_append]
    exact .append ⟨rfl, rfl⟩ ih

/-- The slot of a class, the only place where the size of the memory is in the code. -/
theorem relocates_allocate (n : Nat) (size offset : Word) :
    Relocates d (instrs (allocate n (size + offset)))
      (instrs (allocate n (size + d + offset))) := by
  have hrest : Relocates d
      (instrs ([Instr.push (size + offset), .plain .load, .plain (.pushReg .hp), .plain .store,
        .plain (.pushReg .hp)] ++ growHeap))
      (instrs ([Instr.push (size + offset + d), .plain .load, .plain (.pushReg .hp), .plain .store,
        .plain (.pushReg .hp)] ++ growHeap)) := ⟨rfl, rfl⟩
  rw [allocate, allocate, List.append_assoc, List.append_assoc, instrs_append _ (_ ++ growHeap),
    instrs_append _ (_ ++ growHeap), Word.add_right_comm size d]
  exact (relocates_moves n).append hrest

theorem relocates_callAt (e : Entry) :
    Relocates d (instrs (callAt e)) (instrs (callAt e)) := by
  unfold callAt
  split <;> exact ⟨rfl, rfl⟩

theorem relocates_returnCode (params locals : Nat) :
    Relocates d (instrs (Emit.returnCode params locals))
      (instrs (Emit.returnCode params locals)) := by
  have hops : Emit.returnCode params locals =
      (PlainOp.popReg .tm :: (List.replicate locals PlainOp.pop ++
        [PlainOp.popReg .ra, .pop] ++ List.replicate params PlainOp.pop ++
        [PlainOp.popReg .fp, .pushReg .tm, .pushReg .ra, .call])).map .plain := by
    simp [Emit.returnCode]
  rw [hops]
  exact relocates_plain _ rfl

theorem relocates_layout (c : ClassCode) :
    Relocates d (instrs c.layout) (instrs c.layout) := by
  obtain ⟨methods, table⟩ := c
  have hentries : Relocates d (instrs (table.flatMap fun l => .pushLabel l :: moveToHeap))
      (instrs (table.flatMap fun l => .pushLabel l :: moveToHeap)) := by
    induction table with
    | nil => exact .nil
    | cons l table ih =>
      rw [List.flatMap_cons, instrs_append]
      exact .append ⟨rfl, rfl⟩ ih
  exact Relocates.append (a := [.instr (.plain (.pushReg .hp))]) ⟨rfl, rfl⟩ hentries

end Line

open Line (Relocates)

/-! Two generations of code. -/

/-- The second computation does what the first one does, from states and with results
that are related. -/
def Mimics {σ α : Type} (S : σ → σ → Prop) (R : α → α → Prop)
    (m m' : StateT σ (Except GenerationError) α) : Prop :=
  ∀ s s' a s₁, S s s' → m.run s = .ok (a, s₁) →
    ∃ b s₁', m'.run s' = .ok (b, s₁') ∧ R a b ∧ S s₁ s₁'

namespace Mimics

variable {σ α β : Type} {S : σ → σ → Prop} {R : α → α → Prop}

theorem pure {a b : α} (h : R a b) :
    Mimics S R (Pure.pure a : StateT σ (Except GenerationError) α) (Pure.pure b) := by
  intro s s' _ _ hs hr
  cases hr
  exact ⟨b, s', rfl, h, hs⟩

theorem bind {R' : β → β → Prop} {m m' : StateT σ (Except GenerationError) α}
    {f f' : α → StateT σ (Except GenerationError) β} (hm : Mimics S R m m')
    (hf : ∀ a b, R a b → Mimics S R' (f a) (f' b)) : Mimics S R' (m >>= f) (m' >>= f') := by
  intro s s' c s₂ hs hr
  obtain ⟨a, s₁, ha, hc⟩ := run_bind_ok hr
  obtain ⟨b, s₁', hb, hab, hs₁⟩ := hm s s' a s₁ hs ha
  obtain ⟨c', s₂', hc', hcc, hs₂⟩ := hf a b hab s₁ s₁' c s₂ hs₁ hc
  refine ⟨c', s₂', ?_, hcc, hs₂⟩
  rw [StateT.run_bind, hb]
  exact hc'

/-- Computations that have the same results go on alike. -/
theorem bind_eq {R' : β → β → Prop} {m m' : StateT σ (Except GenerationError) α}
    {f f' : α → StateT σ (Except GenerationError) β} (hm : Mimics S Eq m m')
    (hf : ∀ a, Mimics S R' (f a) (f' a)) : Mimics S R' (m >>= f) (m' >>= f') :=
  hm.bind fun a _ hab => hab ▸ hf a

/-- A computation does what it does itself. -/
theorem self (m : StateT σ (Except GenerationError) α) : Mimics Eq Eq m m := by
  rintro s _ a s₁ rfl hr
  exact ⟨a, s₁, hr, rfl, rfl⟩

/-- A first computation that both have in common. -/
theorem bind_self {R' : β → β → Prop} {m : StateT σ (Except GenerationError) α}
    {f f' : α → StateT σ (Except GenerationError) β} (hf : ∀ a, Mimics Eq R' (f a) (f' a)) :
    Mimics Eq R' (m >>= f) (m >>= f') := (self m).bind_eq hf

theorem update {f : σ → σ} (h : ∀ s s', S s s' → S (f s) (f s')) :
    Mimics S Eq (modify f : StateT σ (Except GenerationError) PUnit) (modify f) := by
  intro s s' _ _ hs hr
  cases hr
  exact ⟨_, f s', rfl, rfl, h s s' hs⟩

theorem fail (e : GenerationError) (m : StateT σ (Except GenerationError) α) :
    Mimics S R (throw e) m := by
  intro s s' _ _ _ hr
  cases hr

end Mimics

namespace Code

variable {d : Word} {g g' h h' k k' : Gen (List Line)}

theorem mimics_comparison (test : JumpTest) (hg : Mimics Eq (Relocates d) g g')
    (hh : Mimics Eq (Relocates d) h h') :
    Mimics Eq (Relocates d) (comparison test g h) (comparison test g' h') := by
  refine .bind_self fun yes => .bind_self fun done => ?_
  refine hg.bind fun a a' ha => hh.bind fun b b' hb => ?_
  have htest := (ha.append hb).append (b := instrs [.jump test yes, .push 0, .jump .always done])
    ⟨rfl, rfl⟩
  exact .pure (htest.append ⟨rfl, rfl⟩)

theorem mimics_arithmetic (op : Arith) (hg : Mimics Eq (Relocates d) g g')
    (hh : Mimics Eq (Relocates d) h h') :
    Mimics Eq (Relocates d) (arithmetic op g h) (arithmetic op g' h') :=
  hg.bind fun _ _ ha => hh.bind fun _ _ hb => .pure ((ha.append hb).append ⟨rfl, rfl⟩)

theorem mimics_disjunction (hg : Mimics Eq (Relocates d) g g')
    (hh : Mimics Eq (Relocates d) h h') :
    Mimics Eq (Relocates d) (disjunction g h) (disjunction g' h') := by
  refine .bind_self fun no => .bind_self fun done => hg.bind fun a a' ha =>
    hh.bind fun b b' hb => ?_
  have htest := (ha.append hb).append
    (b := instrs [.plain (.arith .add), .push 0, .jump .equal no, .push 1, .jump .always done])
    ⟨rfl, rfl⟩
  exact .pure (htest.append ⟨rfl, rfl⟩)

theorem mimics_binary (op : BinOp) (hg : Mimics Eq (Relocates d) g g')
    (hh : Mimics Eq (Relocates d) h h') :
    Mimics Eq (Relocates d) (binary op g h) (binary op g' h') := by
  cases op with
  | equal | lessEqual => exact mimics_comparison _ hg hh
  | greaterEqual => exact mimics_comparison _ hh hg
  | or => exact mimics_disjunction hg hh
  | and | add | sub | mul | div => exact mimics_arithmetic _ hg hh

theorem mimics_conditional (hg : Mimics Eq (Relocates d) g g')
    (hh : Mimics Eq (Relocates d) h h') (hk : Mimics Eq (Relocates d) k k') :
    Mimics Eq (Relocates d) (conditional g h k) (conditional g' h' k') := by
  refine .bind_self fun yes => .bind_self fun done => hg.bind fun a a' ha => ?_
  refine hk.bind fun c c' hc => hh.bind fun b b' hb => .pure ?_
  have htest := ha.append (b := instrs [.push 1, .jump .equal yes]) ⟨rfl, rfl⟩
  have hno := (htest.append hc).append (b := instrs [.jump .always done]) ⟨rfl, rfl⟩
  have hyes := (hno.append (b := [.label yes]) ⟨rfl, rfl⟩).append hb
  exact hyes.append ⟨rfl, rfl⟩

variable {b : Bindings} {size : Word}

theorem mimics_ofArgs {args : List Expr}
    (h : ∀ a ∈ args, Mimics Eq (Relocates d) (ofExpr ⟨b, size⟩ a) (ofExpr ⟨b, size + d⟩ a)) :
    Mimics Eq (Relocates d) (ofArgs ⟨b, size⟩ args) (ofArgs ⟨b, size + d⟩ args) := by
  induction args with
  | nil => exact .pure .nil
  | cons e es ih =>
    refine (h e List.mem_cons_self).bind fun a a' ha => ?_
    refine (ih fun x hx => h x (List.mem_cons_of_mem _ hx)).bind fun b b' hb => ?_
    exact .pure (ha.append hb)

theorem mimics_ofArgsBackwards {args : List Expr}
    (h : ∀ a ∈ args, Mimics Eq (Relocates d) (ofExpr ⟨b, size⟩ a) (ofExpr ⟨b, size + d⟩ a)) :
    Mimics Eq (Relocates d) (ofArgsBackwards ⟨b, size⟩ args)
      (ofArgsBackwards ⟨b, size + d⟩ args) := by
  induction args with
  | nil => exact .pure .nil
  | cons e es ih =>
    refine (ih fun x hx => h x (List.mem_cons_of_mem _ hx)).bind fun a a' ha => ?_
    refine (h e List.mem_cons_self).bind fun b b' hb => ?_
    exact .pure (ha.append hb)

/-- The code of an expression for another memory is the same with the slots moved. -/
theorem mimics_ofExpr (e : Expr) :
    Mimics Eq (Relocates d) (ofExpr ⟨b, size⟩ e) (ofExpr ⟨b, size + d⟩ e) := by
  induction e with
  | lit value pos => exact .pure ⟨rfl, rfl⟩
  | name id x pos =>
    unfold ofExpr
    refine .bind_self fun used => .pure ?_
    rw [instrs_append]
    exact (Line.relocates_pushFrame _).append (Line.relocates_loadAt _)
  | binary op left right pos ihl ihr =>
    unfold ofExpr
    exact mimics_binary op ihl ihr
  | not operand pos ih =>
    unfold ofExpr
    exact ih.bind fun a a' ha => .pure (ha.append ⟨rfl, rfl⟩)
  | cond test yes no pos iht ihy ihn =>
    unfold ofExpr
    exact mimics_conditional iht ihy ihn
  | print operand pos ih =>
    unfold ofExpr
    exact ih.bind fun a a' ha => .pure (ha.append ⟨rfl, rfl⟩)
  | call id callee args pos ih =>
    unfold ofExpr
    refine .bind_self fun used => (mimics_ofArgsBackwards ih).bind fun a a' ha => .pure ?_
    have hfront := Relocates.append (a := instrs [.plain (.pushReg .fp)]) ⟨rfl, rfl⟩ ha
    rw [instrs_append]
    exact hfront.append ((Line.relocates_pushFrame _).append (Line.relocates_callAt used.2))
  | send id receiver method args pos ih =>
    unfold ofExpr
    refine .bind_self fun u => .bind_self fun r => .bind_self fun m => ?_
    refine (mimics_ofArgsBackwards ih).bind fun a a' ha => .pure ?_
    have hfront := Relocates.append (a := instrs [.plain (.pushReg .fp)]) ⟨rfl, rfl⟩ ha
    rw [instrs_append, instrs_append]
    exact hfront.append (((Line.relocates_pushFrame _).append (Line.relocates_loadAt _)).append
      ⟨rfl, rfl⟩)
  | new id cls args pos ih =>
    unfold ofExpr
    refine .bind_self fun used => (mimics_ofArgs ih).bind fun a a' ha => .pure ?_
    exact ha.append (Line.relocates_allocate _ _ _)

end Code

/-- A draft for another memory. -/
structure Draft.Relocates (d : Word) (x y : Draft) : Prop where
  labels : y.labels = x.labels
  outer : Line.Relocates d x.outer y.outer
  opened : List.Forall₂ (Line.Relocates d) x.opened y.opened
  closed : Line.Relocates d x.closed y.closed

namespace Draft.Relocates

variable {d : Word} {x y : Draft}

theorem write (h : x.Relocates d y) {a b : List Line} (hab : Line.Relocates d a b) :
    (x.write a).Relocates d (y.write b) := by
  obtain ⟨labels, outer, opened, closed⟩ := x
  obtain ⟨labels', outer', opened', closed'⟩ := y
  obtain ⟨hlabels, houter, hopened, hclosed⟩ := h
  cases hopened with
  | nil => exact ⟨hlabels, houter.append hab, .nil, hclosed⟩
  | cons hblock hrest => exact ⟨hlabels, houter, .cons (hblock.append hab) hrest, hclosed⟩

theorem openBlock (h : x.Relocates d y) : x.openBlock.Relocates d y.openBlock :=
  ⟨h.labels, h.outer, .cons .nil h.opened, h.closed⟩

theorem closeBlock (h : x.Relocates d y) (l : Label) :
    (x.closeBlock l).Relocates d (y.closeBlock l) := by
  obtain ⟨labels, outer, opened, closed⟩ := x
  obtain ⟨labels', outer', opened', closed'⟩ := y
  obtain ⟨hlabels, houter, hopened, hclosed⟩ := h
  cases hopened with
  | nil => exact ⟨hlabels, houter, .nil, hclosed.append ⟨rfl, rfl⟩⟩
  | cons hblock hrest =>
    have hlabel := Line.Relocates.append (a := [.label l]) ⟨rfl, rfl⟩ hblock
    exact ⟨hlabels, houter, hrest, hclosed.append hlabel⟩

theorem finish (h : x.Relocates d y) : y.finish.lines = Line.relocateAll d x.finish.lines :=
  ((h.outer.append (.flatten h.opened)).append h.closed).eq

end Draft.Relocates

namespace Emit

variable {d : Word}

theorem mimics_code {g g' : Gen (List Line)} (hg : Mimics Eq (Relocates d) g g') :
    Mimics (Draft.Relocates d) Eq (code g) (code g') := by
  intro x y _ x₁ hxy hr
  rw [run_code] at hr
  rcases hrun : g.run x.labels with e | ⟨a, labels⟩
  · rw [hrun] at hr
    cases hr
  · rw [hrun] at hr
    cases hr
    obtain ⟨b, _, hb, hab, rfl⟩ := hg _ _ _ _ rfl hrun
    refine ⟨(), { y with labels }.write b, ?_, rfl, ?_⟩
    · rw [run_code, hxy.labels, hb]
      rfl
    · have hfresh : Draft.Relocates d { x with labels } { y with labels } :=
        ⟨rfl, hxy.outer, hxy.opened, hxy.closed⟩
      exact hfresh.write hab

theorem mimics_instrs (is : List Instr) (h : Relocates d (Code.instrs is) (Code.instrs is)) :
    Mimics (Draft.Relocates d) Eq (instrs is) (instrs is) :=
  .update fun _ _ hxy => hxy.write h

theorem mimics_takeFunction :
    Mimics (Draft.Relocates d) Eq (modifyGet Draft.takeFunction : Emit Label)
      (modifyGet Draft.takeFunction) := by
  intro x y _ _ hxy hr
  cases hr
  refine ⟨y.takeFunction.1, y.takeFunction.2, rfl, ?_, ?_, hxy.outer, hxy.opened, hxy.closed⟩
  · exact congrArg (·.takeFunction.1) hxy.labels.symm
  · exact congrArg (·.takeFunction.2) hxy.labels

theorem mimics_routine (params locals : Nat) {ds ds' : Emit Unit} {body body' : Gen (List Line)}
    (hds : Mimics (Draft.Relocates d) Eq ds ds') (hbody : Mimics Eq (Relocates d) body body') :
    Mimics (Draft.Relocates d) Eq (routine params locals ds body)
      (routine params locals ds' body') := by
  refine (Mimics.update fun _ _ hxy => hxy.openBlock).bind_eq fun _ => ?_
  refine (mimics_instrs [.plain .setFrame, .plain (.pushReg .ra)] ⟨rfl, rfl⟩).bind_eq fun _ => ?_
  refine hds.bind_eq fun _ => ?_
  refine mimics_takeFunction.bind_eq fun l => ?_
  refine (mimics_code hbody).bind_eq fun _ => ?_
  refine (mimics_instrs _ (Line.relocates_returnCode _ _)).bind_eq fun _ => ?_
  exact (Mimics.update fun _ _ hxy => hxy.closeBlock l).bind_eq fun _ => .pure rfl

variable {b : Bindings} {size : Word}

theorem mimics_decls :
    (∀ x : Decl, Mimics (Draft.Relocates d) Eq (decl ⟨b, size⟩ x) (decl ⟨b, size + d⟩ x)) ∧
    ∀ ds : List Decl, Mimics (Draft.Relocates d) Eq (decls ⟨b, size⟩ ds)
      (decls ⟨b, size + d⟩ ds) := by
  apply Decl.induction
  · intro id name type init pos
    exact mimics_code (Code.mimics_ofExpr init)
  · intro id name params ret ds body pos ih
    refine (mimics_routine _ _ ih (Code.mimics_ofExpr body)).bind_eq fun l => ?_
    exact mimics_instrs [.pushLabel l] ⟨rfl, rfl⟩
  · exact .pure rfl
  · intro x ds ihx ihds
    exact ihx.bind_eq fun _ => ihds

theorem mimics_methods (ms : List MethodDecl) :
    Mimics (Draft.Relocates d) Eq (methods ⟨b, size⟩ ms) (methods ⟨b, size + d⟩ ms) := by
  induction ms with
  | nil => exact .pure rfl
  | cons m ms ih =>
    unfold methods
    cases b.slots[m.id]? with
    | none => exact .fail _ _
    | some slot =>
      refine Mimics.bind_eq (mimics_routine _ _ (mimics_decls.2 m.decls)
        (Code.mimics_ofExpr m.body)) fun l => ?_
      exact ih.bind_eq fun rest => .pure rfl

theorem mimics_inheritedTable (h : Ancestry) (done : Classes) (c : ClassDecl) :
    Mimics (Draft.Relocates d) Eq (inheritedTable h done c) (inheritedTable h done c) := by
  unfold inheritedTable
  split
  · exact .pure rfl
  · split
    · exact .pure rfl
    · exact .fail _ _

theorem mimics_classes (h : Ancestry) (cs : List ClassDecl) :
    ∀ done, Mimics (Draft.Relocates d) Eq (classes ⟨b, size⟩ h cs done)
      (classes ⟨b, size + d⟩ h cs done) := by
  induction cs with
  | nil => exact fun done => .pure rfl
  | cons c cs ih =>
    intro done
    unfold classes
    refine (mimics_inheritedTable h done c).bind_eq fun inherited => ?_
    refine (mimics_methods c.methods).bind_eq fun ms => ?_
    exact (mimics_instrs _ (Line.relocates_layout _)).bind_eq fun _ => ih _

theorem mimics_program (h : Ancestry) (p : Program) :
    Mimics (Draft.Relocates d) Eq (program ⟨b, size⟩ h p) (program ⟨b, size + d⟩ h p) := by
  have hend : Mimics (Draft.Relocates d) Eq
      (do code (Code.ofExpr ⟨b, size⟩ p.body); instrs [.plain .halt])
      (do code (Code.ofExpr ⟨b, size + d⟩ p.body); instrs [.plain .halt]) :=
    (mimics_code (Code.mimics_ofExpr p.body)).bind_eq fun _ =>
      mimics_instrs [.plain .halt] ⟨rfl, rfl⟩
  unfold program
  simp only
  split
  · refine (mimics_instrs [.push 0] ⟨rfl, rfl⟩).bind_eq fun _ => ?_
    refine (mimics_classes h p.classes ∅).bind_eq fun _ => ?_
    exact (mimics_decls.2 p.decls).bind_eq fun _ => hend
  · exact hend

end Emit

/-- The listing with all slots moved. -/
def Listing.relocate (d : Word) (L : Listing) : Listing := ⟨Line.relocateAll d L.lines⟩

/-- The code of a program for another memory is the same with the slots moved. -/
theorem Program.generate_relocate {p : Program} {b : Bindings} {size : Word} {h : Ancestry}
    {L : Listing} (hg : p.generate ⟨b, size⟩ h = .ok L) (d : Word) :
    p.generate ⟨b, size + d⟩ h = .ok (L.relocate d) := by
  unfold Program.generate at hg ⊢
  rcases hr : (Emit.program ⟨b, size⟩ h p).run {} with e | ⟨⟨⟩, x⟩
  · rw [hr] at hg
    cases hg
  · rw [hr] at hg
    cases hg
    have hempty : Draft.Relocates d {} {} := ⟨rfl, .nil, .nil, .nil⟩
    obtain ⟨_, y, hy, -, hxy⟩ := Emit.mimics_program h p _ _ _ _ hempty hr
    rw [hy]
    exact congrArg (fun lines => Except.ok (Listing.mk lines)) hxy.finish

/-! What is where in the code for another memory. -/

namespace Listing

variable {L : Listing} {d : Word} {pos : Nat}

theorem position_relocate (l : Label) : (L.relocate d).position l = L.position l := by
  have htake : ∀ lines : List Line,
      Line.sizes ((Line.relocateAll d lines).takeWhile fun line => line != .label l) =
        Line.sizes (lines.takeWhile fun line => line != .label l) := by
    intro lines
    induction lines with
    | nil => rfl
    | cons line after ih =>
      rw [Line.relocateAll, List.takeWhile_cons, List.takeWhile_cons]
      by_cases hline : line = .label l
      · have hmoved := (Line.relocate_eq_label_iff (d := d) (Line.loadsFirst after)).mpr hline
        rw [hmoved, hline]
        simp
      · have hmoved := mt (Line.relocate_eq_label_iff (d := d) (Line.loadsFirst after)).mp hline
        simp [hline, hmoved, Line.size_relocate, ih]
  exact htake L.lines

theorem address_relocate (l : Label) : (L.relocate d).address l = L.address l :=
  congrArg Int64.ofNat (position_relocate l)

theorem length_code_relocate : (L.relocate d).code.length = L.code.length := by
  rw [code, code, Line.length_flatMap_words, Line.length_flatMap_words]
  exact Line.sizes_relocateAll L.lines

/-- What is at a place, with what comes after it, is there in the other code too. -/
theorem Has.relocate {lines : List Line} (h : L.Has pos lines) :
    ∃ after, L.Has pos (lines ++ after) ∧
      (L.relocate d).Has pos (Line.relocateAll d (lines ++ after)) := by
  obtain ⟨before, after, hL, hpos⟩ := h
  obtain ⟨before', hbefore, hsizes⟩ :=
    Line.exists_relocateAll_append (d := d) before (lines ++ after)
  refine ⟨after, ⟨before, [], by rw [hL, List.append_nil], hpos⟩, before', [], ?_, ?_⟩
  · rw [List.append_nil, ← hbefore, ← hL]
    rfl
  · rw [hsizes, hpos]

/-- Code without a push is the same for every memory. -/
theorem Has.relocate_plain (ops : List PlainOp)
    (h : L.Has pos (Code.instrs (ops.map .plain))) :
    (L.relocate d).Has pos (Code.instrs (ops.map .plain)) := by
  obtain ⟨after, -, hmoved⟩ := h.relocate (d := d)
  rw [Line.relocateAll_plain] at hmoved
  exact hmoved.left

/-- A slot is moved. -/
theorem Has.relocate_slot {w : Word} (h : L.Has pos (Code.instrs [.push w, .plain .load])) :
    (L.relocate d).Has pos (Code.instrs [.push (w + d), .plain .load]) := by
  obtain ⟨after, -, hmoved⟩ := h.relocate (d := d)
  exact Has.left (a := Code.instrs [.push (w + d), .plain .load]) hmoved

/-- An instruction is the same for every memory, unless it is a slot. -/
theorem Has.relocate_instr {i : Instr} (h : L.Has pos [.instr i]) :
    (L.relocate d).Has pos [.instr i] ∨
      ∃ w, i = .push w ∧ L.Has pos (Code.instrs [.push w, .plain .load]) := by
  obtain ⟨after, hafter, hmoved⟩ := h.relocate (d := d)
  rw [List.singleton_append, Line.relocateAll] at hmoved
  have hline := Has.left (a := [Line.relocate d (.instr i) (Line.loadsFirst after)]) hmoved
  cases hload : Line.loadsFirst after with
  | true =>
    obtain ⟨rest, rfl⟩ := Line.loadsFirst_eq_true hload
    cases i with
    | pushLabel l | plain op | jump test l => exact Or.inl hline
    | push w => exact Or.inr ⟨w, rfl, Has.left (a := Code.instrs [.push w, .plain .load]) hafter⟩
  | false =>
    rw [hload, Line.relocate_false] at hline
    exact Or.inl hline

end Listing

end Classlet
