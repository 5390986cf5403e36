import Classlet.Proofs.Shape

/-!
Where generated code jumps. In the code of an expression each label is jumped to just
once, and from within; the addresses that are pushed are those of functions. So the code
outside of the blocks and each block are closed under jumps, and every label that a
listing refers to is placed in it.
-/

namespace Classlet

/-- The label that an instruction jumps to. -/
def Instr.jumped? : Instr → Option Label
  | .jump _ l => some l
  | .push _ | .pushLabel _ | .plain _ => none

/-- The label whose address an instruction pushes. -/
def Instr.pushed? : Instr → Option Label
  | .pushLabel l => some l
  | .push _ | .plain _ | .jump _ _ => none

namespace Line

/-- The labels that lines refer to in one way. -/
def refs (f : Instr → Option Label) (lines : List Line) : List Label :=
  (lines.filterMap Line.instr?).filterMap f

section

variable (f : Instr → Option Label)

@[simp] theorem refs_nil : refs f [] = [] := rfl

@[simp] theorem refs_append (a b : List Line) : refs f (a ++ b) = refs f a ++ refs f b := by
  simp [refs]

@[simp] theorem refs_label (l : Label) (rest : List Line) :
    refs f (.label l :: rest) = refs f rest := rfl

@[simp] theorem refs_instr (i : Instr) (rest : List Line) :
    refs f (.instr i :: rest) = (f i).toList ++ refs f rest := by
  cases h : f i <;> simp [refs, Line.instr?, h]

theorem refs_instrs (is : List Instr) : refs f (Code.instrs is) = is.filterMap f := by
  induction is with
  | nil => rfl
  | cons i is ih =>
    simp only [Code.instrs, List.map_cons] at ih ⊢
    rw [refs_instr, ih]
    cases h : f i <;> simp [h]

end

/-- Each label of the lines is jumped to once, and they refer to no label in another
way. -/
structure Paired (lines : List Line) : Prop where
  pushed : refs Instr.pushed? lines = []
  jumps : ∀ l, (refs Instr.jumped? lines).count l = (labels lines).count l

variable {a b c : List Line}

theorem Paired.append (ha : Paired a) (hb : Paired b) : Paired (a ++ b) := by
  refine ⟨?_, fun l => ?_⟩
  · rw [refs_append, ha.pushed, hb.pushed, List.append_nil]
  · rw [refs_append, labels_append, List.count_append, List.count_append, ha.jumps, hb.jumps]

/-- Instructions that refer to no label neither push nor jump to one. -/
theorem pushed_of_target {is : List Instr} (h : is.filterMap Instr.target? = []) :
    is.filterMap Instr.pushed? = [] := by
  rw [List.filterMap_eq_nil_iff] at h ⊢
  intro i hi
  cases i with
  | pushLabel l => cases h _ hi
  | push w | plain op | jump test l => rfl

theorem jumped_of_target {is : List Instr} (h : is.filterMap Instr.target? = []) :
    is.filterMap Instr.jumped? = [] := by
  rw [List.filterMap_eq_nil_iff] at h ⊢
  intro i hi
  cases i with
  | jump test l => cases h _ hi
  | push w | plain op | pushLabel l => rfl

theorem paired_instrs {is : List Instr} (h : is.filterMap Instr.target? = []) :
    Paired (Code.instrs is) := by
  refine ⟨?_, fun l => ?_⟩
  · rw [refs_instrs, pushed_of_target h]
  · rw [refs_instrs, labels_instrs, jumped_of_target h]

theorem paired_nil : Paired [] := ⟨rfl, fun _ => rfl⟩

theorem paired_flatten {codes : List (List Line)} (h : ∀ a ∈ codes, Paired a) :
    Paired codes.flatten := by
  induction codes with
  | nil => exact paired_nil
  | cons a codes ih =>
    exact (h a List.mem_cons_self).append (ih fun b hb => h b (List.mem_cons_of_mem _ hb))

end Line

namespace Code

open Line (Paired paired_instrs)

variable {a b c : List Line}

theorem paired_comparisonLines (test : JumpTest) (yes done : Label) (ha : Paired a)
    (hb : Paired b) : Paired (comparisonLines test yes done a b) := by
  refine ⟨?_, fun l => ?_⟩
  · simp [comparisonLines, Line.refs_instrs, ha.pushed, hb.pushed, Instr.pushed?,
      List.filterMap_cons]
  · simp [comparisonLines, Line.refs_instrs, ha.jumps, hb.jumps, Instr.jumped?,
      List.filterMap_cons, List.count_append]

theorem paired_disjunctionLines (no done : Label) (ha : Paired a) (hb : Paired b) :
    Paired (disjunctionLines no done a b) := by
  refine ⟨?_, fun l => ?_⟩
  · simp [disjunctionLines, Line.refs_instrs, ha.pushed, hb.pushed, Instr.pushed?,
      List.filterMap_cons]
  · simp [disjunctionLines, Line.refs_instrs, ha.jumps, hb.jumps, Instr.jumped?,
      List.filterMap_cons, List.count_append]

theorem paired_conditionalLines (yes done : Label) (ha : Paired a) (hb : Paired b)
    (hc : Paired c) : Paired (conditionalLines yes done a b c) := by
  refine ⟨?_, fun l => ?_⟩
  · simp [conditionalLines, Line.refs_instrs, ha.pushed, hb.pushed, hc.pushed, Instr.pushed?,
      List.filterMap_cons]
  · simp only [conditionalLines, Line.refs_append, Line.labels_append, Line.refs_instrs,
      Line.labels_instrs, Line.refs_label, Line.labels_label, Line.refs_nil, Line.labels_nil,
      List.count_append, ha.jumps, hb.jumps, hc.jumps, Instr.jumped?, List.filterMap_cons,
      List.filterMap_nil, List.count_nil]
    omega

/-- In the code of an expression each label is jumped to once. -/
theorem paired_of_codeOf {t : Target} {e : Expr} {lines : List Line} (h : CodeOf t e lines) :
    Paired lines := by
  induction e generalizing lines with
  | lit value pos =>
    cases h
    exact paired_instrs rfl
  | name id x pos =>
    cases h
    exact paired_instrs (target_load _ _)
  | binary op left right pos ihl ihr =>
    cases h with
    | equal ha hb => exact paired_comparisonLines _ _ _ (ihl ha) (ihr hb)
    | lessEqual ha hb => exact paired_comparisonLines _ _ _ (ihl ha) (ihr hb)
    | greaterEqual ha hb => exact paired_comparisonLines _ _ _ (ihr hb) (ihl ha)
    | or ha hb => exact paired_disjunctionLines _ _ (ihl ha) (ihr hb)
    | arith _ ha hb => exact ((ihl ha).append (ihr hb)).append (paired_instrs rfl)
  | not operand pos ih =>
    cases h with
    | not ha => exact (ih ha).append (paired_instrs rfl)
  | cond test yes no pos iht ihy ihn =>
    cases h with
    | cond ha hb hc => exact paired_conditionalLines _ _ (iht ha) (ihy hb) (ihn hc)
  | print operand pos ih =>
    cases h with
    | print ha => exact (ih ha).append (paired_instrs rfl)
  | call id callee args pos ih =>
    cases h with
    | call hu hargs =>
      have hcode := Line.paired_flatten fun a ha =>
        forall_codes hargs ih a (List.mem_reverse.mp ha)
      exact ((paired_instrs rfl).append hcode).append (paired_instrs (target_callee _ _))
  | send id receiver method args pos ih =>
    cases h with
    | send hu hr hm hargs =>
      have hcode := Line.paired_flatten fun a ha =>
        forall_codes hargs ih a (List.mem_reverse.mp ha)
      exact ((paired_instrs rfl).append hcode).append (paired_instrs (target_receiver _ _ _))
  | new id cls args pos ih =>
    cases h with
    | new hu hargs =>
      have hcode := Line.paired_flatten (forall_codes hargs ih)
      exact hcode.append (paired_instrs (target_allocate _ _))

end Code


/-! Pieces of code. -/

/-- A piece of code has branch labels only, jumps to each of them once and to no other
label, and pushes the addresses of functions whose numbers are below a bound. -/
structure Line.Enclosed (bound : Nat) (lines : List Line) : Prop where
  branches : ∀ l ∈ labels lines, ∃ k, l = .branch k
  jumps : ∀ l, (refs Instr.jumped? lines).count l = (labels lines).count l
  pushes : ∀ l ∈ refs Instr.pushed? lines, ∃ k < bound, l = .function k

namespace Line.Enclosed

variable {bound : Nat} {a b : List Line}

theorem append (ha : Enclosed bound a) (hb : Enclosed bound b) : Enclosed bound (a ++ b) := by
  refine ⟨fun l hl => ?_, fun l => ?_, fun l hl => ?_⟩
  · rw [labels_append] at hl
    exact (List.mem_append.mp hl).elim (ha.branches l) (hb.branches l)
  · rw [refs_append, labels_append, List.count_append, List.count_append, ha.jumps, hb.jumps]
  · rw [refs_append] at hl
    exact (List.mem_append.mp hl).elim (ha.pushes l) (hb.pushes l)

theorem of_paired (h : Paired a) (hb : ∀ l ∈ labels a, ∃ k, l = .branch k) :
    Enclosed bound a := by
  refine ⟨hb, h.jumps, fun l hl => ?_⟩
  rw [h.pushed] at hl
  cases hl

theorem instrs {is : List Instr} (h : is.filterMap Instr.target? = []) :
    Enclosed bound (Code.instrs is) := by
  refine of_paired (paired_instrs h) fun l hl => ?_
  rw [labels_instrs] at hl
  cases hl

theorem nil : Enclosed bound [] := of_paired paired_nil (by simp)

theorem push {k : Nat} (h : k < bound) :
    Enclosed bound (Code.instrs [.pushLabel (.function k)]) := by
  refine ⟨fun l hl => ?_, fun l => rfl, fun l hl => ?_⟩
  · cases hl
  · exact ⟨k, h, List.mem_singleton.mp hl⟩

theorem table {labels : List Label} (h : ∀ l ∈ labels, ∃ k < bound, l = .function k) :
    Enclosed bound (tableLines labels) := by
  have hentries : Enclosed bound
      (Code.instrs (labels.flatMap fun l => .pushLabel l :: Code.moveToHeap)) := by
    induction labels with
    | nil => exact nil
    | cons l labels ih =>
      obtain ⟨k, hk, rfl⟩ := h l List.mem_cons_self
      have hrest := ih fun l' hl' => h l' (List.mem_cons_of_mem _ hl')
      rw [List.flatMap_cons]
      have hmove : Enclosed bound (Code.instrs Code.moveToHeap) := instrs rfl
      simpa [Code.instrs] using ((push hk).append hmove).append hrest
  have hfirst : Enclosed bound (Code.instrs [.plain (.pushReg .hp)]) := instrs rfl
  exact hfirst.append hentries

theorem of_code {t : Target} {e : Expr} (h : ExprCode t e a) : Enclosed bound a :=
  of_paired (Code.paired_of_codeOf h.code) h.branches

theorem jump (h : Enclosed bound a) {test : JumpTest} {l : Label}
    (hj : .instr (.jump test l) ∈ a) : .label l ∈ a ∧ ∃ k, l = .branch k := by
  have hmem : l ∈ refs Instr.jumped? a :=
    List.mem_filterMap.mpr ⟨_, List.mem_filterMap.mpr ⟨_, hj, rfl⟩, rfl⟩
  have hl : l ∈ labels a := by
    rw [← List.count_pos_iff, ← h.jumps, List.count_pos_iff]
    exact hmem
  obtain ⟨line, hline, hlabel⟩ := List.mem_filterMap.mp hl
  cases line with
  | instr i => cases hlabel
  | label l' =>
    cases hlabel
    exact ⟨hline, h.branches l hl⟩

theorem pushLabel (h : Enclosed bound a) {l : Label} (hp : .instr (.pushLabel l) ∈ a) :
    ∃ k < bound, l = .function k :=
  h.pushes l (List.mem_filterMap.mpr ⟨_, List.mem_filterMap.mpr ⟨_, hp, rfl⟩, rfl⟩)

end Line.Enclosed

/-- A block is a piece of code that ends in a `js`. -/
structure Line.EnclosedBlock (bound : Nat) (lines : List Line) : Prop
    extends Line.Enclosed bound lines where
  ends : ∃ before, lines = before ++ [.instr (.plain .call)]

open Line (Enclosed EnclosedBlock)

theorem enclosedBlock_routineLines {t : Target} {bound params locals : Nat} {body : Expr}
    {a b : List Line} (ha : Enclosed bound a) (hb : ExprCode t body b) :
    EnclosedBlock bound (routineLines params locals a b) := by
  have hreturn : (Emit.returnCode params locals).filterMap Instr.target? = [] := by
    simp [Emit.returnCode, Instr.target?, List.filterMap_cons]
  refine ⟨(((Enclosed.instrs rfl).append ha).append (.of_code hb)).append (.instrs hreturn), ?_⟩
  refine ⟨Code.instrs [.plain .setFrame, .plain (.pushReg .ra)] ++ a ++ b ++
    Code.instrs ([Instr.plain (.popReg .tm)] ++ List.replicate locals (Instr.plain .pop) ++
      [Instr.plain (.popReg .ra), .plain .pop] ++ List.replicate params (Instr.plain .pop) ++
      [Instr.plain (.popReg .fp), .plain (.pushReg .tm), .plain (.pushReg .ra)]), ?_⟩
  simp [routineLines, Emit.returnCode, Code.instrs]

section

variable {t : Target} {h : Ancestry} {n bound : Nat}

theorem DeclsShape.enclosed {ds : List Decl} {lines : List Line} {blocks : List (List Line)}
    (hs : DeclsShape t n ds lines blocks) (hle : n + blocks.length ≤ bound) :
    Enclosed bound lines ∧ ∀ b ∈ blocks, EnclosedBlock bound b := by
  induction hs with
  | nil => exact ⟨.nil, by simp⟩
  | var hinit _ ih =>
    obtain ⟨hlines, hblocks⟩ := ih hle
    exact ⟨(Enclosed.of_code hinit).append hlines, hblocks⟩
  | fn _ hbody _ ihdecls ihds =>
    simp only [List.length_append, List.length_singleton] at hle
    obtain ⟨hlocals, hinner⟩ := ihdecls (by omega)
    obtain ⟨hlines, hblocks⟩ := ihds (by omega)
    refine ⟨(Enclosed.push (by omega)).append hlines, fun b hb => ?_⟩
    rcases List.mem_append.mp hb with hb | hb
    · rcases List.mem_append.mp hb with hb | hb
      · exact hinner b hb
      · rw [List.mem_singleton.mp hb]
        exact enclosedBlock_routineLines hlocals hbody
    · exact hblocks b hb

theorem MethodsShape.enclosed {ms : List MethodDecl} {qs : List (Nat × Label)}
    {blocks : List (List Line)} (hs : MethodsShape t n ms qs blocks)
    (hle : n + blocks.length ≤ bound) :
    (∀ q ∈ qs, ∃ k < bound, q.2 = .function k) ∧ ∀ b ∈ blocks, EnclosedBlock bound b := by
  induction hs with
  | nil => exact ⟨by simp, by simp⟩
  | @cons n _ _ _ _ _ _ inner _ _ hdecls hbody _ ih =>
    simp only [List.length_append, List.length_singleton] at hle
    have hbelow : n + inner.length ≤ bound := by omega
    obtain ⟨hlocals, hinner⟩ := hdecls.enclosed hbelow
    obtain ⟨hqs, hblocks⟩ := ih (by omega)
    refine ⟨fun q hq => ?_, fun b hb => ?_⟩
    · rcases List.mem_cons.mp hq with rfl | hq
      · exact ⟨_, by omega, rfl⟩
      · exact hqs q hq
    · rcases List.mem_append.mp hb with hb | hb
      · rcases List.mem_append.mp hb with hb | hb
        · exact hinner b hb
        · rw [List.mem_singleton.mp hb]
          exact enclosedBlock_routineLines hlocals hbody
      · exact hblocks b hb

theorem mem_foldl_fill {qs : List (Nat × Label)} :
    ∀ (table : List Label) {q : Label}, q ∈ qs.foldl ClassCode.fill table →
      q ∈ table ∨ q ∈ qs.map Prod.snd := by
  induction qs with
  | nil => intro table q hq; exact Or.inl hq
  | cons r qs ih =>
    intro table q hq
    obtain ⟨slot, label⟩ := r
    rcases ih _ hq with hmem | hmem
    · simp only [ClassCode.fill] at hmem
      split at hmem
      · rcases List.mem_or_eq_of_mem_set hmem with h | rfl
        · exact Or.inl h
        · exact Or.inr (by simp)
      · rcases List.mem_append.mp hmem with h | h
        · exact Or.inl h
        · exact Or.inr (by simpa using Or.inl (List.mem_singleton.mp h))
    · exact Or.inr (List.mem_cons_of_mem _ hmem)

theorem getElem?_insertIfNew_cases {done : Emit.Classes} {cls x : String} {code code' : ClassCode}
    (hx : (done.insertIfNew cls code)[x]? = some code') :
    x = cls ∧ code' = code ∨ done[x]? = some code' := by
  rw [Std.TreeMap.getElem?_insertIfNew] at hx
  split at hx
  · rename_i heq
    exact Or.inl ⟨(Std.LawfulEqCmp.eq_of_compare heq.1).symm, (Option.some.inj hx).symm⟩
  · exact Or.inr hx

/-- The tables of classes hold labels of functions that have been generated. -/
theorem ClassesShape.enclosed {done done' : Emit.Classes} {cs : List ClassDecl}
    {tables : List (List Label)} {blocks : List (List Line)}
    (hs : ClassesShape t h n done cs done' tables blocks) (hle : n + blocks.length ≤ bound)
    (hdone : ∀ (cls : String) (code : ClassCode), done[cls]? = some code →
      ∀ l ∈ code.table, ∃ k < bound, l = .function k) :
    Enclosed bound (tables.flatMap tableLines) ∧ ∀ b ∈ blocks, EnclosedBlock bound b := by
  induction hs with
  | nil => exact ⟨.nil, by simp⟩
  | @cons n done done' c cs inherited qs tables own blocks hinherited hmethods _ ih =>
    rw [List.length_append] at hle
    have hbelow : n + own.length ≤ bound := by omega
    obtain ⟨hqs, hown⟩ := hmethods.enclosed hbelow
    have hbase : ∀ l ∈ inherited, ∃ k < bound, l = .function k := by
      unfold Inherits at hinherited
      split at hinherited
      · simp [hinherited]
      · obtain ⟨above, habove, rfl⟩ := hinherited
        exact hdone _ _ habove
    have htable : ∀ l ∈ (ClassCode.ofMethods inherited qs).table, ∃ k < bound, l = .function k := by
      intro l hl
      rcases mem_foldl_fill inherited hl with hl | hl
      · exact hbase l hl
      · obtain ⟨q, hq, rfl⟩ := List.mem_map.mp hl
        exact hqs q hq
    obtain ⟨htables, hblocks⟩ := ih (by omega) fun cls code hcode => by
      rcases getElem?_insertIfNew_cases hcode with ⟨-, rfl⟩ | hcode
      · exact htable
      · exact hdone cls code hcode
    refine ⟨(Enclosed.table htable).append htables, fun b hb => ?_⟩
    exact (List.mem_append.mp hb).elim (hown b) (hblocks b)

end

namespace CodeParts.Shape

variable {c : CodeParts} {p : Program} {t : Target} {h : Ancestry}

/-- All parts of the code of a program are closed under jumps. -/
theorem enclosed (hc : c.Shape p t h) :
    Enclosed c.blocks.length c.main ∧ ∀ b ∈ c.blocks, EnclosedBlock c.blocks.length b := by
  have hall : c.methods.length + c.functions.length ≤ c.blocks.length :=
    Nat.le_of_eq List.length_append.symm
  have hbelow : 0 + c.methods.length ≤ c.blocks.length := by omega
  obtain ⟨htables, hmethods⟩ := hc.classes.enclosed hbelow (by simp)
  obtain ⟨hdecls, hfunctions⟩ := hc.decls.enclosed hall
  have hfront : Enclosed c.blocks.length c.front := by
    rcases hc.front with ⟨-, hfront⟩ | ⟨hfront, -⟩
    · rw [hfront]
      exact .instrs rfl
    · rw [hfront]
      exact .nil
  refine ⟨?_, fun b hb => (List.mem_append.mp hb).elim (hmethods b) (hfunctions b)⟩
  exact (((hfront.append htables).append hdecls).append (.of_code hc.body)).append (.instrs rfl)

/-- Every label that the code refers to is placed in it. -/
theorem closed (hc : c.Shape p t h) {L : Listing} (hL : L.lines = c.main ++ blockLines 0 c.blocks) :
    L.Closed := by
  obtain ⟨hmain, hblocks⟩ := hc.enclosed
  have hpart : ∀ part, Enclosed c.blocks.length part → part ⊆ L.lines → ∀ i l, .instr i ∈ part →
      i.target? = some l → .label l ∈ L.lines := by
    intro part hpart hsub i l hi hl
    cases i with
    | push w => cases hl
    | plain op => cases hl
    | jump test target =>
      cases hl
      exact hsub (hpart.jump hi).1
    | pushLabel target =>
      cases hl
      obtain ⟨k, hk, rfl⟩ := hpart.pushLabel hi
      rw [hL]
      exact List.mem_append_right _ (mem_blockLines.mpr (Or.inl ⟨k, by omega, by omega, rfl⟩))
  intro i hi l hl
  rw [Listing.mem_labels]
  rw [Listing.mem_instrs, hL, List.mem_append, mem_blockLines] at hi
  rcases hi with hi | ⟨k, -, -, hlabel⟩ | ⟨b, hb, hi⟩
  · exact hpart _ hmain (by rw [hL]; exact List.subset_append_left _ _) i l hi hl
  · cases hlabel
  · refine hpart b (hblocks b hb).toEnclosed (fun line hline => ?_) i l hi hl
    rw [hL]
    exact List.mem_append_right _ (mem_blockLines.mpr (Or.inr ⟨b, hb, hline⟩))

end CodeParts.Shape

end Classlet
