import Classlet.Proofs.Jumps
import Classlet.Proofs.Locations

/-!
How code comes to the end of an expression. The code of every expression of a program
stands at its site, since that of its parts stands in the code of the expression. Two
jumps lead to the end of an expression: that of a conditional behind its first branch, and
those in comparisons, which lead behind an instruction of two code words. No expression
ends where the code of a function or method begins.
-/

namespace Classlet

open Code

/-! Places in a listing. -/

namespace Listing

/-- An instruction of two code words ends at the place. -/
def AfterPair (L : Listing) (place : Nat) : Prop :=
  ∃ before i, L.Has before [.instr i] ∧ i.size = 2 ∧ place = before + 2

end Listing

/-! Jumps. -/

namespace Line

/-- The jumps among lines that begin at a place: where each of them stands, and its
label. -/
def jumpsFrom : Nat → List Line → List (Nat × Label)
  | _, [] => []
  | start, .label _ :: rest => jumpsFrom start rest
  | start, .instr i :: rest => (i.jumped?.map (start, ·)).toList ++ jumpsFrom (start + i.size) rest

theorem jumpsFrom_append (start : Nat) (a b : List Line) :
    jumpsFrom start (a ++ b) = jumpsFrom start a ++ jumpsFrom (start + sizes a) b := by
  induction a generalizing start with
  | nil => rfl
  | cons line a ih =>
    cases line with
    | label l =>
      rw [List.cons_append, jumpsFrom, ih, jumpsFrom, sizes_cons, size, Nat.zero_add]
    | instr i =>
      rw [List.cons_append, jumpsFrom, ih, jumpsFrom, List.append_assoc, sizes_cons, size,
        Nat.add_assoc]

theorem jumpsFrom_instrs (start : Nat) {is : List Instr} (h : is.filterMap Instr.jumped? = []) :
    jumpsFrom start (instrs is) = [] := by
  induction is generalizing start with
  | nil => rfl
  | cons i is ih =>
    cases hi : i.jumped? with
    | none =>
      rw [List.filterMap_cons_none hi] at h
      rw [instrs, List.map_cons, jumpsFrom, hi]
      exact ih _ h
    | some l =>
      rw [List.filterMap_cons_some hi] at h
      cases h

end Line

section

variable {L : Listing} (hn : L.labels.Nodup) {start : Nat} {a b c : List Line}

include hn

theorem Listing.Has.afterPair {i : Instr} {l : Label} {rest : List Line}
    (h : L.Has start (.instr i :: .label l :: rest)) (hi : i.size = 2) :
    L.AfterPair (L.position l) := by
  have hlabel := Listing.Has.right (a := [.instr i]) h
  refine ⟨start, i, Listing.Has.left (a := [.instr i]) h, hi, ?_⟩
  rw [hlabel.position hn]
  exact congrArg (start + ·) hi

/-- The jumps of a comparison lead behind the jump and the `push` before their labels. -/
theorem jumps_comparison {test : JumpTest} {yes done : Label}
    (hL : L.Has start (comparisonLines test yes done a b)) :
    ∀ q ∈ Line.jumpsFrom start (comparisonLines test yes done a b),
      q ∈ Line.jumpsFrom start a ∨ q ∈ Line.jumpsFrom (start + Line.sizes a) b ∨
        L.AfterPair (L.position q.2) := by
  intro q hq
  rw [comparisonLines, List.append_assoc] at hL hq
  have hyes := Listing.Has.right (a := instrs [.jump test yes, .push 0]) hL.right
  have hdone := Listing.Has.right (a := [.instr (.jump .always done), .label yes]) hyes
  rw [Line.jumpsFrom_append, Line.jumpsFrom_append, List.mem_append, List.mem_append] at hq
  rcases hq with (hq | hq) | hq
  · exact Or.inl hq
  · exact Or.inr (Or.inl hq)
  · right
    right
    simp only [instrs, Line.jumpsFrom, Instr.jumped?, List.map_cons, List.map_nil, List.cons_append,
      List.nil_append, Option.map_some, Option.map_none, Option.toList_some, Option.toList_none,
      List.mem_cons, List.not_mem_nil, or_false] at hq
    rcases hq with rfl | rfl
    · exact hyes.afterPair hn rfl
    · exact hdone.afterPair hn rfl

/-- The jumps of a disjunction lead behind the jump and the `push` before their labels. -/
theorem jumps_disjunction {no done : Label} (hL : L.Has start (disjunctionLines no done a b)) :
    ∀ q ∈ Line.jumpsFrom start (disjunctionLines no done a b),
      q ∈ Line.jumpsFrom start a ∨ q ∈ Line.jumpsFrom (start + Line.sizes a) b ∨
        L.AfterPair (L.position q.2) := by
  intro q hq
  rw [disjunctionLines, List.append_assoc] at hL hq
  have hno := Listing.Has.right
    (a := instrs [.plain (.arith .add), .push 0, .jump .equal no, .push 1]) hL.right
  have hdone := Listing.Has.right (a := [.instr (.jump .always done), .label no]) hno
  rw [Line.jumpsFrom_append, Line.jumpsFrom_append, List.mem_append, List.mem_append] at hq
  rcases hq with (hq | hq) | hq
  · exact Or.inl hq
  · exact Or.inr (Or.inl hq)
  · right
    right
    simp only [instrs, Line.jumpsFrom, Instr.jumped?, List.map_cons, List.map_nil, List.cons_append,
      List.nil_append, Option.map_some, Option.map_none, Option.toList_some, Option.toList_none,
      List.mem_cons, List.not_mem_nil, or_false] at hq
    rcases hq with rfl | rfl
    · exact hno.afterPair hn rfl
    · exact hdone.afterPair hn rfl

/-- The jump to the second branch of a conditional leads behind the jump over it, and that
one leads to the end from the end of the first branch. -/
theorem jumps_conditional {yes done : Label}
    (hL : L.Has start (conditionalLines yes done a b c)) :
    ∀ q ∈ Line.jumpsFrom start (conditionalLines yes done a b c),
      q ∈ Line.jumpsFrom start a ∨ q ∈ Line.jumpsFrom (start + Line.sizes a + 4) c ∨
        q ∈ Line.jumpsFrom (start + Line.sizes a + 4 + Line.sizes c + 2) b ∨
        L.AfterPair (L.position q.2) ∨
        q.1 = start + Line.sizes a + 4 + Line.sizes c ∧
          L.position q.2 = start + Line.sizes (conditionalLines yes done a b c) := by
  intro q hq
  have hdone := hL.right.position hn
  have hyes : L.AfterPair (L.position yes) := by
    have hskip := hL.left.left
    rw [List.append_assoc] at hskip
    exact hskip.right.afterPair hn rfl
  have hpush : Line.sizes (instrs [.push 1, .jump .equal yes]) = 4 := rfl
  have hgoto : Line.sizes (instrs [.jump .always done]) = 2 := rfl
  have hlabels : ∀ l, Line.sizes [.label l] = 0 := fun _ => rfl
  simp only [conditionalLines, Line.jumpsFrom_append, List.mem_append, Line.sizes_append, hpush,
    hgoto, hlabels, Nat.add_zero, ← Nat.add_assoc] at hq hdone ⊢
  simp only [instrs, Line.jumpsFrom, Instr.jumped?, List.map_cons, List.map_nil, List.append_nil,
    List.nil_append, Option.map_some, Option.map_none, Option.toList_some, Option.toList_none,
    List.mem_singleton, List.not_mem_nil, or_false] at hq
  rcases hq with (((hq | rfl) | hq) | rfl) | hq
  · exact Or.inl hq
  · exact Or.inr (Or.inr (Or.inr (Or.inl hyes)))
  · exact Or.inr (Or.inl hq)
  · exact Or.inr (Or.inr (Or.inr (Or.inr ⟨rfl, hdone⟩)))
  · exact Or.inr (Or.inr (Or.inl hq))

end

/-! The code of the parts of an expression. -/

namespace Site

/-- The code of an expression stands where its site says. -/
def Stands (t : Target) (L : Listing) (x : Site) : Prop :=
  ∃ lines, CodeOf t x.expr lines ∧ L.Has x.start lines

/-- A jump in the code of an expression where it stands. -/
def Jumps (t : Target) (L : Listing) (x : Site) (q : Nat × Label) : Prop :=
  ∃ lines, CodeOf t x.expr lines ∧ L.Has x.start lines ∧ q ∈ Line.jumpsFrom x.start lines

/-- The jump of a conditional from the end of its first branch to its own end. -/
def Rejoins (t : Target) (L : Listing) (x : Site) (q : Nat × Label) : Prop :=
  ∃ test yes no pos, x.expr = .cond test yes no pos ∧
    q.1 = x.start + test.width t + 4 + no.width t ∧ L.position q.2 = x.stop t

variable {t : Target} {L : Listing} {Γ : List Naming}

theorem code_args {es : List Expr} {codes : List (List Line)}
    (hcodes : List.Forall₂ (CodeOf t) es codes) {start : Nat} (hL : L.Has start codes.flatten) :
    (∀ y ∈ args t Γ start es, y.Stands t L) ∧
      ∀ q ∈ Line.jumpsFrom start codes.flatten, ∃ y ∈ args t Γ start es, y.Jumps t L q := by
  induction hcodes generalizing start with
  | nil =>
    refine ⟨fun y hy => ?_, fun q hq => ?_⟩
    · cases hy
    · cases hq
  | @cons e code es codes hcode _ ih =>
    rw [List.flatten_cons] at hL ⊢
    have hrest := hL.right
    rw [hcode.sizes] at hrest
    obtain ⟨hstands, hjumps⟩ := ih hrest
    refine ⟨fun y hy => ?_, fun q hq => ?_⟩
    · rcases List.mem_cons.mp hy with rfl | hy
      · exact ⟨code, hcode, hL.left⟩
      · exact hstands y hy
    · rw [Line.jumpsFrom_append, hcode.sizes] at hq
      rcases List.mem_append.mp hq with hq | hq
      · exact ⟨_, List.mem_cons_self, code, hcode, hL.left, hq⟩
      · obtain ⟨y, hy, hq⟩ := hjumps q hq
        exact ⟨y, List.mem_cons_of_mem _ hy, hq⟩

theorem code_argsBackwards {es : List Expr} {codes : List (List Line)}
    (hcodes : List.Forall₂ (CodeOf t) es codes) {start : Nat}
    (hL : L.Has start codes.reverse.flatten) :
    (∀ y ∈ argsBackwards t Γ start es, y.Stands t L) ∧
      ∀ q ∈ Line.jumpsFrom start codes.reverse.flatten,
        ∃ y ∈ argsBackwards t Γ start es, y.Jumps t L q := by
  induction hcodes with
  | nil =>
    refine ⟨fun y hy => ?_, fun q hq => ?_⟩
    · cases hy
    · cases hq
  | @cons e code es codes hcode hcodes ih =>
    have hsizes := Expr.sizes_argsBackwards (fun _ _ _ h => h.sizes) hcodes
    rw [List.reverse_cons, List.flatten_append, List.flatten_singleton] at hL ⊢
    have hlast := hL.right
    rw [hsizes] at hlast
    obtain ⟨hstands, hjumps⟩ := ih hL.left
    refine ⟨fun y hy => ?_, fun q hq => ?_⟩
    · rcases List.mem_append.mp hy with hy | hy
      · exact hstands y hy
      · rw [List.mem_singleton.mp hy]
        exact ⟨code, hcode, hlast⟩
    · rw [Line.jumpsFrom_append, hsizes] at hq
      rcases List.mem_append.mp hq with hq | hq
      · obtain ⟨y, hy, hq⟩ := hjumps q hq
        exact ⟨y, List.mem_append_left _ hy, hq⟩
      · exact ⟨_, List.mem_append_right _ (List.mem_singleton_self _), code, hcode, hlast, hq⟩

theorem code_call {es : List Expr} {codes : List (List Line)}
    (hcodes : List.Forall₂ (CodeOf t) es codes) {tail : List Instr}
    (htail : tail.filterMap Instr.target? = []) {start : Nat}
    (hL : L.Has start (instrs [.plain (.pushReg .fp)] ++ codes.reverse.flatten ++ instrs tail)) :
    (∀ y ∈ argsBackwards t Γ (start + 1) es, y.Stands t L) ∧
      ∀ q ∈ Line.jumpsFrom start
        (instrs [.plain (.pushReg .fp)] ++ codes.reverse.flatten ++ instrs tail),
        ∃ y ∈ argsBackwards t Γ (start + 1) es, y.Jumps t L q := by
  obtain ⟨hstands, hjumps⟩ := code_argsBackwards (Γ := Γ) hcodes hL.left.right
  refine ⟨hstands, fun q hq => hjumps q ?_⟩
  rw [Line.jumpsFrom_append, Line.jumpsFrom_append, Line.jumpsFrom_instrs _ rfl,
    Line.jumpsFrom_instrs _ (Line.jumped_of_target htail), List.nil_append, List.append_nil] at hq
  exact hq

/-- Operands in a row, and then instructions without a jump. -/
theorem code_operands {es : List Expr} {codes : List (List Line)}
    (hcodes : List.Forall₂ (CodeOf t) es codes) {tail : List Instr}
    (htail : tail.filterMap Instr.target? = []) {start : Nat}
    (hL : L.Has start (codes.flatten ++ instrs tail)) :
    (∀ y ∈ args t Γ start es, y.Stands t L) ∧
      ∀ q ∈ Line.jumpsFrom start (codes.flatten ++ instrs tail),
        ∃ y ∈ args t Γ start es, y.Jumps t L q := by
  obtain ⟨hstands, hjumps⟩ := code_args (Γ := Γ) hcodes hL.left
  refine ⟨hstands, fun q hq => hjumps q ?_⟩
  rwa [Line.jumpsFrom_append, Line.jumpsFrom_instrs _ (Line.jumped_of_target htail),
    List.append_nil] at hq

theorem code_operand {operand : Expr} {a : List Line} (ha : CodeOf t operand a)
    {tail : List Instr} (htail : tail.filterMap Instr.target? = []) {start : Nat}
    (hL : L.Has start (a ++ instrs tail)) : (∀ y ∈ args t Γ start [operand], y.Stands t L) ∧
      ∀ q ∈ Line.jumpsFrom start (a ++ instrs tail),
        ∃ y ∈ args t Γ start [operand], y.Jumps t L q := by
  have hflat : [a].flatten = a := by simp
  rw [← hflat] at hL ⊢
  exact code_operands (.cons ha .nil) htail hL

/-- Two operands in a row, and then lines whose jumps lead behind instructions of two code
words. -/
theorem code_tested {first second : Expr} {a b lines : List Line} (ha : CodeOf t first a)
    (hb : CodeOf t second b) {start : Nat} (hL : L.Has start (a ++ b))
    (hlines : ∀ q ∈ Line.jumpsFrom start lines, q ∈ Line.jumpsFrom start a ∨
      q ∈ Line.jumpsFrom (start + Line.sizes a) b ∨ L.AfterPair (L.position q.2)) :
    (∀ y ∈ args t Γ start [first, second], y.Stands t L) ∧
      ∀ q ∈ Line.jumpsFrom start lines,
        (∃ y ∈ args t Γ start [first, second], y.Jumps t L q) ∨ L.AfterPair (L.position q.2) := by
  have hflat : [a, b].flatten = a ++ b := by simp
  obtain ⟨hstands, hjumps⟩ := code_args (Γ := Γ) (.cons ha (.cons hb .nil)) (hflat ▸ hL)
  rw [hflat, Line.jumpsFrom_append] at hjumps
  refine ⟨hstands, fun q hq => ?_⟩
  rcases hlines q hq with hq | hq | hq
  · exact Or.inl (hjumps q (List.mem_append_left _ hq))
  · exact Or.inl (hjumps q (List.mem_append_right _ hq))
  · exact Or.inr hq

/-- The code of the parts of an expression stands in its own, and each jump that is in
none of them leads behind an instruction of two code words or to the end. -/
theorem code_children (hn : L.labels.Nodup) {x : Site} {lines : List Line}
    (hcode : CodeOf t x.expr lines) (hL : L.Has x.start lines) :
    (∀ y ∈ x.children t, y.Stands t L) ∧ ∀ q ∈ Line.jumpsFrom x.start lines,
      (∃ y ∈ x.children t, y.Jumps t L q) ∨ L.AfterPair (L.position q.2) ∨ x.Rejoins t L q := by
  obtain ⟨Γ, start, e⟩ := x
  cases hcode with
  | lit =>
    rw [Line.jumpsFrom_instrs _ rfl]
    refine ⟨fun y hy => ?_, fun q hq => ?_⟩
    · cases hy
    · cases hq
  | @name _ _ _ u e hu =>
    rw [Line.jumpsFrom_instrs _ (Line.jumped_of_target (target_load u e))]
    refine ⟨fun y hy => ?_, fun q hq => ?_⟩
    · cases hy
    · cases hq
  | equal ha hb =>
    obtain ⟨hstands, hjumps⟩ := code_tested (Γ := Γ) ha hb hL.left.left (jumps_comparison hn hL)
    exact ⟨hstands, fun q hq => (hjumps q hq).imp_right Or.inl⟩
  | lessEqual ha hb =>
    obtain ⟨hstands, hjumps⟩ := code_tested (Γ := Γ) ha hb hL.left.left (jumps_comparison hn hL)
    exact ⟨hstands, fun q hq => (hjumps q hq).imp_right Or.inl⟩
  | greaterEqual ha hb =>
    obtain ⟨hstands, hjumps⟩ := code_tested (Γ := Γ) hb ha hL.left.left (jumps_comparison hn hL)
    exact ⟨hstands, fun q hq => (hjumps q hq).imp_right Or.inl⟩
  | or ha hb =>
    obtain ⟨hstands, hjumps⟩ := code_tested (Γ := Γ) ha hb hL.left.left (jumps_disjunction hn hL)
    exact ⟨hstands, fun q hq => (hjumps q hq).imp_right Or.inl⟩
  | @arith op o left right pos a b ho ha hb =>
    have hop : op ≠ .greaterEqual := by
      rintro rfl
      cases ho
    have hchildren : children t ⟨Γ, start, .binary op left right pos⟩ =
        args t Γ start [left, right] := if_neg hop
    have hflat : a ++ b = [a, b].flatten := by simp
    rw [hflat] at hL ⊢
    obtain ⟨hstands, hjumps⟩ := code_operands (Γ := Γ) (.cons ha (.cons hb .nil)) rfl hL
    rw [hchildren]
    exact ⟨hstands, fun q hq => Or.inl (hjumps q hq)⟩
  | not ha =>
    obtain ⟨hstands, hjumps⟩ := code_operand (Γ := Γ) ha rfl hL
    exact ⟨hstands, fun q hq => Or.inl (hjumps q hq)⟩
  | print ha =>
    obtain ⟨hstands, hjumps⟩ := code_operand (Γ := Γ) ha rfl hL
    exact ⟨hstands, fun q hq => Or.inl (hjumps q hq)⟩
  | @cond test yes no pos a b c yesLabel done ha hb hc =>
    have hcond : CodeOf t (.cond test yes no pos) (conditionalLines yesLabel done a b c) :=
      .cond ha hb hc
    have htotal := hcond.sizes
    have htest := hL.left.left.left.left.left.left
    have hno := hL.left.left.left.left.right
    have hyes := hL.left.right
    have hpush : Line.sizes (instrs [.push 1, .jump .equal yesLabel]) = 4 := rfl
    have hgoto : Line.sizes (instrs [.jump .always done]) = 2 := rfl
    have hlabel : Line.sizes [.label yesLabel] = 0 := rfl
    simp only [Line.sizes_append, hpush, hgoto, hlabel, Nat.add_zero, ← Nat.add_assoc, ha.sizes,
      hc.sizes] at hno hyes
    refine ⟨fun y hy => ?_, fun q hq => ?_⟩
    · simp only [children, List.mem_cons, List.not_mem_nil, or_false] at hy
      rcases hy with rfl | rfl | rfl
      · exact ⟨a, ha, htest⟩
      · exact ⟨c, hc, hno⟩
      · exact ⟨b, hb, hyes⟩
    · have hcases := jumps_conditional hn hL q hq
      rw [ha.sizes, hc.sizes, htotal] at hcases
      rcases hcases with hq | hq | hq | hq | hq
      · exact Or.inl ⟨_, List.mem_cons_self, a, ha, htest, hq⟩
      · exact Or.inl ⟨_, List.mem_cons_of_mem _ List.mem_cons_self, c, hc, hno, hq⟩
      · exact Or.inl ⟨_, List.mem_cons_of_mem _ (List.mem_cons_of_mem _ List.mem_cons_self), b, hb,
          hyes, hq⟩
      · exact Or.inr (Or.inl hq)
      · exact Or.inr (Or.inr ⟨test, yes, no, pos, rfl, hq.1, hq.2⟩)
  | @call _ _ _ _ u e _ hu hargs =>
    obtain ⟨hstands, hjumps⟩ := code_call (Γ := Γ) hargs (target_callee u e) hL
    exact ⟨hstands, fun q hq => Or.inl (hjumps q hq)⟩
  | @send _ _ _ _ _ u r m _ hu hr hm hargs =>
    obtain ⟨hstands, hjumps⟩ := code_call (Γ := Γ) hargs (target_receiver u r m) hL
    exact ⟨hstands, fun q hq => Or.inl (hjumps q hq)⟩
  | new hu hargs =>
    obtain ⟨hstands, hjumps⟩ := code_operands (Γ := Γ) hargs (target_allocate _ _) hL
    exact ⟨hstands, fun q hq => Or.inl (hjumps q hq)⟩

theorem Stands.inner (hn : L.labels.Nodup) {x : Site} (h : x.Stands t L) :
    ∀ y ∈ x.inner t, y.Stands t L := by
  induction x using induction t with
  | h x ih =>
    intro y hy
    rw [inner_eq, List.mem_append, List.mem_singleton] at hy
    rcases hy with hy | rfl
    · obtain ⟨z, hz, hy⟩ := List.mem_flatMap.mp hy
      obtain ⟨lines, hcode, hL⟩ := h
      exact ih z hz ((code_children hn hcode hL).1 z hz) y hy
    · exact h

/-- Where the jumps in the code of an expression lead. -/
theorem Jumps.leads (hn : L.labels.Nodup) {x : Site} {q : Nat × Label} (h : x.Jumps t L q) :
    L.AfterPair (L.position q.2) ∨ ∃ y ∈ x.inner t, y.Rejoins t L q := by
  induction x using induction t with
  | h x ih =>
    obtain ⟨lines, hcode, hL, hq⟩ := h
    rcases (code_children hn hcode hL).2 q hq with ⟨z, hz, hq⟩ | hq | hq
    · refine (ih z hz hq).imp id ?_
      rintro ⟨y, hy, hjoin⟩
      exact ⟨y, inner_subset (mem_inner_child hz) hy, hjoin⟩
    · exact Or.inl hq
    · exact Or.inr ⟨x, x.mem_inner_self t, hq⟩

end Site

/-! The code of a program. -/

section

variable {p : Program} {t : Target} {L : Listing}

theorem DeclsAt.code_roots {outer : List Naming} {before : List (String × NodeId)} {ds : List Decl}
    {lines : List Line} (h : DeclsAt p t outer before ds lines) {start : Nat}
    (hL : L.Has start lines) :
    (∀ r ∈ Decl.roots t outer before ds start, r.Stands t L) ∧
      ∀ q ∈ Line.jumpsFrom start lines,
        ∃ r ∈ Decl.roots t outer before ds start, r.Jumps t L q := by
  induction h generalizing start with
  | nil =>
    refine ⟨fun r hr => ?_, fun q hq => ?_⟩
    · cases hr
    · cases hq
  | @var _ _ _ _ _ _ _ a _ hinit _ ih =>
    have hrest := hL.right
    rw [hinit.sizes] at hrest
    obtain ⟨hstands, hjumps⟩ := ih hrest
    refine ⟨fun r hr => ?_, fun q hq => ?_⟩
    · rcases List.mem_cons.mp hr with rfl | hr
      · exact ⟨a, hinit, hL.left⟩
      · exact hstands r hr
    · rw [Line.jumpsFrom_append, hinit.sizes] at hq
      rcases List.mem_append.mp hq with hq | hq
      · exact ⟨_, List.mem_cons_self, a, hinit, hL.left, hq⟩
      · obtain ⟨r, hr, hq⟩ := hjumps q hq
        exact ⟨r, List.mem_cons_of_mem _ hr, hq⟩
  | fn _ _ ih =>
    obtain ⟨hstands, hjumps⟩ := ih hL.right
    refine ⟨hstands, fun q hq => hjumps q ?_⟩
    rw [Line.jumpsFrom_append, Line.jumpsFrom_instrs _ rfl] at hq
    exact hq

theorem Block.Lines.code_roots {b : Block} {lines : List Line} (h : b.Lines p t lines) {start : Nat}
    (hL : L.Has start lines) : (∀ r ∈ b.roots t start, r.Stands t L) ∧
      ∀ q ∈ Line.jumpsFrom start lines, ∃ r ∈ b.roots t start, r.Jumps t L q := by
  obtain ⟨ds, bs, rfl, hds, hbs⟩ := h
  obtain ⟨hdecls, hbody⟩ := has_routine hL
  obtain ⟨hstands, hjumps⟩ := hds.code_roots hdecls
  rw [hds.sizes] at hbody
  have hreturn : (Emit.returnCode b.params.length b.decls.length).filterMap Instr.jumped? = [] := by
    simp only [Emit.returnCode, List.filterMap_append, List.filterMap_replicate, Instr.jumped?]
    rfl
  refine ⟨fun r hr => ?_, fun q hq => ?_⟩
  · rw [Block.roots, List.mem_append, List.mem_singleton] at hr
    rcases hr with hr | rfl
    · exact hstands r hr
    · exact ⟨bs, hbs, hbody⟩
  · rw [routineLines, Line.jumpsFrom_append, Line.jumpsFrom_append, Line.jumpsFrom_append,
      Line.jumpsFrom_instrs _ hreturn, Line.jumpsFrom_instrs _ rfl, List.nil_append,
      List.append_nil, Line.sizes_append, hds.sizes, ← Nat.add_assoc] at hq
    rcases List.mem_append.mp hq with hq | hq
    · obtain ⟨r, hr, hq⟩ := hjumps q hq
      exact ⟨r, List.mem_append_left _ hr, hq⟩
    · exact ⟨_, List.mem_append_right _ (List.mem_singleton_self _), bs, hbs, hbody, hq⟩

theorem Block.code_rootsFrom {bs : List Block} {blocks : List (List Line)}
    (h : List.Forall₂ (Block.Lines p t) bs blocks) {n start : Nat}
    (hL : L.Has start (blockLines n blocks)) :
    (∀ r ∈ Block.rootsFrom t start bs, r.Stands t L) ∧
      ∀ q ∈ Line.jumpsFrom start (blockLines n blocks),
        ∃ r ∈ Block.rootsFrom t start bs, r.Jumps t L q := by
  induction h generalizing n start with
  | nil =>
    refine ⟨fun r hr => ?_, fun q hq => ?_⟩
    · cases hr
    · cases hq
  | @cons b lines bs blocks hlines _ ih =>
    have hrest := hL.skip_label.right
    rw [hlines.sizes] at hrest
    obtain ⟨hfirst, hjumpsFirst⟩ := hlines.code_roots hL.skip_label.left
    obtain ⟨hstands, hjumps⟩ := ih hrest
    refine ⟨fun r hr => ?_, fun q hq => ?_⟩
    · rcases List.mem_append.mp hr with hr | hr
      · exact hfirst r hr
      · exact hstands r hr
    · rw [blockLines, Line.jumpsFrom, Line.jumpsFrom_append, hlines.sizes] at hq
      rcases List.mem_append.mp hq with hq | hq
      · obtain ⟨r, hr, hq⟩ := hjumpsFirst q hq
        exact ⟨r, List.mem_append_left _ hr, hq⟩
      · obtain ⟨r, hr, hq⟩ := hjumps q hq
        exact ⟨r, List.mem_append_right _ hr, hq⟩

theorem jumpsFrom_tables (start : Nat) (tables : List (List Label)) :
    Line.jumpsFrom start (tables.flatMap tableLines) = [] := by
  induction tables generalizing start with
  | nil => rfl
  | cons table tables ih =>
    have hentries : ∀ ls : List Label,
        (ls.flatMap fun l => Instr.pushLabel l :: moveToHeap).filterMap Instr.jumped? = [] := by
      intro ls
      induction ls with
      | nil => rfl
      | cons l ls ihs =>
        rw [List.flatMap_cons, List.filterMap_append, ihs]
        rfl
    have htable : (ClassCode.layout { table }).filterMap Instr.jumped? = [] := hentries table
    rw [List.flatMap_cons, Line.jumpsFrom_append, ih, tableLines, Line.jumpsFrom_instrs _ htable]
    rfl

/-- The roots of a program have the code of the program, up to what has no jumps. -/
theorem ListingOf.code_roots (hl : ListingOf p t L) : (∀ r ∈ p.roots t, r.Stands t L) ∧
    ∀ q ∈ Line.jumpsFrom 0 L.lines, ∃ r ∈ p.roots t, r.Jumps t L q := by
  obtain ⟨front, tables, ds, bs, blocks, hfront, -, hds, hbs, hblocks, hsizes, -, hdecls, hbody,
    -, hrest, hlines⟩ := hl.parts
  obtain ⟨hstandsDecls, hjumpsDecls⟩ := hds.code_roots hdecls
  obtain ⟨hstandsBlocks, hjumpsBlocks⟩ := Block.code_rootsFrom hblocks hrest
  have hstart : Line.jumpsFrom 0 (front ++ tables.flatMap tableLines) = [] := by
    rw [Line.jumpsFrom_append, jumpsFrom_tables]
    rcases hfront with ⟨-, rfl⟩ | ⟨rfl, -, -⟩ <;> rfl
  refine ⟨fun r hr => ?_, fun q hq => ?_⟩
  · rw [Program.roots, List.mem_append, List.mem_cons] at hr
    rcases hr with hr | rfl | hr
    · exact hstandsDecls r hr
    · exact ⟨bs, hbs, hbody⟩
    · exact hstandsBlocks r hr
  · rw [hlines] at hq
    generalize front ++ tables.flatMap tableLines = first at hsizes hstart hq
    have hhalt : ∀ n, Line.jumpsFrom n (instrs [.plain .halt]) = [] := fun _ => rfl
    simp only [Line.jumpsFrom_append, Line.sizes_append, hstart, hhalt, hsizes, hds.sizes,
      hbs.sizes, List.nil_append, List.append_nil, Nat.zero_add, List.mem_append] at hq
    rcases hq with (hq | hq) | hq
    · obtain ⟨r, hr, hq⟩ := hjumpsDecls q hq
      exact ⟨r, List.mem_append_left _ hr, hq⟩
    · exact ⟨_, List.mem_append_right _ List.mem_cons_self, bs, hbs, hbody, hq⟩
    · obtain ⟨r, hr, hq⟩ := hjumpsBlocks q hq
      exact ⟨r, List.mem_append_right _ (List.mem_cons_of_mem _ hr), hq⟩

/-- The code of every expression stands at its site. -/
theorem ListingOf.stands (hl : ListingOf p t L) {x : Site} (hx : x ∈ p.sites t) :
    x.Stands t L := by
  obtain ⟨r, hr, hx⟩ := List.mem_flatMap.mp hx
  exact (hl.code_roots.1 r hr).inner hl.nodup x hx

/-- Where the jumps of a program lead. -/
theorem ListingOf.jump_leads (hl : ListingOf p t L) {place : Nat} {test : JumpTest} {l : Label}
    (hjump : L.Has place [.instr (.jump test l)]) :
    L.AfterPair (L.position l) ∨ ∃ x ∈ p.sites t, x.Rejoins t L (place, l) := by
  have hmem : (place, l) ∈ Line.jumpsFrom 0 L.lines := by
    obtain ⟨before, after, hL, rfl⟩ := hjump
    rw [hL, Line.jumpsFrom_append, Nat.zero_add]
    exact List.mem_append_right _ List.mem_cons_self
  obtain ⟨r, hr, hq⟩ := hl.code_roots.2 _ hmem
  refine (hq.leads hl.nodup).imp id ?_
  rintro ⟨x, hx, hjoin⟩
  exact ⟨x, Program.inner_subset hr hx, hjoin⟩

theorem Program.inner_of_site {x : Site} (hx : x ∈ p.sites t) : x.inner t ⊆ p.sites t := by
  obtain ⟨r, hr, hx⟩ := List.mem_flatMap.mp hx
  exact List.Subset.trans (Site.inner_subset hx) (Program.inner_subset hr)

theorem Block.stop_ne_startOf {bs : List Block} {start k : Nat} {x : Site}
    (hx : x ∈ (Block.rootsFrom t start bs).flatMap (Site.inner t)) (hk : k < bs.length) :
    x.stop t ≠ Block.startOf t start bs k := by
  induction bs generalizing start k with
  | nil => cases hx
  | cons b bs ih =>
    have hwidth : b.bodyWidth t < b.width t := by
      rw [Block.width, returnWidth]
      omega
    have hstart : Block.startOf t start (b :: bs) 0 = start := rfl
    rw [Block.rootsFrom, List.flatMap_append] at hx
    rcases List.mem_append.mp hx with hx | hx
    · obtain ⟨hlow, hhigh⟩ := (b.ordered_roots t start).within x hx
      cases k with
      | zero => omega
      | succ k =>
        have hle : start + b.width t ≤ Block.startOf t start (b :: bs) (k + 1) := by
          rw [Block.startOf_succ]
          exact Nat.le_add_right _ _
        omega
    · cases k with
      | zero =>
        have hlow := ((Block.ordered_rootsFrom t bs (start + b.width t)).within x hx).1
        omega
      | succ k =>
        rw [Block.startOf_succ]
        exact ih hx (Nat.lt_of_succ_lt_succ hk)

/-- No expression ends where the code of a function or method begins. -/
theorem Program.stop_ne_blockStart {x : Site} (hx : x ∈ p.sites t) {k : Nat} {b : Block}
    (hk : p.blocks[k]? = some b) : x.stop t ≠ p.blockStart t k := by
  have hlt := (List.getElem?_eq_some_iff.mp hk).1
  rw [Program.sites, Program.roots, List.flatMap_append, List.flatMap_cons, List.mem_append,
    List.mem_append] at hx
  have hle : p.blocksStart t ≤ p.blockStart t k := Nat.le_add_right _ _
  have hstart : p.blocksStart t = p.declsStart + Decl.widths t p.decls + p.body.width t + 1 := rfl
  rcases hx with hx | hx | hx
  · have hhigh := ((Decl.ordered_roots t [] p.decls (p.classes.map ClassDecl.named)
      p.declsStart).within x hx).2
    omega
  · have hhigh : x.stop t ≤ p.declsStart + Decl.widths t p.decls + p.body.width t :=
      ((p.body.ordered_sites t _ _).within x hx).2
    omega
  · exact Block.stop_ne_startOf hx hlt

end

end Classlet
