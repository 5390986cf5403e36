import Mathlib.Data.List.Basic
import Mathlib.Data.Nat.Find
import Classlet.Code.Draft

/-!
Where everything that is written to a draft ends up. Edits are told apart by their places in
the order in which they are made. A block is open from the edit that opens it until more
blocks have been closed than opened since, and an edit belongs to the innermost block that
is open when it is made. The finished listing has the edits that belong to no block, then
those of the blocks still open, innermost first, then those of the closed blocks in the order
in which they were closed; so every edit has its lines there once, and those of a block stand
together.
-/

namespace Classlet.Draft

/-- What can be done to a draft before it is finished. -/
inductive Edit where
  | instr (i : Instr)
  | instrs (is : List Instr)
  | repeated (i : Instr) (count : Nat)
  | label (l : Label)
  | takeBranch
  | takeFunction
  | openBlock
  | closeBlock (l : Label)

namespace Edit

def apply (d : Draft) : Edit → Draft
  | .instr i => d.writeInstrs [i]
  | .instrs is => d.writeInstrs is
  | .repeated i count => d.writeInstrs (List.replicate count i)
  | .label l => d.writeLabel l
  | .takeBranch => d.takeBranch.2
  | .takeFunction => d.takeFunction.2
  | .openBlock => d.openBlock
  | .closeBlock l => d.closeBlock l

/-- The lines that an edit contributes; the label under which a block is closed is one. -/
def lines : Edit → List Line
  | .instr i => [.instr i]
  | .instrs is => is.map .instr
  | .repeated i count => List.replicate count (.instr i)
  | .label l | .closeBlock l => [.label l]
  | .takeBranch | .takeFunction | .openBlock => []

def opens : Edit → Bool
  | .openBlock => true
  | .instr _ | .instrs _ | .repeated _ _ | .label _ | .takeBranch | .takeFunction
  | .closeBlock _ => false

def closes : Edit → Bool
  | .closeBlock _ => true
  | .instr _ | .instrs _ | .repeated _ _ | .label _ | .takeBranch | .takeFunction
  | .openBlock => false

theorem closes_of_opens {e : Edit} (h : e.opens = true) : e.closes = false := by
  cases e with
  | closeBlock l => cases h
  | _ => rfl

end Edit

/-- The draft after some edits. -/
def edited (es : List Edit) : Draft := es.foldl Edit.apply {}

def opensAt (es : List Edit) (i : Nat) : Bool := es[i]?.any Edit.opens

def closesAt (es : List Edit) (i : Nat) : Bool := es[i]?.any Edit.closes

/-- How many more blocks the first `i` edits open than they close. -/
def balance (es : List Edit) (i : Nat) : Int :=
  (es.take i).countP Edit.opens - (es.take i).countP Edit.closes

/-- The edit at `j` opens a block that is still open before the edit at `i`: at no point in
between have more blocks been closed than opened since. -/
def IsOpen (es : List Edit) (j i : Nat) : Prop :=
  j < i ∧ opensAt es j = true ∧ ∀ k ≤ i, j < k → balance es j < balance es k

instance (es : List Edit) (j i : Nat) : Decidable (IsOpen es j i) :=
  inferInstanceAs (Decidable (_ ∧ _ ∧ _))

/-- The blocks that are open before the edit at `i`, innermost first, each by the place of the
edit that opens it. -/
def openBlocks (es : List Edit) (i : Nat) : List Nat :=
  (List.range i).reverse.filter fun j => IsOpen es j i

/-- The block that the edit at `i` belongs to, or closes, if one is open. -/
def home (es : List Edit) (i : Nat) : Option Nat := (openBlocks es i).head?

/-- Those of the first `t` edits that belong to a block, or to none, in order. -/
def places (es : List Edit) (block : Option Nat) (t : Nat) : List Nat :=
  (List.range t).filter fun i => !closesAt es i && home es i = block

/-- Those of the first `t` edits that close a block, in order, and behind each of them the
edits that belong to the block. -/
def filed (es : List Edit) (t : Nat) : List Nat :=
  ((List.range t).filter (closesAt es)).flatMap fun k =>
    k :: (home es k).elim [] fun j => places es (some j) t

/-- The first `t` edits as they come in a listing in which some blocks are open. -/
def orderWith (es : List Edit) (t : Nat) (blocks : List Nat) : List Nat :=
  places es none t ++ blocks.flatMap (fun j => places es (some j) t) ++ filed es t

/-- All edits as they come in the finished listing. -/
def order (es : List Edit) : List Nat := orderWith es es.length (openBlocks es es.length)

def linesAt (es : List Edit) (is : List Nat) : List Line :=
  is.flatMap fun i => es[i]?.elim [] Edit.lines

section

variable {es : List Edit} {i j k t : Nat}

/-! Blocks are opened and closed at one end: the one that is closed is the one that was opened
last. -/

theorem balance_succ (es : List Edit) (t : Nat) :
    balance es (t + 1) = balance es t + (opensAt es t).toNat - (closesAt es t).toNat := by
  rw [balance, List.take_add_one, List.countP_append, List.countP_append, balance, opensAt,
    closesAt]
  cases es[t]? with
  | none => simp
  | some e =>
    simp only [Option.toList_some, List.countP_singleton, Option.any_some]
    cases e.opens <;> cases e.closes <;> simp <;> omega

theorem closesAt_of_opensAt (h : opensAt es t = true) : closesAt es t = false := by
  obtain ⟨e, he, hopens⟩ := (Option.any_eq_true _ _).mp h
  rw [closesAt, he, Option.any_some, Edit.closes_of_opens hopens]

theorem opensAt_of_closesAt (h : closesAt es t = true) : opensAt es t = false := by
  refine Bool.eq_false_iff.mpr fun ho => ?_
  rw [closesAt_of_opensAt ho] at h
  cases h

theorem balance_opens (h : opensAt es t = true) : balance es (t + 1) = balance es t + 1 := by
  rw [balance_succ, h, closesAt_of_opensAt h]
  exact Int.sub_zero _

theorem balance_closes (h : closesAt es t = true) : balance es (t + 1) = balance es t - 1 := by
  rw [balance_succ, h, opensAt_of_closesAt h]
  exact congrArg (· - 1) (Int.add_zero _)

theorem opensAt_of_balance_lt (h : balance es t < balance es (t + 1)) : opensAt es t = true := by
  by_contra hopens
  rw [balance_succ, Bool.eq_false_iff.mpr hopens, Bool.toNat_false, Int.natCast_zero] at h
  omega

theorem isOpen_self (h : opensAt es t = true) : IsOpen es t (t + 1) := by
  refine ⟨Nat.lt_succ_self t, h, fun k hk htk => ?_⟩
  obtain rfl : k = t + 1 := by omega
  rw [balance_opens h]
  omega

theorem IsOpen.balance_lt (h : IsOpen es j i) : balance es j < balance es i :=
  h.2.2 i (Nat.le_refl i) h.1

theorem isOpen_succ (hj : j < t) :
    IsOpen es j (t + 1) ↔ IsOpen es j t ∧ balance es j < balance es (t + 1) := by
  constructor
  · rintro ⟨-, ho, h⟩
    exact ⟨⟨hj, ho, fun k hk => h k (by omega)⟩, h _ (Nat.le_refl _) (by omega)⟩
  · rintro ⟨⟨-, ho, h⟩, hlast⟩
    refine ⟨by omega, ho, fun k hk hjk => ?_⟩
    rcases Nat.lt_or_ge t k with htk | hkt
    · obtain rfl : k = t + 1 := by omega
      exact hlast
    · exact h k hkt hjk

/-- Where the balance has risen, some block that was opened on the way is still open: the one
whose opening took the balance above its start for the last time. -/
theorem exists_isOpen (hji : j ≤ i) (h : balance es j < balance es i) :
    ∃ k, j ≤ k ∧ IsOpen es k i := by
  let k := Nat.findGreatest (fun k => balance es k ≤ balance es j) i
  have hk : balance es k ≤ balance es j :=
    Nat.findGreatest_spec (P := fun k => balance es k ≤ balance es j) hji (Int.le_refl _)
  have hjk : j ≤ k := Nat.le_findGreatest hji (Int.le_refl _)
  have hle : k ≤ i := Nat.findGreatest_le i
  have hafter : ∀ m ≤ i, k < m → balance es k < balance es m := by
    intro m hm hkm
    have := Nat.findGreatest_is_greatest hkm hm
    omega
  have hlt : k < i := by
    refine Nat.lt_of_le_of_ne hle fun heq => ?_
    rw [heq] at hk
    omega
  exact ⟨k, hjk, hlt, opensAt_of_balance_lt (hafter (k + 1) hlt (Nat.lt_succ_self k)), hafter⟩

theorem mem_openBlocks : j ∈ openBlocks es i ↔ IsOpen es j i := by
  simp only [openBlocks, List.mem_filter, List.mem_reverse, List.mem_range, decide_eq_true_eq]
  exact ⟨fun h => h.2, fun h => ⟨h.1, h⟩⟩

theorem openBlocks_sorted (es : List Edit) (i : Nat) : (openBlocks es i).Pairwise (· > ·) :=
  (List.pairwise_reverse.mpr List.pairwise_lt_range).filter _

theorem openBlocks_opens (h : opensAt es t = true) :
    openBlocks es (t + 1) = t :: openBlocks es t := by
  rw [openBlocks, List.range_succ, List.reverse_append, List.reverse_singleton,
    List.singleton_append, List.filter_cons_of_pos (by simpa using isOpen_self h), openBlocks]
  congr 1
  refine List.filter_congr fun j hj => decide_eq_decide.mpr ?_
  rw [isOpen_succ (List.mem_range.mp (List.mem_reverse.mp hj)), balance_opens h]
  refine ⟨fun ho => ho.1, fun ho => ⟨ho, ?_⟩⟩
  have := ho.balance_lt
  omega

/-- Where no block is opened, those stay open that the balance is still above. -/
theorem openBlocks_succ (h : opensAt es t = false) :
    openBlocks es (t + 1) =
      (openBlocks es t).filter fun j => balance es j < balance es (t + 1) := by
  have hself : ¬ IsOpen es t (t + 1) := fun ho => Bool.noConfusion (h.symm.trans ho.2.1)
  rw [openBlocks, List.range_succ, List.reverse_append, List.reverse_singleton,
    List.singleton_append, List.filter_cons_of_neg (by simpa using hself), openBlocks,
    List.filter_filter]
  refine List.filter_congr fun j hj => ?_
  rw [Bool.and_comm, ← Bool.decide_and]
  exact decide_eq_decide.mpr (isOpen_succ (List.mem_range.mp (List.mem_reverse.mp hj)))

theorem openBlocks_other (ho : opensAt es t = false) (hc : closesAt es t = false) :
    openBlocks es (t + 1) = openBlocks es t := by
  rw [openBlocks_succ ho, balance_succ, ho, hc]
  refine List.filter_eq_self.mpr fun j hj => ?_
  simpa using (mem_openBlocks.mp hj).balance_lt

theorem openBlocks_closes (h : closesAt es t = true) :
    openBlocks es (t + 1) = (openBlocks es t).tail := by
  rw [openBlocks_succ (opensAt_of_closesAt h), balance_closes h]
  have hsorted := openBlocks_sorted es t
  cases hblocks : openBlocks es t with
  | nil => rfl
  | cons j rest =>
    rw [hblocks] at hsorted
    have hj : IsOpen es j t := mem_openBlocks.mp (hblocks ▸ List.mem_cons_self)
    -- If the balance were higher, a block opened after the innermost one would be open.
    have htop : balance es t ≤ balance es j + 1 := by
      by_contra hhigh
      rw [← balance_opens hj.2.1] at hhigh
      obtain ⟨k, hjk, hk⟩ := exists_isOpen hj.1 (Int.not_le.mp hhigh)
      have hmem := mem_openBlocks.mpr hk
      rw [hblocks] at hmem
      rcases List.mem_cons.mp hmem with rfl | hmem
      · omega
      · have := List.rel_of_pairwise_cons hsorted hmem
        omega
    rw [List.filter_cons_of_neg (by simp only [decide_eq_true_eq]; omega), List.tail_cons]
    refine List.filter_eq_self.mpr fun k hk => ?_
    have hopen : IsOpen es k t := mem_openBlocks.mp (hblocks ▸ List.mem_cons_of_mem _ hk)
    have hkj : k < j := List.rel_of_pairwise_cons hsorted hk
    have hbelow := hopen.2.2 j (Nat.le_of_lt hj.1) hkj
    have := hj.balance_lt
    simp only [decide_eq_true_eq]
    omega

/-! An edit belongs to the innermost block, or to none. -/

theorem home_of_nil (h : openBlocks es t = []) : home es t = none := by
  rw [home, h, List.head?_nil]

theorem home_of_cons {rest : List Nat} (h : openBlocks es t = j :: rest) : home es t = some j := by
  rw [home, h, List.head?_cons]

theorem isOpen_of_home (h : home es i = some j) : IsOpen es j i :=
  mem_openBlocks.mp (List.mem_of_mem_head? h)

theorem places_succ (es : List Edit) (block : Option Nat) (t : Nat) :
    places es block (t + 1) =
      places es block t ++ if closesAt es t = false ∧ home es t = block then [t] else [] := by
  rw [places, List.range_succ, List.filter_append, List.filter_singleton, places]
  simp

theorem places_succ_home (hc : closesAt es t = false) :
    places es (home es t) (t + 1) = places es (home es t) t ++ [t] := by
  rw [places_succ, if_pos ⟨hc, rfl⟩]

theorem places_succ_other {block : Option Nat} (h : home es t ≠ block) :
    places es block (t + 1) = places es block t := by
  rw [places_succ, if_neg fun hb => h hb.2, List.append_nil]

theorem places_succ_closes (hc : closesAt es t = true) (block : Option Nat) :
    places es block (t + 1) = places es block t := by
  rw [places_succ, if_neg fun hb => Bool.noConfusion (hc.symm.trans hb.1), List.append_nil]

/-- No edit belongs to a block before it is opened. -/
theorem places_self (es : List Edit) (t : Nat) : places es (some t) (t + 1) = [] := by
  refine List.filter_eq_nil_iff.mpr fun i hi => ?_
  simp only [Bool.and_eq_true, decide_eq_true_eq, not_and]
  intro _ hhome
  have := (isOpen_of_home hhome).1
  have := List.mem_range.mp hi
  omega

/-- A block that is closed stays closed. -/
theorem home_ne_of_closes (hk : closesAt es k = true) (hhome : home es k = some j) (hkt : k < t) :
    home es t ≠ some j := by
  intro hagain
  have hbefore := isOpen_of_home hhome
  have hafter : j ∈ openBlocks es (k + 1) := by
    obtain ⟨-, ho, h⟩ := isOpen_of_home hagain
    exact mem_openBlocks.mpr ⟨Nat.lt_succ_of_lt hbefore.1, ho, fun m hm => h m (by omega)⟩
  have hsorted := openBlocks_sorted es k
  obtain ⟨rest, hblocks⟩ := List.head?_eq_some_iff.mp hhome
  rw [openBlocks_closes hk, hblocks] at hafter
  rw [hblocks] at hsorted
  exact Nat.lt_irrefl j (List.rel_of_pairwise_cons hsorted hafter)

theorem filed_succ (es : List Edit) (t : Nat) :
    filed es (t + 1) = filed es t ++
      if closesAt es t then t :: (home es t).elim [] (fun j => places es (some j) t) else [] := by
  rw [filed, List.range_succ, List.filter_append, List.flatMap_append, filed]
  congr 1
  · refine List.flatMap_congr fun k hk => ?_
    obtain ⟨hlt, hcloses⟩ := List.mem_filter.mp hk
    cases hhome : home es k with
    | none => rfl
    | some j =>
      rw [Option.elim_some, Option.elim_some,
        places_succ_other (home_ne_of_closes hcloses hhome (List.mem_range.mp hlt))]
  · cases hc : closesAt es t with
    | true =>
      rw [List.filter_cons_of_pos hc, if_pos rfl, List.filter_nil, List.flatMap_singleton]
      simp only [places_succ_closes hc]
    | false =>
      rw [List.filter_cons_of_neg (Bool.eq_false_iff.mp hc), List.filter_nil, List.flatMap_nil]
      rfl

theorem filed_succ_other (hc : closesAt es t = false) : filed es (t + 1) = filed es t := by
  rw [filed_succ, hc]
  exact List.append_nil _

/-- Every block that has been opened is open or has been closed. -/
theorem mem_openBlocks_or_closed (h : opensAt es j = true) (hjt : j < t) :
    j ∈ openBlocks es t ∨ ∃ k < t, closesAt es k = true ∧ home es k = some j := by
  induction t with
  | zero => exact absurd hjt (Nat.not_lt_zero j)
  | succ t ih =>
    rcases Nat.lt_succ_iff_lt_or_eq.mp hjt with hlt | rfl
    · rcases ih hlt with hopen | ⟨k, hk, hclosed⟩
      · cases hc : closesAt es t with
        | true =>
          obtain ⟨innermost, rest, hblocks⟩ := List.exists_cons_of_ne_nil (List.ne_nil_of_mem hopen)
          rw [openBlocks_closes hc, hblocks]
          rw [hblocks] at hopen
          rcases List.mem_cons.mp hopen with rfl | hrest
          · exact Or.inr ⟨t, Nat.lt_succ_self t, hc, home_of_cons hblocks⟩
          · exact Or.inl hrest
        | false =>
          cases ho : opensAt es t with
          | true =>
            rw [openBlocks_opens ho]
            exact Or.inl (List.mem_cons_of_mem _ hopen)
          | false =>
            rw [openBlocks_other ho hc]
            exact Or.inl hopen
      · exact Or.inr ⟨k, Nat.lt_succ_of_lt hk, hclosed⟩
    · exact Or.inl (mem_openBlocks.mpr (isOpen_self h))

/-! One more edit comes last in the block that it belongs to, and an edit that closes a block
moves it behind the closed ones. -/

theorem places_succ_outer (hc : closesAt es t = false) (h : openBlocks es t = []) :
    places es none (t + 1) = places es none t ++ [t] := by
  rw [← home_of_nil h, places_succ_home hc]

section

variable {rest : List Nat} (h : openBlocks es t = j :: rest)

include h

theorem places_succ_innermost (hc : closesAt es t = false) :
    places es (some j) (t + 1) = places es (some j) t ++ [t] := by
  rw [← home_of_cons h, places_succ_home hc]

theorem places_succ_enclosing :
    places es none (t + 1) = places es none t ∧
      ∀ k ∈ rest, places es (some k) (t + 1) = places es (some k) t := by
  have hsorted := openBlocks_sorted es t
  rw [h] at hsorted
  refine ⟨places_succ_other ?_, fun k hk => places_succ_other ?_⟩
  · rw [home_of_cons h]
    exact Option.some_ne_none j
  · rw [home_of_cons h]
    have := List.rel_of_pairwise_cons hsorted hk
    exact fun heq => Nat.ne_of_gt this (Option.some.inj heq)

end

theorem orderWith_succ (hc : closesAt es t = false) :
    (orderWith es (t + 1) (openBlocks es t)).Perm (t :: orderWith es t (openBlocks es t)) := by
  cases h : openBlocks es t with
  | nil =>
    rw [orderWith, places_succ_outer hc h, filed_succ_other hc, orderWith]
    simp [List.perm_middle]
  | cons j rest =>
    obtain ⟨houter, hrest⟩ := places_succ_enclosing h
    rw [orderWith, List.flatMap_cons, houter, places_succ_innermost h hc, List.flatMap_congr hrest,
      filed_succ_other hc, orderWith, List.flatMap_cons]
    simp only [List.append_assoc, List.singleton_append]
    exact (List.perm_middle.append_left _).trans List.perm_middle

theorem orderWith_closes (hc : closesAt es t = true) :
    (orderWith es (t + 1) (openBlocks es t).tail).Perm (t :: orderWith es t (openBlocks es t)) := by
  have hplaces := places_succ_closes hc
  simp only [orderWith, filed_succ, hplaces, hc, if_true]
  cases h : openBlocks es t with
  | nil =>
    rw [home_of_nil h, Option.elim_none, List.tail_nil, ← List.append_assoc]
    exact List.perm_append_singleton t _
  | cons j rest =>
    rw [home_of_cons h, Option.elim_some, List.tail_cons, List.flatMap_cons, ← List.append_assoc]
    refine List.perm_middle.trans (.cons t ?_)
    simp only [List.append_assoc]
    refine .append_left _ ?_
    rw [← List.append_assoc]
    exact List.perm_append_comm

theorem perm_orderWith (es : List Edit) (t : Nat) :
    (orderWith es t (openBlocks es t)).Perm (List.range t) := by
  induction t with
  | zero => exact .refl _
  | succ t ih =>
    have hrange : (t :: List.range t).Perm (List.range (t + 1)) := by
      rw [List.range_succ]
      exact (List.perm_append_singleton t _).symm
    refine List.Perm.trans ?_ ((ih.cons t).trans hrange)
    cases hc : closesAt es t with
    | true =>
      rw [openBlocks_closes hc]
      exact orderWith_closes hc
    | false =>
      cases ho : opensAt es t with
      | true =>
        rw [openBlocks_opens ho, orderWith, List.flatMap_cons, places_self, List.nil_append]
        exact orderWith_succ hc
      | false =>
        rw [openBlocks_other ho hc]
        exact orderWith_succ hc

theorem linesAt_append (es : List Edit) (is is' : List Nat) :
    linesAt es (is ++ is') = linesAt es is ++ linesAt es is' := List.flatMap_append

theorem linesAt_cons {e : Edit} (h : es[t]? = some e) (is : List Nat) :
    linesAt es (t :: is) = e.lines ++ linesAt es is := by
  rw [linesAt, List.flatMap_cons, h, Option.elim_some, linesAt]

theorem linesAt_singleton {e : Edit} (h : es[t]? = some e) : linesAt es [t] = e.lines := by
  rw [linesAt_cons h]
  exact List.append_nil _

/-- A draft has the lines of the first `t` edits where they belong, and the given blocks are
open. -/
structure Shows (es : List Edit) (t : Nat) (blocks : List Nat) (d : Draft) : Prop where
  outer : d.outer = linesAt es (places es none t)
  opened : d.opened = blocks.map fun j => linesAt es (places es (some j) t)
  closed : d.closed = linesAt es (filed es t)

theorem write_nil (d : Draft) : d.write [] = d := by
  obtain ⟨labels, outer, opened, closed⟩ := d
  cases opened <;> simp [write]

namespace Shows

variable {d : Draft} {blocks : List Nat} {e : Edit}

theorem finish_lines (h : Shows es t blocks d) :
    d.finish.lines = linesAt es (orderWith es t blocks) := by
  rw [finish, h.outer, h.opened, h.closed, orderWith, linesAt_append, linesAt_append, linesAt,
    linesAt, linesAt, List.flatMap_assoc, List.flatMap_def]
  rfl

theorem write (h : Shows es t (openBlocks es t) d) (he : es[t]? = some e)
    (hc : closesAt es t = false) : Shows es (t + 1) (openBlocks es t) (d.write e.lines) := by
  have hclosed : d.closed = linesAt es (filed es (t + 1)) := by rw [filed_succ_other hc, h.closed]
  have hopened := h.opened
  cases hblocks : openBlocks es t with
  | nil =>
    rw [hblocks, List.map_nil] at hopened
    rw [Draft.write, hopened]
    refine ⟨?_, rfl, hclosed⟩
    rw [places_succ_outer hc hblocks, linesAt_append, linesAt_singleton he, h.outer]
  | cons j rest =>
    obtain ⟨houter, hrest⟩ := places_succ_enclosing hblocks
    rw [hblocks, List.map_cons] at hopened
    rw [Draft.write, hopened]
    refine ⟨by rw [houter, h.outer], ?_, hclosed⟩
    rw [List.map_cons, places_succ_innermost hblocks hc, linesAt_append, linesAt_singleton he]
    refine congrArg (List.cons _) (List.map_congr_left fun k hk => ?_)
    rw [hrest k hk]

theorem close {l : Label} (h : Shows es t (openBlocks es t) d) (he : es[t]? = some (.closeBlock l))
    (hc : closesAt es t = true) : Shows es (t + 1) (openBlocks es (t + 1)) (d.closeBlock l) := by
  have hplaces := places_succ_closes hc
  have hclosed : d.closed ++ .label l :: linesAt es
      ((home es t).elim [] fun j => places es (some j) t) = linesAt es (filed es (t + 1)) := by
    rw [filed_succ, if_pos hc, linesAt_append, linesAt_cons he, h.closed]
    rfl
  have hopened := h.opened
  rw [openBlocks_closes hc, closeBlock]
  cases hblocks : openBlocks es t with
  | nil =>
    rw [hblocks, List.map_nil] at hopened
    rw [home_of_nil hblocks] at hclosed
    rw [hopened]
    exact ⟨by rw [hplaces, h.outer], rfl, hclosed⟩
  | cons j rest =>
    rw [hblocks, List.map_cons] at hopened
    rw [home_of_cons hblocks] at hclosed
    rw [hopened]
    refine ⟨by rw [hplaces, h.outer], ?_, hclosed⟩
    simp only [hplaces, List.tail_cons]

theorem step (h : Shows es t (openBlocks es t) d) (he : es[t]? = some e) :
    Shows es (t + 1) (openBlocks es (t + 1)) (e.apply d) := by
  have hopens : opensAt es t = e.opens := by rw [opensAt, he, Option.any_some]
  have hcloses : closesAt es t = e.closes := by rw [closesAt, he, Option.any_some]
  cases e with
  | instr i | instrs is | label l =>
    rw [openBlocks_other hopens hcloses]
    exact h.write he hcloses
  | repeated i count =>
    rw [openBlocks_other hopens hcloses, Edit.apply, writeInstrs, List.map_replicate]
    exact h.write he hcloses
  | takeBranch | takeFunction =>
    rw [openBlocks_other hopens hcloses]
    have hsame := h.write he hcloses
    rw [Edit.lines, write_nil] at hsame
    exact ⟨hsame.outer, hsame.opened, hsame.closed⟩
  | openBlock =>
    have hsame := h.write he hcloses
    rw [Edit.lines, write_nil] at hsame
    refine ⟨hsame.outer, ?_, hsame.closed⟩
    rw [openBlocks_opens hopens, List.map_cons, places_self, ← hsame.opened]
    rfl
  | closeBlock l => exact h.close he hcloses

/-- The draft after the first edits has their lines where they belong. -/
theorem take (ht : t ≤ es.length) : Shows es t (openBlocks es t) (edited (es.take t)) := by
  induction t with
  | zero => exact ⟨rfl, rfl, rfl⟩
  | succ t ih =>
    have he : es[t]? = some es[t] := List.getElem?_eq_getElem ht
    have hsucc : edited (es.take (t + 1)) = es[t].apply (edited (es.take t)) := by
      rw [edited, List.take_add_one, he, List.foldl_append]
      rfl
    rw [hsucc]
    exact (ih (Nat.le_of_lt ht)).step he

end Shows

theorem places_infix_order (h : opensAt es j = true) :
    places es (some j) es.length <:+: order es := by
  have hlt : j < es.length := by
    obtain ⟨e, he, -⟩ := (Option.any_eq_true _ _).mp h
    exact (List.getElem?_eq_some_iff.mp he).1
  rcases mem_openBlocks_or_closed h hlt with hopen | ⟨k, hk, hcloses, hhome⟩
  · have hblock := List.infix_flatMap_of_mem hopen fun j => places es (some j) es.length
    exact hblock.trans ⟨places es none es.length, filed es es.length, rfl⟩
  · have hfiled : k :: places es (some j) es.length <:+: filed es es.length := by
      have hmem := List.mem_filter.mpr ⟨List.mem_range.mpr hk, hcloses⟩
      have hblock := List.infix_flatMap_of_mem hmem fun k =>
        k :: (home es k).elim [] fun j => places es (some j) es.length
      rw [hhome] at hblock
      exact hblock
    have hbody := (List.suffix_cons k (places es (some j) es.length)).isInfix
    exact hbody.trans (hfiled.trans (List.suffix_append _ _).isInfix)

/-- Nothing that is written to a draft is lost, doubled or moved about: the finished listing has
the lines of all edits, in an order in which every edit comes once, and the edits that belong
to a block come in one piece. -/
theorem finish_edited (es : List Edit) :
    (edited es).finish.lines = linesAt es (order es) ∧ (order es).Perm (List.range es.length) ∧
      ∀ j, opensAt es j = true → places es (some j) es.length <:+: order es := by
  have hshows : Shows es es.length (openBlocks es es.length) (edited es) := by
    have h := Shows.take (Nat.le_refl es.length)
    rwa [List.take_length] at h
  exact ⟨hshows.finish_lines, perm_orderWith es es.length, fun j hj => places_infix_order hj⟩

/-- Two nested blocks, a label that closes no block, and two blocks that stay open. -/
def tangledEdits : List Edit :=
  [.instr (.push 1), .openBlock, .instr (.push 2), .openBlock, .label (.branch 0),
    .closeBlock (.function 0), .instr (.push 3), .closeBlock (.function 1),
    .closeBlock (.function 2), .openBlock, .instr (.push 4), .openBlock, .repeated (.plain .pop) 2]

theorem tangledEdits_listed :
    order tangledEdits = [0, 1, 9, 12, 10, 11, 5, 4, 7, 2, 3, 6, 8] ∧
      (edited tangledEdits).finish.lines =
        [.instr (.push 1), .instr (.plain .pop), .instr (.plain .pop), .instr (.push 4),
          .label (.function 0), .label (.branch 0), .label (.function 1), .instr (.push 2),
          .instr (.push 3), .label (.function 2)] ∧
      opensAt tangledEdits 1 = true ∧ places tangledEdits (some 1) 13 = [2, 3, 6] ∧
      places tangledEdits (some 1) 13 <:+: order tangledEdits := by
  obtain ⟨hlines, -, hblocks⟩ := finish_edited tangledEdits
  have horder : order tangledEdits = [0, 1, 9, 12, 10, 11, 5, 4, 7, 2, 3, 6, 8] := by
    decide +kernel
  have hopens : opensAt tangledEdits 1 = true := rfl
  refine ⟨horder, ?_, hopens, by decide +kernel, hblocks 1 hopens⟩
  rw [hlines, horder]
  rfl

end

end Classlet.Draft
