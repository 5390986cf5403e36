import Classlet.Proofs.Routines
import Classlet.Proofs.Run

/-!
The run of a whole program. The code first lays out the dispatch tables of the
classes, one after the other, and pushes their addresses; these are the slots of the
classes in the outermost frame. Then come the global declarations, the body and the
end of the run.
-/

namespace Classlet

open Code

section

variable {L : Listing} {M : Nat} {K : Route}

/-- The addresses of labels are put at the end of the heap. -/
theorem straight_entries (table : List Label) :
    ∀ s : Snapshot, s.pending = none → ∃ ip more,
      Straight L M K (table.flatMap fun l => .pushLabel l :: moveToHeap) s
        { s with ip, heap := s.heap ++ table.map (.word ∘ L.address)
                 stores := s.stores ++ more } := by
  induction table with
  | nil =>
    intro s _
    refine ⟨s.ip, [], ?_⟩
    rw [List.map_nil, List.append_nil, List.append_nil]
    rfl
  | cons l table ih =>
    intro s hnone
    obtain ⟨ip, more, hrest⟩ := ih
      { s with ip := s.ip + 9, heap := s.heap ++ [.word (L.address l)], pending := none
               stores := s.stores ++ [(s.ip + 3, s.heap.length)] } rfl
    refine ⟨ip, (s.ip + 3, s.heap.length) :: more, ?_⟩
    simp only [List.append_assoc, List.singleton_append] at hrest
    rw [List.flatMap_cons, List.map_cons, hnone]
    exact ⟨_, .pushLabel l, rfl, (straight_moveToHeap rfl).append hrest⟩

/-- A dispatch table is laid out at the end of the heap, and its address pushed. -/
theorem straight_layout (table : List Label) {s : Snapshot} (hnone : s.pending = none) :
    ∃ ip more, Straight L M K (ClassCode.layout { table }) s
      { s with ip, stack := .place (.heap s.heap.length) :: s.stack
               heap := s.heap ++ table.map (.word ∘ L.address), stores := s.stores ++ more } := by
  obtain ⟨ip, more, hentries⟩ := straight_entries (L := L) (M := M) (K := K) table
    { s with ip := s.ip + 1, stack := .place (.heap s.heap.length) :: s.stack } hnone
  exact ⟨ip, more, _, .pushReg .hp, rfl, hentries⟩

end

section

variable {S : Setting}

/-- The table of a class that is laid out at the end of the heap. -/
theorem table_of_layout {c : ClassDecl} {table : List Label} {l : Layout}
    (hl : layout? S.classes c.name = some l)
    (ht : TableOf S.program l table) (heap : List Cell) :
    S.Table (heap ++ table.map (.word ∘ S.listing.address)) c.name heap.length := by
  intro l' j x m hl' hj
  rw [hl] at hl'
  cases hl'
  obtain ⟨q, hq, hroutine⟩ := forall₂_getElem? ht hj
  refine ⟨q, ?_, hroutine⟩
  rw [List.getElem?_append_right (Nat.le_add_right _ _), Nat.add_sub_cancel_left, List.getElem?_map,
    hq]
  rfl

/-- The address of a dispatch table. -/
abbrev tableCell (table : Nat) : Cell := .place (.heap table)

/-- The dispatch tables of the classes are laid out one after the other. -/
theorem steps_tables {cs : List ClassDecl} {tables : List (List Label)}
    (h : List.Forall₂ (fun c table => ∃ l, layout? S.classes c.name = some l ∧
      TableOf S.program l table) cs tables) :
    ∀ s : Snapshot, s.pending = none → S.listing.Has s.ip (tables.flatMap tableLines) →
      ∃ n heap stores ts, s.heap <+: heap ∧ List.Forall₂ (fun c => S.Table heap c.name) cs ts ∧
        Steps S.listing S.size S.route n s
          { s with ip := s.ip + Line.sizes (tables.flatMap tableLines)
                   stack := (ts.map tableCell).reverse ++ s.stack, heap, stores } := by
  induction h with
  | nil =>
    intro s _ _
    exact ⟨0, s.heap, s.stores, [], List.prefix_refl _, .nil, .refl s⟩
  | @cons c table cs tables hc _ ih =>
    intro s hnone hhas
    obtain ⟨l, hl, ht⟩ := hc
    rw [List.flatMap_cons] at hhas ⊢
    obtain ⟨ip, more, hlayout⟩ := straight_layout (L := S.listing) (M := S.size)
      (K := S.route) table hnone
    obtain rfl : ip = s.ip + Line.sizes (tableLines table) := hlayout.ip
    obtain ⟨n, heap, stores, ts, hheap, hts, hsteps⟩ := ih
      { s with ip := s.ip + Line.sizes (tableLines table)
               stack := .place (.heap s.heap.length) :: s.stack
               heap := s.heap ++ table.map (.word ∘ S.listing.address), stores := s.stores ++ more }
      hnone hhas.right
    refine ⟨(ClassCode.layout { table }).length + n, heap, stores, s.heap.length :: ts,
      (List.prefix_append _ _).trans hheap, .cons ((table_of_layout hl ht s.heap).mono hheap) hts,
      ?_⟩
    have hboth := (hlayout.steps hhas.left).trans hsteps
    rw [Line.sizes_append, ← Nat.add_assoc, List.map_cons, List.reverse_cons, List.append_assoc]
    exact hboth

/-- The addresses of the tables stand in the slots of their classes. -/
theorem classesAt_of_tables {heap : List Cell} {ts : List Nat}
    (h : List.Forall₂ (fun c => S.Table heap c.name) S.program.classes ts) {s : Snapshot}
    (hheap : s.heap = heap) (hstack : s.stack = (ts.map tableCell).reverse ++ [.word 0]) :
    S.ClassesAt s := by
  intro cls d earlier hfound
  obtain ⟨later, hsplit⟩ := class?_suffix hfound
  have hclasses : S.program.classes = earlier.reverse ++ d :: later.reverse := by
    simpa using (congrArg List.reverse hsplit).symm
  have hd : S.program.classes[earlier.length]? = some d := by
    rw [hclasses, List.getElem?_append_right (by simp)]
    simp
  obtain ⟨table, ht, htable⟩ := forall₂_getElem? h hd
  obtain ⟨ts₁, ts₂, rfl, hlen⟩ : ∃ ts₁ ts₂, ts = ts₁ ++ table :: ts₂ ∧
      ts₁.length = earlier.length := by
    obtain ⟨hi, rfl⟩ := List.getElem?_eq_some_iff.mp ht
    refine ⟨ts.take earlier.length, ts.drop (earlier.length + 1), ?_, ?_⟩
    · rw [List.getElem_cons_drop, List.take_append_drop]
    · rw [List.length_take, Nat.min_eq_left (Nat.le_of_lt hi)]
  refine ⟨table, Or.inl
    ⟨(ts₂.map tableCell).reverse, (ts₁.map tableCell).reverse ++ [.word 0], ?_, ?_⟩, ?_⟩
  · rw [hstack]
    simp
  · rw [List.length_append, List.length_reverse, List.length_map, hlen, List.length_singleton]
    congr 1
    omega
  · rw [hheap, ← class?_name hfound]
    exact htable

/-- The machine is ready for the global declarations, with the dispatch tables laid
out. -/
theorem ready_outermost {s : Snapshot} (hheap : s.pending = none) (hout : s.output = [])
    (hfp : s.fp = .place (.stack 0)) (hclasses : S.ClassesAt s) :
    Ready S {} s [] (fun _ => .stack 0) 0 [classScope S.classes] [classFrame S.classes] where
  envTyped := .cons (frameAgree_classes (fun _ _ _ _ h => h) _) .nil
  storeTyped := by
    intro i o ho
    simp at ho
  fp := hfp
  env := ⟨.cons (frameAgree_classes (fun _ _ _ _ _ => trivial) _) .nil, Nat.zero_lt_one,
    fun n hn hn' => absurd hn' (Nat.not_lt.mpr hn)⟩
  store :=
    { count := rfl
      increasing := .nil
      below := by simp
      objects := by simp
      output := by rw [hout]; exact .nil
      pending := hheap
      classes := hclasses }

/-- The number of words in the outermost frame: one for each class and each declaration,
and one in front if there are any. -/
def Program.frameSize (p : Program) : Nat :=
  if p.declaresAny then 1 + p.classes.length + p.decls.length else 0

/-- The end of a program: its word is on the stack, above the outermost frame, and the
next instruction is the last. -/
def Setting.Finishes (S : Setting) (v : Value) (st : Store) (s : Snapshot) : Prop :=
  S.listing.Has s.ip [.instr (.plain .halt)] ∧ s.fp = .place (.stack 0) ∧
    ∃ addresses w rest, s.stack = w :: rest ∧ rest.length = S.program.frameSize ∧
      v.Kept addresses w ∧ S.StoreAt st s addresses

/-- The first part of a run, up to the global declarations. -/
theorem steps_start {front : List Line} {tables : List (List Label)}
    (hfront : S.program.declaresAny ∧ front = instrs [.push 0] ∨
      front = [] ∧ S.program.classes = [] ∧ S.program.decls = [])
    (htables : List.Forall₂ (fun c table => ∃ l, layout? S.classes c.name = some l ∧
      TableOf S.program l table) S.program.classes tables)
    (hhas : S.listing.Has 0 (front ++ tables.flatMap tableLines)) :
    ∃ n s, Steps S.listing S.size S.route n .initial s ∧
      s.ip = Line.sizes (front ++ tables.flatMap tableLines) ∧ s.fp = .place (.stack 0) ∧
      s.stack.length + S.program.decls.length = S.program.frameSize ∧
      Ready S {} s [] (fun _ => .stack 0) 0 [classScope S.classes] [classFrame S.classes] := by
  rcases hfront with ⟨hany, rfl⟩ | ⟨rfl, hclasses, hdecls⟩
  · obtain ⟨n, heap, stores, ts, -, hts, hsteps⟩ := steps_tables htables
      { Snapshot.initial with ip := 2, stack := [.word 0] } rfl hhas.right
    refine ⟨1 + n, _, (Steps.single hhas.left (.push 0)).trans hsteps, ?_, rfl, ?_,
      ready_outermost rfl rfl rfl (classesAt_of_tables hts rfl rfl)⟩
    · rw [Line.sizes_append]
      rfl
    · simp [Program.frameSize, hany, hts.length_eq, Nat.add_comm]
  · rw [hclasses] at htables
    cases htables
    refine ⟨0, _, .refl _, rfl, rfl, ?_, ready_outermost rfl rfl rfl ?_⟩
    · simp [Program.frameSize, Program.declaresAny, hclasses, hdecls, Snapshot.initial]
    · intro cls d earlier hfound
      simp [Setting.classes, hclasses, class?] at hfound

/-- The global declarations are behind the classes in the outermost frame. -/
theorem Setting.Valid.declares {t : Ty} (hS : S.Valid t) :
    S.Declares [] (S.program.classes.map ClassDecl.named) S.program.decls S.program.declsStart := by
  refine ⟨?_, fun d hd => ?_, List.subset_append_left _ _⟩
  · simpa [ClassDecl.named, Function.comp_def] using hS.resolved.names
  · cases d with
    | var id x type init pos =>
      refine Program.isValue_of_mem (List.mem_append_right _ (List.mem_append_right _ ?_))
      exact List.mem_filterMap.mpr ⟨_, hd, rfl⟩
    | fn id f params ret decls body pos =>
      refine Program.isValue_of_nonValue hS.ids
        (List.mem_append_right _ (List.mem_append_right _ ?_))
      exact List.mem_filterMap.mpr ⟨_, hd, rfl⟩

/-- The machine follows the evaluation of a program. -/
theorem Setting.Valid.follows {t : Ty} (hS : S.Valid t) (depth : Nat) :
    Follows S depth (S.program.eval depth) .initial S.Finishes := by
  obtain ⟨front, tables, ds, bs, blocks, hfront, htables, hds, hbs, -, hsizes, hstart, hdecls,
    hbody, hhalt, -⟩ := hS.listing.parts
  have hsafe := invoke_safe hS.resolved hS.typed depth
  have hcall := follows_invoke hS depth
  obtain ⟨n, s, hsteps, hip, hfp, hstack, hr⟩ := steps_start hfront htables hstart
  rw [hsizes] at hip
  have hplace : S.program.decls ≠ [] →
      Place.stack 0 = .stack (S.program.classes.length + 1 - s.stack.length) := by
    intro hne
    have hany : S.program.declaresAny := by
      simp [Program.declaresAny, hne]
    rw [Program.frameSize, if_pos hany] at hstack
    congr 1
    omega
  refine .steps hsteps ((follows_evalAll hS hsafe hcall S.program.decls _ _ []
    S.program.classes.length _ {} s [] ds hS.resolved.decls hS.typed.decls (hip ▸ hS.declares) hds
    (hip ▸ hdecls) (.cons (Naming.fits_classes hS.ids) .nil) hr hplace).bind ?_)
  rintro env st₁ s₁ ⟨hip₁, hfits, addresses₁, locals, hlocals, hstack₁, hadv₁, hr₁⟩
  rw [hip, hds.sizes] at hip₁
  rw [← hip₁] at hbody hhalt
  have hplaced : S.Placed env s₁.ip S.program.body := by
    refine ⟨_, hfits, ?_⟩
    rw [hip₁]
    exact Program.inner_subset (List.mem_append_right _ List.mem_cons_self)
  refine (exprFollows hS hsafe hcall S.program.body _ t env st₁ s₁ addresses₁ _ 0 bs
    ⟨hS.resolved.body, hS.typed.body, hbs, hplaced⟩ hbody hr₁).mono ?_
  rintro v st₂ s₂ ⟨hip₂, addresses₂, w, hadv₂, hstack₂, hv⟩
  rw [← hbs.sizes, ← hip₂] at hhalt
  refine ⟨hhalt, ?_, addresses₂, w, _, hstack₂, ?_, hv, hadv₂.store⟩
  · rw [hadv₂.fp, hadv₁.fp, hfp]
  · rw [hstack₁, List.length_append, hlocals, ← hstack, Nat.add_comm]

end

end Classlet
