import Classlet.Proofs.Evaluation
import Classlet.Proofs.Sites
import Classlet.Proofs.StaticChain

/-!
Which names stand for values. Fields, parameters and variables are declared for values;
functions, methods and classes are not, and as every node has a number of its own the
numbers tell which is which. In an evaluation the frames of the text and those of the
environment have the same names, and a name stands for a value in the environment if its
declaration is one of a value.
-/

namespace Classlet

/-! Nodes. -/

namespace Decl

/-- The node of a variable. -/
def valueId? : Decl → Option NodeId
  | .var id .. => some id
  | .fn .. => none

/-- The node of a function. -/
def functionId? : Decl → Option NodeId
  | .var .. => none
  | .fn id .. => some id

end Decl

namespace Block

/-- The parameters and the variables of a function or method. -/
def values (b : Block) : List NodeId := b.params.map Binder.id ++ b.decls.filterMap Decl.valueId?

/-- The functions that are declared in a function or method itself. -/
def functions (b : Block) : List NodeId := b.decls.filterMap Decl.functionId?

end Block

namespace Program

/-- The nodes of the fields, the parameters and the variables of a program. -/
def values (p : Program) : List NodeId :=
  p.classes.flatMap (fun c => c.fields.map Binder.id) ++
    (p.blocks.flatMap Block.values ++ p.decls.filterMap Decl.valueId?)

/-- The nodes of the classes, the methods and the functions of a program. -/
def nonValues (p : Program) : List NodeId :=
  p.classes.flatMap (fun c => c.id :: c.methods.map MethodDecl.id) ++
    (p.blocks.flatMap Block.functions ++ p.decls.filterMap Decl.functionId?)

/-- Whether a node declares a name for a value. -/
def isValue (p : Program) (n : NodeId) : Bool := p.values.contains n

end Program

section

variable (n : NodeId)

theorem Decl.count_values :
    (∀ (d : Decl) (outer : List Naming) (before : List (String × NodeId)),
      ((d.blocks outer before).flatMap Block.values).count n + d.valueId?.toList.count n +
        (((d.blocks outer before).flatMap Block.functions).count n + d.functionId?.toList.count n) ≤
        d.ids.count n) ∧
    ∀ (ds : List Decl) (outer : List Naming) (before : List (String × NodeId)),
      ((blocksOfAll outer before ds).flatMap Block.values).count n +
          (ds.filterMap valueId?).count n +
        (((blocksOfAll outer before ds).flatMap Block.functions).count n +
          (ds.filterMap functionId?).count n) ≤ (idsOfAll ds).count n := by
  apply Decl.induction
  · intro id name type init pos outer before
    simp only [blocks, valueId?, functionId?, ids, List.flatMap_nil, List.count_nil,
      Option.toList_some, Option.toList_none, List.count_append]
    omega
  · intro id name params ret decls body pos ih outer before
    have hdecls := ih (.ofList (before ++ [(name, id)]) :: outer) (params.map Binder.named)
    simp only [blocks, valueId?, functionId?, ids, List.flatMap_append, List.flatMap_cons,
      List.flatMap_nil, List.append_nil, Block.values, Block.functions, Option.toList_some,
      Option.toList_none, List.count_append, List.count_nil, List.count_cons] at hdecls ⊢
    omega
  · intro outer before
    simp [blocksOfAll, idsOfAll]
  · intro d ds ihd ihs outer before
    have hd := ihd outer before
    have hds := ihs outer (before ++ [d.named])
    have hvalue : ((d :: ds).filterMap valueId?).count n =
        d.valueId?.toList.count n + (ds.filterMap valueId?).count n := by
      rw [List.filterMap_cons]
      cases d.valueId? <;> simp [List.count_cons, Nat.add_comm]
    have hfunction : ((d :: ds).filterMap functionId?).count n =
        d.functionId?.toList.count n + (ds.filterMap functionId?).count n := by
      rw [List.filterMap_cons]
      cases d.functionId? <;> simp [List.count_cons, Nat.add_comm]
    rw [blocksOfAll, idsOfAll, List.flatMap_append, List.flatMap_append, List.count_append,
      List.count_append, List.count_append, hvalue, hfunction]
    omega

theorem MethodDecl.count_values (Γ : List Naming) (m : MethodDecl) :
    ((m.blocks Γ).flatMap Block.values).count n + ((m.blocks Γ).flatMap Block.functions).count n ≤
      m.innerIds.count n := by
  have hdecls := (Decl.count_values n).2 m.decls Γ (m.params.map Binder.named)
  simp only [blocks, innerIds, List.flatMap_append, List.flatMap_cons, List.flatMap_nil,
    List.append_nil, Block.values, Block.functions, List.count_append] at hdecls ⊢
  omega

theorem ClassDecl.count_values (Γ : List Naming) (c : ClassDecl) :
    ((c.blocks Γ).flatMap Block.values).count n + ((c.blocks Γ).flatMap Block.functions).count n ≤
      c.innerIds.count n := by
  unfold blocks innerIds
  generalize c.methods = ms
  induction ms with
  | nil => simp
  | cons m ms ih =>
    have hm := m.count_values n Γ
    simp only [List.flatMap_cons, List.flatMap_append, List.count_append]
    omega

theorem Program.count_values (p : Program) :
    p.values.count n + p.nonValues.count n ≤ p.ids.count n := by
  have hheaders : ∀ cs : List ClassDecl,
      (cs.flatMap fun c => c.fields.map Binder.id).count n +
        (cs.flatMap fun c => c.id :: c.methods.map MethodDecl.id).count n ≤
        (cs.flatMap ClassDecl.headerIds).count n := by
    intro cs
    induction cs with
    | nil => simp
    | cons c cs ih =>
      simp only [List.flatMap_cons, ClassDecl.headerIds, List.count_append, List.count_cons]
      omega
  have hclasses : ∀ (cs earlier : List ClassDecl),
      (((cs.zip (ClassDecl.namings earlier cs)).flatMap fun q =>
        q.1.blocks [q.2, p.classNaming]).flatMap Block.values).count n +
      (((cs.zip (ClassDecl.namings earlier cs)).flatMap fun q =>
        q.1.blocks [q.2, p.classNaming]).flatMap Block.functions).count n ≤
        (cs.flatMap ClassDecl.innerIds).count n := by
    intro cs
    induction cs with
    | nil => simp
    | cons c cs ih =>
      intro earlier
      have hone := c.count_values n [c.naming earlier, p.classNaming]
      have hrest := ih (c :: earlier)
      simp only [ClassDecl.namings, List.zip_cons_cons, List.flatMap_cons, List.flatMap_append,
        List.count_append]
      omega
  have hfirst := hheaders p.classes
  have hsecond := hclasses p.classes []
  have hthird := (Decl.count_values n).2 p.decls [] (p.classes.map ClassDecl.named)
  simp only [values, nonValues, blocks, ids, List.flatMap_append, List.count_append]
  omega

end

namespace Program

variable {p : Program}

theorem isValue_of_mem {n : NodeId} (h : n ∈ p.values) : p.isValue n = true := by
  simpa [isValue] using h

/-- A node does not declare both a value and something else. -/
theorem isValue_of_nonValue (hn : p.ids.Nodup) {n : NodeId} (h : n ∈ p.nonValues) :
    p.isValue n = false := by
  have hcount := p.count_values n
  have hone := List.nodup_iff_count.mp hn n
  have hpos := List.count_pos_iff.mpr h
  have hzero : p.values.count n = 0 := by omega
  simpa [isValue] using List.count_eq_zero.mp hzero

end Program

/-! Frames. -/

def Denotation.isValue : Denotation → Bool
  | .value _ => true
  | .function .. | .method _ | .cls => false

/-- The frame of the text has the names of the frame, and tells which of them stand for
values. -/
def Naming.Fits (p : Program) (γ : Naming) (frame : List (String × Denotation)) : Prop :=
  ∀ x, (γ x).map p.isValue = (frame.lookup x).map Denotation.isValue

/-- The same for all frames around a place in the text. -/
def ScopeFits (p : Program) : List Naming → Env → Prop := List.Forall₂ (Naming.Fits p)

section

variable {p : Program}

/-- A name stands for a value if its declaration is one of a value. -/
theorem ScopeFits.select? {Γ : List Naming} {env : Env} (h : ScopeFits p Γ env) (x : String) :
    (Naming.select? Γ x).map p.isValue = (env.find? x).map fun q => q.1.isValue := by
  induction h with
  | nil => rfl
  | @cons γ frame Γ env hγ _ ih =>
    have hx := hγ x
    rw [Nest.lookup_eq_cut?, Option.map_map] at hx
    rw [Naming.select?, List.findSome?_cons, Nest.find?]
    cases hcut : Nest.cut? x frame with
    | none =>
      rw [hcut, Option.map_none, Option.map_eq_none_iff] at hx
      rw [hx]
      exact ih
    | some q =>
      rw [hcut, Option.map_some] at hx
      obtain ⟨n, hn, hvalue⟩ := Option.map_eq_some_iff.mp hx
      rw [hn]
      exact congrArg some hvalue

/-- One more name in a frame that does not have it. -/
theorem Naming.Fits.snoc {before : List (String × NodeId)} {frame : List (String × Denotation)}
    (h : Naming.Fits p (.ofList before) frame) {x : String} (hx : x ∉ before.map Prod.fst)
    {n : NodeId} {d : Denotation} (hd : p.isValue n = d.isValue) :
    Naming.Fits p (.ofList (before ++ [(x, n)])) ((x, d) :: frame) := by
  intro y
  rw [Naming.ofList_append, Naming.ofList_singleton]
  have hy := h y
  by_cases hxy : y = x
  · subst hxy
    have hnone : Naming.ofList before y = none := lookup_eq_none.mpr hx
    simp [hnone, hd]
  · rw [lookup_cons_of_ne hxy, ← hy, if_neg (Ne.symm hxy), Option.or_none]

/-- The arguments of a call are values, and the parameters of a function or method as
well. -/
theorem Naming.fits_params {params : List Binder} (hvalues : ∀ q ∈ params, p.isValue q.id)
    (hdistinct : (params.map Binder.name).Nodup) {args : List Value}
    (hlen : params.length = args.length) :
    Naming.Fits p (.ofList (params.map Binder.named)) (paramFrame params args) := by
  have hover : ∀ (params : List Binder) (args : List Value) (before : List (String × NodeId))
      (frame : List (String × Denotation)), (∀ q ∈ params, p.isValue q.id) →
      (before.map Prod.fst ++ params.map Binder.name).Nodup → params.length = args.length →
      Naming.Fits p (.ofList before) frame →
      Naming.Fits p (.ofList (before ++ params.map Binder.named))
        (paramFrame params args ++ frame) := by
    intro params
    induction params with
    | nil =>
      intro args before frame _ _ _ h
      simpa [paramFrame] using h
    | cons q params ih =>
      intro args before frame hvalues hdistinct hlen h
      cases args with
      | nil => cases hlen
      | cons v args =>
        have hq : q.name ∉ before.map Prod.fst := by
          intro hin
          exact (List.nodup_append.mp hdistinct).2.2 _ hin q.name (by simp) rfl
        have hone := h.snoc (d := .value v) hq (hvalues q List.mem_cons_self)
        have hrest := ih args (before ++ [q.named]) _
          (fun q' hq' => hvalues q' (List.mem_cons_of_mem _ hq'))
          (by simpa [Binder.named] using hdistinct) (Nat.succ.inj hlen) hone
        simpa [paramFrame] using hrest
  have hnil : Naming.Fits p (.ofList []) [] := fun x => rfl
  simpa using hover params args [] [] hvalues (by simpa using hdistinct) hlen hnil

/-- Classes are no values. -/
theorem Naming.fits_classes (hn : p.ids.Nodup) :
    Naming.Fits p p.classNaming (classFrame p.classes.reverse) := by
  intro x
  have hnames : (p.classes.map ClassDecl.named).map Prod.fst = p.classes.map ClassDecl.name := by
    rw [List.map_map]
    rfl
  have hframe : (classFrame p.classes.reverse).map Prod.fst =
      (p.classes.map ClassDecl.name).reverse := by
    rw [classFrame, List.map_map, List.map_reverse]
    rfl
  by_cases hx : x ∈ p.classes.map ClassDecl.name
  · obtain ⟨n, hnode⟩ := lookup_isSome (hnames ▸ hx)
    obtain ⟨d, hd⟩ := lookup_isSome (l := classFrame p.classes.reverse) (x := x) (by
      rw [hframe]
      exact List.mem_reverse.mpr hx)
    obtain ⟨c, hc, hcn⟩ := List.mem_map.mp (mem_of_lookup hnode)
    obtain ⟨c', -, hcd⟩ := List.mem_map.mp (mem_of_lookup hd)
    cases hcn
    obtain rfl : Denotation.cls = d := (Prod.mk.inj hcd).2
    have hnot : p.isValue c.id = false := by
      refine Program.isValue_of_nonValue hn (List.mem_append_left _ ?_)
      exact List.mem_flatMap.mpr ⟨c, hc, List.mem_cons_self⟩
    rw [hd, Program.classNaming, Naming.ofList, hnode, Option.map_some, hnot]
    rfl
  · rw [Program.classNaming, Naming.ofList, lookup_eq_none.mpr (hnames ▸ hx),
      lookup_eq_none.mpr (by rw [hframe]; simpa using hx)]
    rfl

end

/-! Members. -/

/-- A member of a class is a field or a method in its layout, declared by a field or a
method. -/
def Member.Stands (classes : List ClassDecl) (l : Layout) (x : String) (m : Member) : Prop :=
  match m.isMethod with
  | false => x ∈ l.fields.map Prod.fst ∧ m.node ∈ classes.flatMap fun c => c.fields.map Binder.id
  | true => x ∈ l.methods.map Prod.fst ∧
      m.node ∈ classes.flatMap fun c => c.methods.map MethodDecl.id

theorem Member.eq_of_over {isMethod : Bool} {own? : Option NodeId} {inherited : Option Member}
    {m : Member} (h : Member.over isMethod own? inherited = some m) :
    inherited = some m ∨ ∃ n, own? = some n ∧ m = ⟨n, isMethod⟩ := by
  unfold Member.over at h
  cases inherited with
  | none =>
    obtain ⟨n, hn, rfl⟩ := Option.map_eq_some_iff.mp h
    exact Or.inr ⟨n, hn, rfl⟩
  | some old =>
    by_cases hkind : old.isMethod = isMethod
    · simp only [hkind, if_true, Option.some.injEq] at h
      cases own? with
      | none =>
        subst hkind
        exact Or.inl (congrArg some h)
      | some n => exact Or.inr ⟨n, rfl, h.symm⟩
    · simp only [hkind, if_false] at h
      exact Or.inl h

/-- The members of a class are its own or those of its superclass. -/
theorem ClassDecl.stands_membersOver {c : ClassDecl} {inherited : String → Option Member}
    {earlier : List ClassDecl} {base : Layout} {x : String}
    (h : ∀ m, inherited x = some m → m.Stands earlier base x) {m : Member}
    (hm : c.membersOver inherited x = some m) : m.Stands (c :: earlier) (c.over base) x := by
  have hfields : x ∈ (c.over base).fields.map Prod.fst ↔
      x ∈ c.fields.map Binder.name ∨ x ∈ base.fields.map Prod.fst :=
    mem_names_foldl_placed Binder.name _ c.fields base.fields x
  have hmethods : x ∈ (c.over base).methods.map Prod.fst ↔
      x ∈ c.methods.map MethodDecl.name ∨ x ∈ base.methods.map Prod.fst :=
    mem_names_foldl_placed MethodDecl.name (Implementation.mk c.name) c.methods base.methods x
  rcases Member.eq_of_over hm with hm | ⟨n, hn, rfl⟩
  · rcases Member.eq_of_over hm with hm | ⟨n, hn, rfl⟩
    · have hold := h m hm
      unfold Member.Stands at hold ⊢
      cases hkind : m.isMethod with
      | false =>
        rw [hkind] at hold
        exact ⟨hfields.mpr (Or.inr hold.1), List.mem_append_right _ hold.2⟩
      | true =>
        rw [hkind] at hold
        exact ⟨hmethods.mpr (Or.inr hold.1), List.mem_append_right _ hold.2⟩
    · obtain ⟨f, hf, hnode⟩ := List.mem_map.mp (mem_of_lookup hn)
      cases hnode
      exact ⟨hfields.mpr (Or.inl (List.mem_map_of_mem hf)),
        List.mem_append_left _ (List.mem_map_of_mem hf)⟩
  · obtain ⟨k, hk, hnode⟩ := List.mem_map.mp (mem_of_lookup hn)
    cases hnode
    exact ⟨hmethods.mpr (Or.inl (List.mem_map_of_mem hk)),
      List.mem_append_left _ (List.mem_map_of_mem hk)⟩

theorem stands_membersOf {classes : List ClassDecl} (hn : (classes.map ClassDecl.name).Nodup)
    {cls : String} {l : Layout} (hl : layout? classes cls = some l) {x : String} {m : Member}
    (hm : membersOf classes cls x = some m) : m.Stands classes l x := by
  induction classes generalizing cls l m with
  | nil => simp [layout?] at hl
  | cons c earlier ih =>
    simp only [List.map_cons, List.nodup_cons] at hn
    by_cases hc : c.name = cls
    · subst hc
      rw [membersOf_cons_self hn.1] at hm
      simp only [layout?, if_true] at hl
      cases hp : c.parent? with
      | none =>
        simp only [hp, Option.some.injEq] at hl
        subst hl
        refine ClassDecl.stands_membersOver (fun m hm => ?_) hm
        simp [ClassDecl.inherited, hp] at hm
      | some parent =>
        simp only [hp, Option.map_eq_some_iff] at hl
        obtain ⟨base, hbase, rfl⟩ := hl
        refine ClassDecl.stands_membersOver (fun m hm => ih hn.2 hbase ?_) hm
        rwa [ClassDecl.inherited, hp, Option.bind_some] at hm
    · simp only [layout?, hc, if_false] at hl
      rw [membersOf_cons_of_mem (class?_isSome.mp (layout?_isSome hl))] at hm
      have hold := ih hn.2 hl hm
      unfold Member.Stands at hold ⊢
      cases hkind : m.isMethod with
      | false =>
        rw [hkind] at hold
        exact ⟨hold.1, List.mem_append_right _ hold.2⟩
      | true =>
        rw [hkind] at hold
        exact ⟨hold.1, List.mem_append_right _ hold.2⟩

/-- The methods of a class see its fields as values and its methods as methods. -/
theorem Program.Resolved.fits_members {p : Program} {b : Bindings} {h : Ancestry}
    (hp : p.Resolved b h) (hn : p.ids.Nodup) {before after : List ClassDecl} {c : ClassDecl}
    (hsplit : p.classes = before ++ c :: after) {l : Layout}
    (hl : layout? p.classes.reverse c.name = some l) (self : ObjectId) {vs : List Value}
    (hlen : l.fields.length ≤ vs.length) :
    Naming.Fits p (c.naming before.reverse) (l.members self vs) := by
  have hat := hp.class_at hsplit
  have hdistinct : ((c :: before.reverse).map ClassDecl.name).Nodup :=
    hp.distinct.sublist ((class?_suffix hat).sublist.map _)
  have hclasses : c :: before.reverse ⊆ p.classes := fun d hd =>
    List.mem_reverse.mp ((class?_suffix hat).subset hd)
  obtain ⟨l', hlaid⟩ := hp.classes _ _ _ hat
  have hlay := hl
  rw [layout?_eq hat, hlaid.layout] at hlay
  cases hlay
  have hmembers : l.members self vs = ((l.fields.zip vs).map fun q => (q.1.1, .value q.2)) ++
      l.methods.map fun m => (m.1, .method self) := rfl
  have hfields : ((l.fields.zip vs).map fun q => (q.1.1, Denotation.value q.2)).map Prod.fst =
      l.fields.map Prod.fst := by
    rw [List.map_map, ← List.map_fst_zip hlen, List.map_map, List.map_fst_zip hlen]
    rfl
  have hmethods : (l.methods.map fun m => (m.1, Denotation.method self)).map Prod.fst =
      l.methods.map Prod.fst := by
    rw [List.map_map]
    rfl
  intro x
  rw [ClassDecl.naming, Option.map_map, hmembers, List.lookup_append]
  cases hm : c.membersOver (c.inherited before.reverse) x with
  | none =>
    have hx : x ∉ l.scope.map Prod.fst := by
      rw [← hp.isSome_naming hsplit hl x, ClassDecl.naming, hm]
      simp
    rw [Layout.names_scope, List.mem_append, not_or] at hx
    rw [lookup_eq_none.mpr (hfields ▸ hx.1), lookup_eq_none.mpr (hmethods ▸ hx.2)]
    rfl
  | some m =>
    rw [← membersOf_cons_self (List.nodup_cons.mp hdistinct).1] at hm
    have hstands := stands_membersOf hdistinct hlaid.layout hm
    unfold Member.Stands at hstands
    cases hkind : m.isMethod with
    | false =>
      rw [hkind] at hstands
      obtain ⟨d, hd⟩ := lookup_isSome (hfields ▸ hstands.1)
      obtain ⟨q, -, hq⟩ := List.mem_map.mp (mem_of_lookup hd)
      obtain rfl : Denotation.value q.2 = d := (Prod.mk.inj hq).2
      have hvalue : p.isValue m.node := by
        refine Program.isValue_of_mem (List.mem_append_left _ ?_)
        obtain ⟨d, hd, hnode⟩ := List.mem_flatMap.mp hstands.2
        exact List.mem_flatMap.mpr ⟨d, hclasses hd, hnode⟩
      rw [hd]
      exact congrArg some hvalue
    | true =>
      rw [hkind] at hstands
      have hx : x ∉ l.fields.map Prod.fst := fun hin =>
        (List.nodup_append.mp hlaid.distinct).2.2 x hin x hstands.1 rfl
      obtain ⟨d, hd⟩ := lookup_isSome (hmethods ▸ hstands.1)
      obtain ⟨q, -, hq⟩ := List.mem_map.mp (mem_of_lookup hd)
      obtain rfl : Denotation.method self = d := (Prod.mk.inj hq).2
      have hvalue : p.isValue m.node = false := by
        refine Program.isValue_of_nonValue hn (List.mem_append_left _ ?_)
        obtain ⟨d, hd, hnode⟩ := List.mem_flatMap.mp hstands.2
        exact List.mem_flatMap.mpr ⟨d, hclasses hd, List.mem_cons_of_mem _ hnode⟩
      rw [lookup_eq_none.mpr (hfields ▸ hx), hd]
      exact congrArg some hvalue

end Classlet
