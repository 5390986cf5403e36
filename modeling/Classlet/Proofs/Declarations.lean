import Classlet.Binding.Declaration
import Classlet.Proofs.Occurrences

/-!
The declarations of a frame are bound. Each declaration takes the next place of
its frame and becomes visible to what follows; the inside of a function is bound
in a frame of its own, which is gone afterwards. Where nothing is wrong, the
names of a frame are exactly its parameters and declarations so far.
-/

namespace Classlet

namespace Resolution

/-- The state in a frame that has `decls` declarations and whose next parameter
has place `param`, inside of the frames `rest`. No name is declared twice there. -/
structure Within (r : Resolution) (frame : List (String × Entry)) (outer : Nest Entry)
    (decls : Nat) (param : Int) (rest : List Frame) : Prop where
  frames : ∃ f, r.scope.frames = f :: rest ∧ f.declPlace = -2 - decls ∧ f.paramPlace = param
  ready : r.Ready (frame :: outer)
  distinct : (frame.map Prod.fst).Nodup

section

variable {r r' : Resolution} {frame : List (String × Entry)} {outer : Nest Entry} {k : Nat}
  {i : Int} {rest : List Frame}

theorem Within.binds {ids : List NodeId} (h : r.Within frame outer k i rest)
    (hb : Binds ids r r') (hs : r'.scope = r.scope) : r'.Within frame outer k i rest where
  frames := by
    rw [hs]
    exact h.frames
  ready := h.ready.binds hb hs
  distinct := h.distinct

end

/-! Annotations are checked without a change to scope and tables. -/

theorem binds_report (r : Resolution) (pos : Position) (cause : BindingFault) :
    Binds [] r (r.report pos cause) :=
  ⟨⟨rfl, List.prefix_append _ _, Bindings.Grows.refl _ _⟩, rfl, rfl, rfl⟩

theorem report_errors (r : Resolution) (pos : Position) (cause : BindingFault) :
    (r.report pos cause).errors ≠ [] := by
  simp [report]

theorem binds_checkType (r : Resolution) (a : WrittenType) : Binds [] r (r.checkType a) := by
  unfold checkType
  split
  · exact binds_report r _ _
  · exact Binds.refl _ r

@[simp]
theorem checkType_scope (r : Resolution) (a : WrittenType) : (r.checkType a).scope = r.scope := by
  unfold checkType
  split <;> rfl

/-- A checked annotation that is a class is a class of the program. -/
theorem checkType_known (r : Resolution) (a : WrittenType) (he : (r.checkType a).errors = [])
    (cls : String) (ha : a.lower = .ref cls) : cls ∈ r.classNames := by
  cases a with
  | int | bool => simp [WrittenType.lower] at ha
  | arrow => simp [WrittenType.lower] at ha
  | named c pos =>
    have hc : c = cls := by simpa [WrittenType.lower] using ha
    subst hc
    by_contra hn
    simp [checkType, WrittenType.unknownClass?, hn, report] at he

theorem binds_checkTypes (ps : List Binder) (r : Resolution) :
    Binds [] r (ps.foldl (fun r p => r.checkType p.type) r) := by
  induction ps generalizing r with
  | nil => exact Binds.refl _ r
  | cons p ps ih => exact (binds_checkType r p.type).append (ih _)

theorem binds_checkSignature (r : Resolution) (ps : List Binder) (ret : WrittenType) :
    Binds [] r (r.checkSignature ps ret) :=
  (binds_checkTypes ps r).append (binds_checkType _ ret)

@[simp]
theorem checkSignature_scope (r : Resolution) (ps : List Binder) (ret : WrittenType) :
    (r.checkSignature ps ret).scope = r.scope := by
  have types : ∀ (ps : List Binder) (r : Resolution),
      (ps.foldl (fun r p => r.checkType p.type) r).scope = r.scope := by
    intro ps
    induction ps with
    | nil => intro r; rfl
    | cons p ps ih => intro r; simp [ih]
  simp [checkSignature, types]

/-- Parameters whose types refer to the classes of the program. -/
def ParamsKnown (names : List String) (ps : List Binder) : Prop :=
  ∀ p ∈ ps, ∀ cls, p.type.lower = .ref cls → cls ∈ names

theorem checkSignature_known (r : Resolution) (ps : List Binder) (ret : WrittenType)
    (he : (r.checkSignature ps ret).errors = []) : ParamsKnown r.classNames ps := by
  have he' : (ps.foldl (fun r p => r.checkType p.type) r).errors = [] :=
    (binds_checkType _ ret).clean he
  clear he
  induction ps generalizing r with
  | nil => intro p hp; cases hp
  | cons p ps ih =>
    have hr := binds_checkType r p.type
    have hfirst : (r.checkType p.type).errors = [] := (binds_checkTypes ps _).clean he'
    intro q hq cls hcls
    rcases List.mem_cons.mp hq with rfl | hq
    · exact checkType_known r q.type hfirst cls hcls
    · rw [← hr.classNames]
      exact ih (r.checkType p.type) he' q hq cls hcls

/-! A declaration adds one entry and one name. -/

theorem entry_add (b : Bindings) (e : Entry) :
    Bindings.entry? (b.add e).2 (b.add e).1 = some e := by
  simp [Bindings.add, Bindings.entry?]

theorem entry_add_of_some (b : Bindings) (e : Entry) (i : EntryId) (e' : Entry)
    (h : b.entry? i = some e') : Bindings.entry? (b.add e).2 i = some e' := by
  have hi : i < b.entries.size := by
    unfold Bindings.entry? at h
    rw [Array.getElem?_eq_some_iff] at h
    exact h.1
  have hne : i ≠ b.entries.size := Nat.ne_of_lt hi
  simpa [Bindings.add, Bindings.entry?, Array.getElem?_push, hne] using h

theorem getElem?_declarations_add (r : Resolution) (node : NodeId) (e : Entry) (n : NodeId) :
    (r.add node e).2.bindings.declarations[n]? =
      if node = n then some r.bindings.entries.size else r.bindings.declarations[n]? := by
  simp [add, Bindings.add, Bindings.fileDeclaration, Std.TreeMap.getElem?_insert]

/-- The next number is not in use, so a new entry belongs to its node alone. -/
theorem separate_add (r : Resolution) (node : NodeId) (e : Entry) (h : r.bindings.Separate) :
    (r.add node e).2.bindings.Separate := by
  have hsize : (r.add node e).2.bindings.entries.size = r.bindings.entries.size + 1 :=
    Array.size_push _
  constructor
  · intro n id hn
    rw [getElem?_declarations_add] at hn
    rw [hsize]
    split at hn
    · cases hn
      exact Nat.lt_succ_self _
    · exact Nat.lt_succ_of_lt (h.bounded n id hn)
  · intro n n' id hn hn'
    rw [getElem?_declarations_add] at hn hn'
    split at hn <;> split at hn'
    · rename_i hl hr
      exact hl.symm.trans hr
    · cases hn
      exact absurd (h.bounded n' _ hn') (Nat.lt_irrefl _)
    · cases hn'
      exact absurd (h.bounded n _ hn) (Nat.lt_irrefl _)
    · exact h.distinct n n' id hn hn'

theorem binds_add (r : Resolution) (node : NodeId) (e : Entry) :
    Binds [node] r (r.add node e).2 := by
  refine ⟨⟨rfl, List.prefix_refl _, ?_⟩, rfl, rfl, rfl⟩
  refine ⟨entry_add_of_some r.bindings e, fun _ _ h => h, fun _ _ => rfl, fun _ _ => rfl, ?_,
    fun _ _ => rfl, fun _ _ => rfl, separate_add r node e⟩
  intro n hn
  have hne : ¬ node = n := fun h => hn (by simp [h])
  rw [getElem?_declarations_add, if_neg hne]

/-- A change of scope alone. -/
theorem binds_scope (r : Resolution) (s : Scope) : Binds [] r { r with scope := s } :=
  ⟨⟨rfl, List.prefix_refl _, Bindings.Grows.refl _ _⟩, rfl, rfl, rfl⟩

theorem binds_declare (r : Resolution) (node : NodeId) (name : String) (kind : NameKind)
    (type : Ty) (offset : Int) (pos : Position) :
    Binds [node] r (r.declare node name kind type offset pos) := by
  unfold declare
  have hadd := binds_add r node { level := r.scope.level, type, offset }
  simp only
  split
  · exact hadd.append (binds_scope _ _)
  · exact hadd.append (binds_report _ _ _)

/-- A declaration adds its entry to the tables, whether or not the name is free. -/
theorem declare_bindings (r : Resolution) (node : NodeId) (name : String) (kind : NameKind)
    (type : Ty) (offset : Int) (pos : Position) :
    (r.declare node name kind type offset pos).bindings =
      (r.add node { level := r.scope.level, type, offset }).2.bindings := by
  unfold declare
  simp only
  split <;> rfl

theorem declare_scope (r : Resolution) (node : NodeId) (name : String) (kind : NameKind)
    (type : Ty) (offset : Int) (pos : Position) :
    (r.declare node name kind type offset pos).scope =
      (r.scope.declare? name r.bindings.entries.size).getD r.scope := by
  unfold declare
  simp only
  split
  · rename_i s hs
    rw [show r.scope.declare? name r.bindings.entries.size = some s from hs]
    rfl
  · rename_i hs
    rw [show r.scope.declare? name r.bindings.entries.size = none from hs]
    rfl

theorem binds_declareLocal (r : Resolution) (node : NodeId) (name : String) (kind : NameKind)
    (type : Ty) (pos : Position) : Binds [node] r (r.declareLocal node name kind type pos) :=
  (binds_scope r _).append (binds_declare _ node name kind type _ pos)

theorem binds_declareParam (r : Resolution) (p : Binder) : Binds [p.id] r (r.declareParam p) :=
  (binds_scope r _).append (binds_declare _ p.id p.name .parameter p.type.lower _ p.pos)

theorem lists_insert {b : Bindings} {names : Names} {frame : List (String × Entry)}
    (h : b.Lists names frame) {id : EntryId} {e : Entry} (he : b.entry? id = some e)
    (x : String) : b.Lists (names.insert x id) ((x, e) :: frame) := by
  intro y
  by_cases hxy : x = y
  · subst hxy
    simp [he]
  · rw [Std.TreeMap.getElem?_insert, lookup_cons_of_ne (Ne.symm hxy)]
    simpa [hxy] using h y

/-- Declaring a name that is not taken adds it to the innermost frame. -/
theorem declare_frames (r : Resolution) (node : NodeId) (name : String) (kind : NameKind)
    (type : Ty) (offset : Int) (pos : Position) {f : Frame} {rest : List Frame}
    (hf : r.scope.frames = f :: rest)
    (he : (r.declare node name kind type offset pos).errors = []) :
    (r.declare node name kind type offset pos).scope.frames =
        { f with names := f.names.insert name r.bindings.entries.size } :: rest ∧
      Bindings.entry? (r.declare node name kind type offset pos).bindings r.bindings.entries.size =
        some { level := r.scope.level, type, offset } := by
  have hentry : Bindings.entry? (r.add node { level := r.scope.level, type, offset }).2.bindings
      r.bindings.entries.size = some { level := r.scope.level, type, offset } :=
    entry_add r.bindings _
  unfold declare at he ⊢
  simp only at he ⊢
  have hscope : (r.add node { level := r.scope.level, type, offset }).2.scope.frames = f :: rest :=
    hf
  cases hd : (r.add node { level := r.scope.level, type, offset }).2.scope.declare? name
      (r.add node { level := r.scope.level, type, offset }).1 with
  | none =>
    rw [hd] at he
    exact absurd he (report_errors _ _ _)
  | some scope =>
    refine ⟨?_, hentry⟩
    unfold Scope.declare? at hd
    rw [hscope] at hd
    simp only at hd
    split at hd
    · cases hd
    · cases hd
      rfl

/-- A name can be declared only once in a frame. -/
theorem declare_fresh (r : Resolution) (node : NodeId) (name : String) (kind : NameKind)
    (type : Ty) (offset : Int) (pos : Position) {frame : List (String × Entry)}
    {outer : Nest Entry} (h : r.Ready (frame :: outer))
    (he : (r.declare node name kind type offset pos).errors = []) :
    name ∉ frame.map Prod.fst := by
  have hsees := h.sees
  unfold Sees at hsees
  obtain ⟨f, rest, hlists, -, hf⟩ := List.forall₂_cons_right_iff.mp hsees
  have hscope : (r.add node { level := r.scope.level, type, offset }).2.scope.frames = f :: rest :=
    hf
  have hnone : f.names[name]? = none := by
    by_contra hsome
    have hcontains : f.names.contains name := by
      rw [Std.TreeMap.contains_eq_isSome_getElem?]
      exact Option.isSome_iff_ne_none.mpr hsome
    unfold declare Scope.declare? at he
    simp only [hscope, hcontains, if_true] at he
    exact report_errors _ _ _ he
  have hlookup := hlists name
  rw [hnone, Option.map_none] at hlookup
  rw [← lookup_eq_none]
  exact Option.map_eq_none_iff.mp hlookup.symm

theorem declare_ready (r : Resolution) (node : NodeId) (name : String) (kind : NameKind)
    (type : Ty) (offset : Int) (pos : Position) {frame : List (String × Entry)}
    {outer : Nest Entry} (h : r.Ready (frame :: outer))
    (hknown : ∀ cls, type = .ref cls → cls ∈ r.classNames)
    (he : (r.declare node name kind type offset pos).errors = []) :
    (r.declare node name kind type offset pos).Ready
      (((name, { level := outer.length, type, offset }) :: frame) :: outer) := by
  have hb := binds_declare r node name kind type offset pos
  have hlen := h.sees.length_eq
  have hsees := h.sees
  unfold Sees at hsees
  obtain ⟨f, rest, hf, hrest, hframes⟩ := List.forall₂_cons_right_iff.mp hsees
  have hlevel : r.scope.level = outer.length := by
    unfold Scope.level
    rw [hlen]
    simp
  obtain ⟨hfr, hentry⟩ := declare_frames r node name kind type offset pos hframes he
  rw [hlevel] at hentry
  refine ⟨?_, ?_, ?_, h.registered.grows hb.bindings hb.records⟩
  · unfold Sees
    rw [hfr]
    refine List.Forall₂.cons ?_ (hrest.imp fun g γ hl => hb.bindings.lists hl)
    exact lists_insert (hb.bindings.lists hf) hentry name
  · rw [hb.classNames]
    intro fr hfr p hp cls hcls
    rcases List.mem_cons.mp hfr with rfl | hfr
    · rcases List.mem_cons.mp hp with rfl | hp
      · exact hknown cls hcls
      · exact h.known frame (List.mem_cons_self ..) p hp cls hcls
    · exact h.known fr (List.mem_cons_of_mem _ hfr) p hp cls hcls
  · intro cls hc
    rw [hb.classNames] at hc
    obtain ⟨record, hr⟩ := h.records cls hc
    exact ⟨record, hb.bindings.records _ _ hr⟩

/-- Only the names of the frames matter to what is ready. -/
theorem Ready.rescope {r : Resolution} {Γ : Nest Entry} (h : r.Ready Γ) (s : Scope)
    (hs : s.frames.map Frame.names = r.scope.frames.map Frame.names) :
    Resolution.Ready { r with scope := s } Γ := by
  refine ⟨?_, h.known, h.records, h.registered⟩
  have hsees := h.sees
  unfold Sees at hsees ⊢
  have hmap : ∀ fs : List Frame, List.Forall₂ (fun f frame => r.bindings.Lists f.names frame) fs Γ ↔
      List.Forall₂ (fun names frame => r.bindings.Lists names frame) (fs.map Frame.names) Γ :=
    fun fs => List.forall₂_map_left_iff.symm
  rw [hmap] at hsees
  refine (hmap _).mpr ?_
  rw [hs]
  exact hsees

theorem declareLocal_within (r : Resolution) (node : NodeId) (name : String) (kind : NameKind)
    (type : Ty) (pos : Position) {frame : List (String × Entry)} {outer : Nest Entry} {k : Nat}
    {i : Int} {rest : List Frame} (h : r.Within frame outer k i rest)
    (hknown : ∀ cls, type = .ref cls → cls ∈ r.classNames)
    (he : (r.declareLocal node name kind type pos).errors = []) :
    (r.declareLocal node name kind type pos).Within
      ((name, { level := outer.length, type, offset := -2 - k }) :: frame) outer (k + 1) i
      rest := by
  obtain ⟨f, hf, hd, hp⟩ := h.frames
  unfold declareLocal at he ⊢
  simp only [Scope.takeDecl, hf, hd] at he ⊢
  have hready := h.ready.rescope ⟨{ f with declPlace := -2 - (k : Int) - 1 } :: rest⟩ (by simp [hf])
  refine ⟨?_, declare_ready _ node name kind type _ pos hready hknown he, ?_⟩
  rotate_left
  · exact List.nodup_cons.mpr ⟨declare_fresh _ node name kind type _ pos hready he, h.distinct⟩
  have hframes := (declare_frames _ node name kind type _ pos rfl he).1
  exact ⟨_, hframes, by simp only; omega, hp⟩

theorem declareParam_within (r : Resolution) (p : Binder) {frame : List (String × Entry)}
    {outer : Nest Entry} {k : Nat} {i : Nat} {rest : List Frame}
    (h : r.Within frame outer k i rest)
    (hknown : ∀ cls, p.type.lower = .ref cls → cls ∈ r.classNames)
    (he : (r.declareParam p).errors = []) :
    (r.declareParam p).Within
      ((p.name, { level := outer.length, type := p.type.lower, offset := i }) :: frame) outer k
      ((i + 1 : Nat) : Int) rest := by
  obtain ⟨f, hf, hd, hp⟩ := h.frames
  unfold declareParam at he ⊢
  simp only [Scope.takeParam, hf, hp] at he ⊢
  have hready := h.ready.rescope ⟨{ f with paramPlace := (i : Int) + 1 } :: rest⟩ (by simp [hf])
  refine ⟨?_, declare_ready _ p.id p.name .parameter _ _ p.pos hready hknown he, ?_⟩
  rotate_left
  · exact List.nodup_cons.mpr ⟨declare_fresh _ p.id p.name .parameter _ _ p.pos hready he,
      h.distinct⟩
  have hframes := (declare_frames _ p.id p.name .parameter _ _ p.pos rfl he).1
  exact ⟨_, hframes, hd, by simp⟩

theorem binds_declareParams (ps : List Binder) (r : Resolution) :
    Binds (ps.map Binder.id) r (ps.foldl declareParam r) := by
  induction ps generalizing r with
  | nil => exact Binds.refl _ r
  | cons p ps ih => exact (binds_declareParam r p).append (ih _)

theorem declareParams_within (ps : List Binder) (r : Resolution)
    {frame : List (String × Entry)} {outer : Nest Entry} {k : Nat} {i : Nat} {rest : List Frame}
    (h : r.Within frame outer k i rest) (hknown : ParamsKnown r.classNames ps)
    (he : (ps.foldl declareParam r).errors = []) :
    (ps.foldl declareParam r).Within (paramsOver outer.length i ps frame) outer k
      ((i + ps.length : Nat) : Int) rest := by
  induction ps generalizing r frame i with
  | nil => exact h
  | cons p ps ih =>
    have hb := binds_declareParam r p
    have hfirst : (r.declareParam p).errors = [] := (binds_declareParams ps _).clean he
    have hw := declareParam_within r p h (hknown p (List.mem_cons_self ..)) hfirst
    have hk : ParamsKnown (r.declareParam p).classNames ps := by
      rw [hb.classNames]
      exact fun q hq => hknown q (List.mem_cons_of_mem _ hq)
    have hrest := ih (r.declareParam p) hw hk he
    have hlen : i + 1 + ps.length = i + (p :: ps).length := by simp only [List.length_cons]; omega
    rw [hlen] at hrest
    exact hrest

/-! Frames are opened and closed around the inside of a function. -/

theorem enter_within (r : Resolution) {Γ : Nest Entry} (h : r.Ready Γ) :
    r.enter.Within [] Γ 0 ((1 : Nat) : Int) r.scope.frames := by
  refine ⟨⟨{}, rfl, rfl, rfl⟩, ⟨?_, ?_, h.records, h.registered⟩, .nil⟩
  · refine List.Forall₂.cons ?_ h.sees
    intro x
    simp
  · intro frame hframe p hp cls hcls
    rcases List.mem_cons.mp hframe with rfl | hframe
    · cases hp
    · exact h.known frame hframe p hp cls hcls

theorem leave_ready (r : Resolution) {frame : List (String × Entry)} {outer : Nest Entry}
    (h : r.Ready (frame :: outer)) : r.leave.Ready outer := by
  refine ⟨?_, fun fr hfr => h.known fr (List.mem_cons_of_mem _ hfr), h.records, h.registered⟩
  obtain ⟨f, rest, -, hrest, hframes⟩ := List.forall₂_cons_right_iff.mp h.sees
  unfold Sees
  simpa [leave, Scope.pop, hframes] using hrest

theorem binds_enter (r : Resolution) (names : Names) : Binds [] r (r.enter names) :=
  binds_scope r _

theorem binds_leave (r : Resolution) : Binds [] r r.leave := binds_scope r _

/-- Binds the inside of a function or method. -/
def bindRoutine (r : Resolution) (params : List Binder) (decls : List Decl) (body : Expr) :
    Resolution :=
  ((bindDecls decls (params.foldl declareParam r.enter)).bindExpr body).leave

theorem bindMethod_eq (r : Resolution) (m : MethodDecl) :
    r.bindMethod m = r.bindRoutine m.params m.decls m.body := rfl

theorem binds_bindRoutine (params : List Binder) (decls : List Decl) (body : Expr)
    (hds : ∀ r, Binds (Decl.idsOfAll decls) r (bindDecls decls r)) (r : Resolution) :
    Binds (params.map Binder.id ++ (Decl.idsOfAll decls ++ body.ids)) r
      (r.bindRoutine params decls body) := by
  have h := (binds_enter r ∅).append ((binds_declareParams params r.enter).append
    ((hds _).append ((binds_bindExpr body _).append (binds_leave _))))
  simp only [List.nil_append, List.append_nil] at h
  exact h

/-- Binding declarations files their own nodes only. -/
theorem binds_decls :
    (∀ (d : Decl) (r : Resolution), Binds d.ids r (bindDecl d r)) ∧
    ∀ (ds : List Decl) (r : Resolution), Binds (Decl.idsOfAll ds) r (bindDecls ds r) := by
  apply Decl.induction
  · intro id name type init pos r
    have h := (binds_bindExpr init r).append ((binds_checkType _ type).append
      (binds_declareLocal _ id name .variable type.lower pos))
    exact h
  · intro id name params ret decls body pos ih r
    have h := ((binds_checkSignature r params ret).append (binds_declareLocal _ id name .function
      (.arrow (signatureOf params ret)) pos)).append (binds_bindRoutine params decls body ih _)
    exact h
  · intro r
    exact Binds.refl _ r
  · intro d ds ihd ihs r
    exact (ihd r).append (ihs _)

theorem binds_bindDecls (ds : List Decl) (r : Resolution) :
    Binds (Decl.idsOfAll ds) r (bindDecls ds r) := binds_decls.2 ds r

/-- What is said of a list of declarations: bound from within a frame, they are
all bound and their names are added to the frame. -/
def DeclsSpec (ds : List Decl) : Prop :=
  ∀ (r : Resolution) (frame : List (String × Entry)) (outer : Nest Entry) (k : Nat) (i : Int)
    (rest : List Frame), r.Within frame outer k i rest → (Decl.idsOfAll ds).Nodup →
    (bindDecls ds r).errors = [] →
    (bindDecls ds r).Within (declsOver outer.length k ds frame) outer (k + ds.length) i rest ∧
      Decl.AllBound (bindDecls ds r).bindings ds frame outer k

theorem bindRoutine_bound (params : List Binder) (decls : List Decl) (body : Expr)
    (hds : DeclsSpec decls) (r : Resolution) {Γ : Nest Entry} (h : r.Ready Γ)
    (hknown : ParamsKnown r.classNames params)
    (hn : (params.map Binder.id ++ (Decl.idsOfAll decls ++ body.ids)).Nodup)
    (he : (r.bindRoutine params decls body).errors = []) :
    (r.bindRoutine params decls body).scope.frames = r.scope.frames ∧
      (r.bindRoutine params decls body).Ready Γ ∧
      RoutineBound (r.bindRoutine params decls body).bindings Γ params decls body := by
  obtain ⟨-, hn, -⟩ := List.nodup_append.mp hn
  obtain ⟨hnd, hnb, hdis⟩ := List.nodup_append.mp hn
  -- The states after the parameters, the declarations and the body.
  let r₁ := params.foldl declareParam r.enter
  let r₂ := bindDecls decls r₁
  let r₃ := r₂.bindExpr body
  have hbody : Binds body.ids r₂ r₃ := binds_bindExpr body r₂
  have he₂ : r₂.errors = [] := hbody.clean he
  have he₁ : r₁.errors = [] := (binds_bindDecls decls r₁).clean he₂
  have hw₁ : r₁.Within (paramsOver Γ.length 1 params []) Γ 0 _ r.scope.frames :=
    declareParams_within params r.enter (enter_within r h) hknown he₁
  obtain ⟨hw₂, hall⟩ := hds r₁ _ _ _ _ _ hw₁ hnd he₂
  have hw₃ := hw₂.binds hbody (bindExpr_scope r₂ body)
  have hexpr : body.Bound r₃.bindings _ := bindExpr_bound body r₂ hw₂.ready hnb he
  obtain ⟨f, hf, -, -⟩ := hw₃.frames
  refine ⟨?_, leave_ready r₃ hw₃.ready, ?_, hexpr, ?_⟩
  · change r₃.scope.frames.tail = _
    rw [hf]
    rfl
  · exact (Decl.bound_mono hbody.bindings).2 _ _ _ _ hall fun n hn hn' => hdis n hn n hn' rfl
  · have hdistinct := hw₂.distinct
    rw [names_declsOver, names_paramsOver, List.map_nil, List.append_nil,
      ← List.reverse_append] at hdistinct
    exact (List.reverse_perm _).nodup_iff.mp hdistinct

theorem bindDecls_spec : (∀ d : Decl, DeclsSpec [d]) ∧ ∀ ds : List Decl, DeclsSpec ds := by
  apply Decl.induction
  · intro id name type init pos r frame outer k i rest h hn he
    have hinit := binds_bindExpr init r
    have htype := binds_checkType (r.bindExpr init) type
    have hdecl := binds_declareLocal ((r.bindExpr init).checkType type) id name .variable
      type.lower pos
    have het : ((r.bindExpr init).checkType type).errors = [] := hdecl.clean he
    have hnodup : init.ids.Nodup := by
      simp only [Decl.idsOfAll, Decl.ids, List.append_nil, List.nodup_append] at hn
      exact hn.1
    have hid : ∀ n ∈ init.ids, n ∉ [id] := by
      simp only [Decl.idsOfAll, Decl.ids, List.append_nil, List.nodup_append] at hn
      exact fun n hn' hn'' => hn.2.2 n hn' n hn'' rfl
    have hw := (h.binds hinit (bindExpr_scope r init)).binds htype (checkType_scope _ type)
    have hknown : ∀ cls, type.lower = .ref cls →
        cls ∈ ((r.bindExpr init).checkType type).classNames := by
      rw [htype.classNames]
      exact checkType_known (r.bindExpr init) type het
    refine ⟨declareLocal_within _ id name .variable type.lower pos hw hknown he, ?_, trivial⟩
    have hbound := bindExpr_bound init r h.ready hnodup (htype.clean het)
    exact hbound.mono (htype.append hdecl).bindings hid
  · intro id name params ret decls body pos ih r frame outer k i rest h hn he
    have hsig := binds_checkSignature r params ret
    have hdecl := binds_declareLocal (r.checkSignature params ret) id name .function
      (.arrow (signatureOf params ret)) pos
    let r₁ := (r.checkSignature params ret).declareLocal id name .function
      (.arrow (signatureOf params ret)) pos
    have hinner := binds_bindRoutine params decls body (binds_bindDecls decls) r₁
    have he₁ : r₁.errors = [] := hinner.clean he
    have hknown : ParamsKnown r₁.classNames params := by
      rw [hdecl.classNames, hsig.classNames]
      exact checkSignature_known r params ret (hdecl.clean he₁)
    have hw₁ := declareLocal_within _ id name .function (.arrow (signatureOf params ret)) pos
      (h.binds hsig (checkSignature_scope r params ret)) (fun cls hc => by cases hc) he₁
    have hnodup : (params.map Binder.id ++ (Decl.idsOfAll decls ++ body.ids)).Nodup := by
      simp only [Decl.idsOfAll, Decl.ids, List.append_nil, List.nodup_cons] at hn
      exact hn.2
    obtain ⟨hs, hready, hbound⟩ := bindRoutine_bound params decls body ih r₁ hw₁.ready hknown
      hnodup he
    refine ⟨⟨?_, hready, hw₁.distinct⟩, hbound, trivial⟩
    obtain ⟨f, hf, hd, hp⟩ := hw₁.frames
    exact ⟨f, hs.trans hf, hd, hp⟩
  · intro r frame outer k i rest h _ _
    exact ⟨h, trivial⟩
  · intro d ds ihd ihs r frame outer k i rest h hn he
    simp only [Decl.idsOfAll, List.nodup_append] at hn
    obtain ⟨hnd, hns, hdis⟩ := hn
    have hrest := binds_bindDecls ds (bindDecl d r)
    have hone : (Decl.idsOfAll [d]).Nodup := by simpa [Decl.idsOfAll] using hnd
    obtain ⟨hw, hb, -⟩ := ihd r frame outer k i rest h hone (hrest.clean he)
    obtain ⟨hw', hbs⟩ := ihs _ _ _ _ _ _ hw hns he
    have hlen : k + [d].length + ds.length = k + (d :: ds).length := by
      simp only [List.length_cons, List.length_nil]
      omega
    rw [hlen] at hw'
    refine ⟨hw', ?_, hbs⟩
    exact (Decl.bound_mono hrest.bindings).1 _ _ _ _ hb fun n hn hn' => hdis n hn n hn' rfl

end Resolution

end Classlet
