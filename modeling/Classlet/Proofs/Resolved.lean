import Classlet.Proofs.Classes

/-!
What is known of a program whose names are bound without a fault: all classes
are laid out, and every node of the methods, of the declarations and of the body
is bound. The frames that a node sees depend on the text of the program only.
-/

namespace Classlet

/-- The names around the inside of a method. -/
def Layout.frames (l : Layout) (classes : List ClassDecl) : Nest Entry :=
  [l.scope, classScope classes]

/-- All names of a program are bound by the given tables. -/
structure Program.Resolved (p : Program) (b : Bindings) (h : Ancestry) : Prop where
  distinct : (p.classes.reverse.map ClassDecl.name).Nodup
  records : ∀ cls record, b.record? cls = some record → cls ∈ p.classes.map ClassDecl.name
  parents : ∀ cls, h.parent? cls = (class? p.classes.reverse cls).bind fun q => q.1.parent?
  classes : ∀ cls c earlier, class? p.classes.reverse cls = some (c, earlier) →
    ∃ l, ClassLaid b (p.classes.map ClassDecl.name) c earlier l
  methods : ∀ c ∈ p.classes, ∃ l, layout? p.classes.reverse c.name = some l ∧
    ∀ m ∈ c.methods, RoutineBound b (l.frames p.classes.reverse) m.params m.decls m.body
  decls : Decl.AllBound b p.decls (classScope p.classes.reverse) [] p.classes.length
  body : p.body.Bound b
    [declsOver 0 p.classes.length p.decls (classScope p.classes.reverse)]
  names : (p.classes.map ClassDecl.name ++ p.decls.map Decl.name).Nodup

theorem layout?_append_of_notMem {classes earlier : List ClassDecl} {cls : String}
    (h : cls ∉ classes.map ClassDecl.name) :
    layout? (classes ++ earlier) cls = layout? earlier cls := by
  induction classes with
  | nil => rfl
  | cons c rest ih =>
    simp only [List.map_cons, List.mem_cons, not_or] at h
    rw [List.cons_append, Resolution.layout?_cons_of_ne (Ne.symm h.1), ih h.2]

theorem mem_classScope {classes : List ClassDecl} {p : String × Entry}
    (h : p ∈ classScope classes) : ∃ s : ClassShape, p.2.type = s.toTy := by
  induction classes with
  | nil => cases h
  | cons c rest ih =>
    rcases List.mem_cons.mp h with rfl | h
    · exact ⟨_, rfl⟩
    · exact ih h

theorem mem_entriesFrom {α : Type} {entry : Nat → α → Entry} {i : Nat} {l : List (String × α)}
    {p : String × Entry} (h : p ∈ entriesFrom entry i l) :
    ∃ q ∈ l, ∃ j, p = (q.1, entry j q.2) := by
  induction l generalizing i with
  | nil => cases h
  | cons q rest ih =>
    rcases List.mem_cons.mp h with rfl | h
    · exact ⟨q, by simp, i, rfl⟩
    · obtain ⟨q', hq, j, hj⟩ := ih h
      exact ⟨q', List.mem_cons_of_mem _ hq, j, hj⟩

/-- Members that refer to a class are fields. -/
theorem ClassLaid.scope_known {b : Bindings} {names : List String} {c : ClassDecl}
    {earlier : List ClassDecl} {l : Layout} (h : ClassLaid b names c earlier l)
    {p : String × Entry} (hp : p ∈ l.scope) {cls : String} (hcls : p.2.type = .ref cls) :
    cls ∈ names := by
  rcases List.mem_append.mp hp with hp | hp
  · obtain ⟨q, hq, j, rfl⟩ := mem_entriesFrom hp
    exact h.known q hq cls hcls
  · obtain ⟨q, hq, j, rfl⟩ := mem_entriesFrom hp
    cases hcls

namespace Resolution

theorem extends_layClasses (cs : List ClassDecl) (r : Resolution) :
    Extends (cs.flatMap ClassDecl.headerIds) r (layClasses cs r).1 := by
  induction cs generalizing r with
  | nil => exact Extends.refl _ r
  | cons c cs ih => exact (extends_layClass r c).append (ih _)

/-- Classes that are laid out without a fault join the classes before them, and
the members of each follow its layout. -/
theorem layClasses_laid (cs : List ClassDecl) :
    ∀ (r : Resolution) (done : List ClassDecl), r.Laid done →
      (cs.flatMap ClassDecl.headerIds).Nodup →
      (∀ d ∈ done, ∀ n ∈ d.headerIds, n ∉ cs.flatMap ClassDecl.headerIds) →
      (layClasses cs r).1.errors = [] →
      (layClasses cs r).1.Laid (cs.reverse ++ done) ∧
        List.Forall₂ (fun c names => ∃ l, layout? (cs.reverse ++ done) c.name = some l ∧
          (layClasses cs r).1.bindings.Lists names l.scope) cs (layClasses cs r).2 := by
  induction cs with
  | nil =>
    intro r done h _ _ _
    exact ⟨h, List.Forall₂.nil⟩
  | cons c cs ih =>
    intro r done h hn hd he
    simp only [List.flatMap_cons, List.nodup_append] at hn
    obtain ⟨hnc, hncs, hdis⟩ := hn
    simp only [List.flatMap_cons, List.mem_append, not_or] at hd
    have hrest := extends_layClasses cs (r.layClass c).1
    obtain ⟨hlaid, l, hlay, hlists⟩ := layClass_laid h hnc
      (fun d hdm n hnm => (hd d hdm n hnm).1) (hrest.clean he)
    obtain ⟨hlaid', hmembers⟩ := ih (r.layClass c).1 (c :: done) hlaid hncs (by
      intro d hdm n hnm hin
      rcases List.mem_cons.mp hdm with rfl | hdm
      · exact hdis n hnm n hin rfl
      · exact (hd d hdm n hnm).2 hin) he
    simp only [List.reverse_cons, List.append_assoc, List.singleton_append]
    refine ⟨hlaid', List.Forall₂.cons ⟨l, ?_, ?_⟩ hmembers⟩
    · rw [layout?_append_of_notMem, hlay]
      have hdistinct := hlaid'.distinct
      rw [List.map_append, List.nodup_append] at hdistinct
      intro hin
      exact hdistinct.2.2 c.name hin c.name (by simp) rfl
    · exact hrest.bindings.lists hlists

/-- Where classes are laid out and they are all classes of the program, every
registered class has its entries. -/
theorem Catalogued.registered {r : Resolution} {done : List ClassDecl} (h : r.Catalogued done) :
    Registered r.bindings := by
  intro cls record hr
  obtain ⟨c, earlier, hfound⟩ := class?_isSome.mpr (h.records cls record hr)
  obtain ⟨l, hl⟩ := h.facts cls c earlier hfound
  obtain ⟨record', hr', hlists, he, -⟩ := hl.record
  rw [class?_name hfound, hr] at hr'
  cases hr'
  refine ⟨⟨_, he⟩, ?_⟩
  intro x id hx
  have hm := hlists x
  rw [hx] at hm
  cases hlk : l.scope.lookup x with
  | none => simp [hlk] at hm
  | some e => exact ⟨e, by simpa [hlk] using hm⟩

/-- With all classes laid out, the outermost frame is ready for the rest. -/
theorem Laid.within {r : Resolution} {done : List ClassDecl} (h : r.Laid done)
    (hnames : ∀ cls ∈ r.classNames, cls ∈ done.map ClassDecl.name) :
    r.Within (classScope done) [] done.length 1 [] := by
  obtain ⟨f, hf, hdecl, hparam, hlists⟩ := h.frames
  refine ⟨⟨f, hf, hdecl, hparam⟩, ⟨?_, ?_, ?_, h.registered⟩, ?_⟩
  · unfold Sees
    rw [hf]
    exact List.Forall₂.cons hlists List.Forall₂.nil
  · intro frame hframe p hp cls hcls
    rw [List.mem_singleton] at hframe
    subst hframe
    obtain ⟨s, hs⟩ := mem_classScope hp
    rw [hs] at hcls
    cases hcls
  · exact fun cls hc => h.record_of_name (hnames cls hc)
  · rw [names_classScope]
    exact h.distinct

theorem binds_bindMethods (ms : List MethodDecl) (r : Resolution) :
    Binds (ms.flatMap MethodDecl.innerIds) r (ms.foldl bindMethod r) := by
  induction ms generalizing r with
  | nil => exact Binds.refl _ r
  | cons m ms ih =>
    rw [List.foldl_cons, bindMethod_eq]
    exact (binds_bindRoutine m.params m.decls m.body (binds_bindDecls m.decls) r).append (ih _)

/-- The methods of a class are bound inside the same frames. -/
theorem bindMethods_bound (ms : List MethodDecl) (r : Resolution) {Γ : Nest Entry}
    (h : r.Ready Γ) (hknown : ∀ m ∈ ms, ParamsKnown r.classNames m.params)
    (hn : (ms.flatMap MethodDecl.innerIds).Nodup) (he : (ms.foldl bindMethod r).errors = []) :
    (ms.foldl bindMethod r).scope.frames = r.scope.frames ∧ (ms.foldl bindMethod r).Ready Γ ∧
      ∀ m ∈ ms, RoutineBound (ms.foldl bindMethod r).bindings Γ m.params m.decls m.body := by
  induction ms generalizing r with
  | nil => exact ⟨rfl, h, by simp⟩
  | cons m ms ih =>
    simp only [List.flatMap_cons, List.nodup_append] at hn
    obtain ⟨hnm, hnms, hdis⟩ := hn
    simp only [List.foldl_cons, bindMethod_eq] at he ⊢
    have hone := binds_bindRoutine m.params m.decls m.body (binds_bindDecls m.decls) r
    have hrest := binds_bindMethods ms (r.bindRoutine m.params m.decls m.body)
    obtain ⟨hframes, hready, hbound⟩ := bindRoutine_bound m.params m.decls m.body
      (bindDecls_spec.2 m.decls) r h (hknown m (by simp)) hnm (hrest.clean he)
    obtain ⟨hframes', hready', hbound'⟩ := ih _ hready
      (fun k hk => hone.classNames ▸ hknown k (List.mem_cons_of_mem _ hk)) hnms he
    refine ⟨hframes'.trans hframes, hready', ?_⟩
    intro k hk
    rcases List.mem_cons.mp hk with rfl | hk
    · refine hbound.mono hrest.bindings ?_
      intro n hin hin'
      exact hdis n (List.mem_append_right _ hin) n hin' rfl
    · exact hbound' k hk

theorem binds_bindClass (r : Resolution) (c : ClassDecl) (names : Names) :
    Binds c.innerIds r (r.bindClass c names) := by
  have h := (binds_enter r names).append ((binds_bindMethods c.methods _).append (binds_leave _))
  simp only [List.nil_append, List.append_nil] at h
  exact h

/-- The methods of a class are bound inside the frame of its members. -/
theorem bindClass_bound (r : Resolution) (c : ClassDecl) (names : Names) {l : Layout}
    {frame : List (String × Entry)} {k : Nat} {i : Int} (h : r.Within frame [] k i [])
    (hlists : r.bindings.Lists names l.scope)
    (hmembers : ∀ p ∈ l.scope, ∀ cls, p.2.type = .ref cls → cls ∈ r.classNames)
    (hknown : ∀ m ∈ c.methods, ParamsKnown r.classNames m.params)
    (hn : c.innerIds.Nodup) (he : (r.bindClass c names).errors = []) :
    (r.bindClass c names).Within frame [] k i [] ∧
      ∀ m ∈ c.methods,
        RoutineBound (r.bindClass c names).bindings [l.scope, frame] m.params m.decls m.body := by
  have hready : (r.enter names).Ready [l.scope, frame] := by
    refine ⟨List.Forall₂.cons hlists h.ready.sees, ?_, h.ready.records, h.ready.registered⟩
    intro fr hfr p hp cls hcls
    rcases List.mem_cons.mp hfr with rfl | hfr
    · exact hmembers p hp cls hcls
    · exact h.ready.known fr hfr p hp cls hcls
  obtain ⟨hframes, hready', hbound⟩ := bindMethods_bound c.methods _ hready hknown hn he
  obtain ⟨f, hf, hdecl, hparam⟩ := h.frames
  refine ⟨⟨⟨f, ?_, hdecl, hparam⟩, leave_ready _ hready', h.distinct⟩, hbound⟩
  change (c.methods.foldl bindMethod (r.enter names)).scope.frames.tail = _
  rw [hframes]
  exact hf

/-- Binds the methods of classes, each inside the members of its class. -/
def bindClasses (cs : List (ClassDecl × Names)) (r : Resolution) : Resolution :=
  cs.foldl (fun r p => r.bindClass p.1 p.2) r

theorem binds_bindClasses (cs : List (ClassDecl × Names)) (r : Resolution) :
    Binds (cs.flatMap fun p => p.1.innerIds) r (bindClasses cs r) := by
  induction cs generalizing r with
  | nil => exact Binds.refl _ r
  | cons p cs ih => exact (binds_bindClass r p.1 p.2).append (ih _)

/-- What is needed of a class before its methods are bound. -/
structure ClassReady (r : Resolution) (c : ClassDecl) (names : Names) (l : Layout) : Prop where
  lists : r.bindings.Lists names l.scope
  members : ∀ p ∈ l.scope, ∀ cls, p.2.type = .ref cls → cls ∈ r.classNames
  params : ∀ m ∈ c.methods, ParamsKnown r.classNames m.params

theorem ClassReady.binds {ids : List NodeId} {r r' : Resolution} {c : ClassDecl} {names : Names}
    {l : Layout} (h : r.ClassReady c names l) (hb : Binds ids r r') : r'.ClassReady c names l := by
  refine ⟨hb.bindings.lists h.lists, ?_, ?_⟩
  · rw [hb.classNames]
    exact h.members
  · rw [hb.classNames]
    exact h.params

theorem bindClasses_bound (cs : List (ClassDecl × Names)) (layout : ClassDecl → Layout)
    {frame : List (String × Entry)} {k : Nat} {i : Int} :
    ∀ r : Resolution, r.Within frame [] k i [] →
      (∀ p ∈ cs, r.ClassReady p.1 p.2 (layout p.1)) →
      (cs.flatMap fun p => p.1.innerIds).Nodup → (bindClasses cs r).errors = [] →
      (bindClasses cs r).Within frame [] k i [] ∧
        ∀ p ∈ cs, ∀ m ∈ p.1.methods,
          RoutineBound (bindClasses cs r).bindings [(layout p.1).scope, frame] m.params m.decls
            m.body := by
  induction cs with
  | nil =>
    intro r h _ _ _
    exact ⟨h, by simp⟩
  | cons p cs ih =>
    intro r h hcs hn he
    simp only [List.flatMap_cons, List.nodup_append] at hn
    obtain ⟨hnp, hncs, hdis⟩ := hn
    have hone := binds_bindClass r p.1 p.2
    have hrest := binds_bindClasses cs (r.bindClass p.1 p.2)
    have hp := hcs p (by simp)
    obtain ⟨hw, hbound⟩ := bindClass_bound r p.1 p.2 h hp.lists hp.members hp.params hnp
      (hrest.clean he)
    obtain ⟨hw', hbound'⟩ := ih _ hw
      (fun q hq => (hcs q (List.mem_cons_of_mem _ hq)).binds hone) hncs he
    refine ⟨hw', ?_⟩
    intro q hq m hm
    rcases List.mem_cons.mp hq with rfl | hq
    · refine (hbound m hm).mono hrest.bindings ?_
      intro n hin hin'
      refine hdis n (List.mem_flatMap.mpr ⟨m, hm, ?_⟩) n hin' rfl
      exact List.mem_append_right _ hin
    · exact hbound' q hq m hm

theorem laid_nil (names : List String) :
    Laid (Resolution.enter { classNames := names }) [] := by
  refine ⟨⟨by simp, ?_, ?_, by simp [class?]⟩, ⟨{}, rfl, by simp, rfl, ?_⟩⟩
  · intro cls record hr
    simp [enter, Bindings.record?] at hr
  · intro cls
    simp [enter, class?, Ancestry.parent?]
  · intro x
    simp [classScope]

theorem length_layClasses (cs : List ClassDecl) (r : Resolution) :
    (layClasses cs r).2.length = cs.length := by
  induction cs generalizing r with
  | nil => rfl
  | cons c cs ih => simp [layClasses, ih]

end Resolution

open Resolution

namespace Program

/-! The stages in which a program is bound. -/

section

variable (p : Program)

/-- The state with the outermost frame open and nothing in it. -/
def opened : Resolution := Resolution.enter { classNames := p.classes.map ClassDecl.name }

/-- The state after the class headers, with the members of each class. -/
def laid : Resolution × List Names := layClasses p.classes p.opened

/-- The state after the methods of all classes. -/
def withMethods : Resolution := bindClasses (p.classes.zip p.laid.2) p.laid.1

/-- The state after the declarations. -/
def withDecls : Resolution := bindDecls p.decls p.withMethods

theorem resolve_eq : p.resolve = (p.withDecls.bindExpr p.body).leave := rfl

theorem length_laid : p.laid.2.length = p.classes.length := length_layClasses p.classes p.opened

theorem extends_laid : Extends (p.classes.flatMap ClassDecl.headerIds) p.opened p.laid.1 :=
  extends_layClasses p.classes p.opened

theorem classNames_laid : p.laid.1.classNames = p.classes.map ClassDecl.name :=
  p.extends_laid.classNames

theorem flatMap_zip_laid {α : Type} (f : ClassDecl → List α) :
    ((p.classes.zip p.laid.2).flatMap fun q => f q.1) = p.classes.flatMap f := by
  rw [← List.flatMap_map Prod.fst f, List.map_fst_zip (Nat.le_of_eq p.length_laid.symm)]

theorem binds_withMethods :
    Binds (p.classes.flatMap ClassDecl.innerIds) p.laid.1 p.withMethods := by
  have h := binds_bindClasses (p.classes.zip p.laid.2) p.laid.1
  rwa [flatMap_zip_laid] at h

theorem binds_withDecls : Binds (Decl.idsOfAll p.decls) p.withMethods p.withDecls :=
  binds_bindDecls p.decls p.withMethods

theorem binds_resolve : Binds p.body.ids p.withDecls p.resolve := by
  have h := (binds_bindExpr p.body p.withDecls).append (binds_leave _)
  rwa [List.append_nil, ← resolve_eq] at h

/-- After the class headers, the tables of classes and the ancestry stay as they are. -/
theorem binds_laid :
    Binds (p.classes.flatMap ClassDecl.innerIds ++ (Decl.idsOfAll p.decls ++ p.body.ids)) p.laid.1
      p.resolve :=
  p.binds_withMethods.append (p.binds_withDecls.append p.binds_resolve)

/-- The layout of a class of the program. -/
def layoutOf (c : ClassDecl) : Layout := (layout? p.classes.reverse c.name).getD {}

end

variable {p : Program}

/-- If no fault is found in the names of a program, its classes are laid out. -/
theorem laid_of_clean (hn : p.ids.Nodup) (he : p.resolve.errors = []) :
    p.laid.1.Laid p.classes.reverse ∧
      List.Forall₂ (fun c names => ∃ l, layout? p.classes.reverse c.name = some l ∧
        p.laid.1.bindings.Lists names l.scope) p.classes p.laid.2 := by
  have hheaders := (List.nodup_append.mp hn).1
  have h := layClasses_laid p.classes p.opened [] (laid_nil _) hheaders (by simp)
    (p.binds_laid.clean he)
  rwa [List.append_nil] at h

theorem layoutOf_laid (hl : p.laid.1.Laid p.classes.reverse) {c : ClassDecl}
    (hc : c ∈ p.classes) :
    layout? p.classes.reverse c.name = some (p.layoutOf c) ∧ ∃ earlier,
      ClassLaid p.laid.1.bindings (p.classes.map ClassDecl.name) c earlier (p.layoutOf c) := by
  obtain ⟨earlier, hce⟩ := class?_of_mem hl.distinct (List.mem_reverse.mpr hc)
  obtain ⟨l, hcl⟩ := hl.facts _ _ _ hce
  rw [classNames_laid] at hcl
  have hlay : layout? p.classes.reverse c.name = some l := (layout?_eq hce).trans hcl.layout
  have hl : p.layoutOf c = l := by rw [layoutOf, hlay, Option.getD_some]
  rw [hl]
  exact ⟨hlay, earlier, hcl⟩

/-- The methods of every class are ready to be bound. -/
theorem classReady_laid (hn : p.ids.Nodup) (he : p.resolve.errors = []) {q : ClassDecl × Names}
    (hq : q ∈ p.classes.zip p.laid.2) : p.laid.1.ClassReady q.1 q.2 (p.layoutOf q.1) := by
  obtain ⟨hl, hmembers⟩ := laid_of_clean hn he
  obtain ⟨hlay, earlier, hcl⟩ := layoutOf_laid hl (List.of_mem_zip hq).1
  obtain ⟨l, hlay', hlists⟩ := (List.forall₂_iff_zip.mp hmembers).2 hq
  obtain rfl : p.layoutOf q.1 = l := Option.some.inj (hlay.symm.trans hlay')
  refine ⟨hlists, ?_, ?_⟩
  · intro r hr cls hcls
    rw [classNames_laid]
    exact hcl.scope_known hr hcls
  · rw [classNames_laid]
    exact hcl.params

/-- If no fault is found in the names of a program, all methods are bound. -/
theorem withMethods_bound (hn : p.ids.Nodup) (he : p.resolve.errors = []) :
    p.withMethods.Within (classScope p.classes.reverse) [] p.classes.length 1 [] ∧
      ∀ c ∈ p.classes, ∀ m ∈ c.methods, RoutineBound p.withMethods.bindings
        ((p.layoutOf c).frames p.classes.reverse) m.params m.decls m.body := by
  have hinner := (List.nodup_append.mp (List.nodup_append.mp hn).2.1).1
  have hclean := (p.binds_withDecls.append p.binds_resolve).clean he
  have hwithin := (laid_of_clean hn he).1.within (by simp [classNames_laid])
  rw [List.length_reverse] at hwithin
  obtain ⟨hw, hbound⟩ := bindClasses_bound (p.classes.zip p.laid.2) p.layoutOf p.laid.1 hwithin
    (fun q hq => classReady_laid hn he hq) (by rwa [flatMap_zip_laid]) hclean
  refine ⟨hw, ?_⟩
  intro c hc m hm
  obtain ⟨i, hi, rfl⟩ := List.mem_iff_getElem.mp hc
  have hlt : i < p.laid.2.length := by rwa [length_laid]
  have hq : (p.classes[i], p.laid.2[i]) ∈ p.classes.zip p.laid.2 :=
    List.mem_iff_getElem.mpr ⟨i, by rw [List.length_zip]; omega, by simp⟩
  exact hbound _ hq m hm

/-- If no fault is found in the names of a program, all declarations are bound. -/
theorem withDecls_bound (hn : p.ids.Nodup) (he : p.resolve.errors = []) :
    p.withDecls.Within (declsOver 0 p.classes.length p.decls (classScope p.classes.reverse)) []
        (p.classes.length + p.decls.length) 1 [] ∧
      Decl.AllBound p.withDecls.bindings p.decls (classScope p.classes.reverse) []
        p.classes.length := by
  have hrest := (List.nodup_append.mp (List.nodup_append.mp hn).2.1).2.1
  exact bindDecls_spec.2 p.decls p.withMethods _ _ _ _ _ (withMethods_bound hn he).1
    (List.nodup_append.mp hrest).1 (p.binds_resolve.clean he)

/-- If no fault is found in the names of a program, they are all bound. -/
theorem resolve_resolved (p : Program) (hn : p.ids.Nodup) (he : p.resolve.errors = []) :
    p.Resolved p.resolve.bindings p.resolve.ancestry := by
  have hnodup := hn
  simp only [Program.ids, List.nodup_append, List.mem_append] at hnodup
  obtain ⟨-, ⟨-, ⟨-, hnb, hdb⟩, hid⟩, hhi⟩ := hnodup
  obtain ⟨hl, -⟩ := laid_of_clean hn he
  obtain ⟨-, hmethods⟩ := withMethods_bound hn he
  obtain ⟨hw, hdecls⟩ := withDecls_bound hn he
  refine ⟨hl.distinct, ?_, ?_, ?_, ?_, ?_, ?_, ?_⟩
  · intro cls record hr
    rw [Bindings.record?, p.binds_laid.records] at hr
    simpa using hl.records cls record hr
  · rw [p.binds_laid.ancestry]
    exact hl.parents
  · intro cls c earlier hce
    obtain ⟨l, hcl⟩ := hl.facts _ _ _ hce
    rw [classNames_laid] at hcl
    refine ⟨l, hcl.grows p.binds_laid.bindings ?_⟩
    intro n hin hin'
    have hc : c ∈ p.classes :=
      List.mem_reverse.mp ((class?_suffix hce).subset List.mem_cons_self)
    refine hhi n (List.mem_flatMap.mpr ⟨c, hc, hin⟩) n ?_ rfl
    simpa using hin'
  · intro c hc
    refine ⟨p.layoutOf c, (layoutOf_laid hl hc).1, ?_⟩
    intro m hm
    refine (hmethods c hc m hm).mono (p.binds_withDecls.append p.binds_resolve).bindings ?_
    intro n hin hin'
    refine hid n (List.mem_flatMap.mpr ⟨c, hc, List.mem_flatMap.mpr ⟨m, hm, ?_⟩⟩) n
      (by simpa using hin') rfl
    exact List.mem_append_right _ hin
  · exact (Decl.bound_mono p.binds_resolve.bindings).2 _ _ _ _ hdecls
      fun n hn hn' => hdb n hn n hn' rfl
  · exact bindExpr_bound p.body p.withDecls hw.ready hnb he
  · have hdistinct := hw.distinct
    rw [names_declsOver, names_classScope, List.map_reverse, ← List.reverse_append] at hdistinct
    exact (List.reverse_perm _).nodup_iff.mp hdistinct

end Program

end Classlet
