import Classlet.Proofs.MemberNames
import Classlet.Proofs.Sites
import Mathlib.Data.List.Nodup

/-!
The places of parameters and declarations, whatever is wrong with a program. A frame
counts its parameters and declarations as they come, taken names included, and a function
counts in a frame of its own, which is gone when the function is bound. So the entry of a
declaration has the place that its position says: the parameters are at 1, 2, and so on,
the declarations at -2, -3, and so on, and in the outermost frame the classes come before
the declarations.
-/

namespace Classlet

namespace Bindings

/-- The place of the entry that a node declares. -/
def offset? (b : Bindings) (node : NodeId) : Option Int := (b.declared? node).map Entry.offset

/-- What is declared one after the other has entries that follow from the position, where
the first position is `k`. -/
def EntriesFrom {α : Type} (b : Bindings) (node : α → NodeId) (IsEntry : Nat → α → Entry → Prop)
    (k : Nat) (l : List α) : Prop :=
  ∀ (i : Nat) a, l[i]? = some a → ∃ e, b.declared? (node a) = some e ∧ IsEntry (k + i) a e

def PlacesParams (b : Bindings) (level : Nat) (k : Nat) (ps : List Binder) : Prop :=
  b.EntriesFrom Binder.id
    (fun i p e => e = { level, type := p.type.lower, offset := (i : Int) + 1 }) k ps

def PlacesDecls (b : Bindings) (level : Nat) (k : Nat) (ds : List Decl) : Prop :=
  b.EntriesFrom Decl.id (fun j d e => e = d.entry level j) k ds

/-- Classes are all in the outermost frame. -/
def PlacesClasses (b : Bindings) (k : Nat) (cs : List ClassDecl) : Prop :=
  b.EntriesFrom ClassDecl.id (fun i _ e => ∃ shape : ClassShape,
    e = { level := 0, type := shape.toTy, offset := -2 - (i : Int) }) k cs

/-- The frame of a function or method has its entries at the places of their positions. -/
structure PlacesBlock (b : Bindings) (block : Block) : Prop where
  params : b.PlacesParams block.scope.length 0 block.params
  decls : b.PlacesDecls block.scope.length 0 block.decls

variable {b b' : Bindings}

theorem declared?_eq_some {n : NodeId} {e : Entry} :
    b.declared? n = some e ↔ ∃ id, b.declarations[n]? = some id ∧ b.entry? id = some e := by
  simp only [declared?, Option.bind_eq_bind, Option.bind_eq_some_iff]

/-- What is declared stays declared while nodes are filed of which nothing was known. -/
theorem Awaits.declared? {ids : List NodeId} (ha : b.Awaits ids) (hg : b.Grows ids b') {n : NodeId}
    {e : Entry} (hn : b.declared? n = some e) : b'.declared? n = some e := by
  rw [declared?_eq_some] at hn ⊢
  obtain ⟨id, hid, he⟩ := hn
  exact ⟨id, ha.declaration hg hid, hg.entries _ _ he⟩

namespace EntriesFrom

variable {α : Type} {node : α → NodeId} {IsEntry : Nat → α → Entry → Prop} {k : Nat} {a : α}
  {l : List α}

theorem nil (b : Bindings) (k : Nat) : b.EntriesFrom node IsEntry k [] :=
  fun _ _ ha => absurd ha (by simp)

theorem cons {e : Entry} (hd : b.declared? (node a) = some e) (he : IsEntry k a e)
    (hl : b.EntriesFrom node IsEntry (k + 1) l) : b.EntriesFrom node IsEntry k (a :: l) := by
  intro i
  cases i with
  | zero =>
    rintro _ ⟨⟩
    exact ⟨e, hd, he⟩
  | succ i =>
    intro a' ha'
    rw [← Nat.succ_add_eq_add_succ]
    exact hl i a' ha'

theorem grows {ids : List NodeId} (h : b.EntriesFrom node IsEntry k l) (ha : b.Awaits ids)
    (hg : b.Grows ids b') : b'.EntriesFrom node IsEntry k l := by
  intro i a hi
  obtain ⟨e, hd, he⟩ := h i a hi
  exact ⟨e, ha.declared? hg hd, he⟩

/-- Where the place follows from the position, so do the places of all. -/
theorem map_offset? (h : b.EntriesFrom node IsEntry k l) {f : Nat → Int}
    (hf : ∀ i a e, IsEntry i a e → e.offset = f i) :
    (l.map node).map b.offset? = (List.range' k l.length).map fun i => some (f i) := by
  induction l generalizing k with
  | nil => rfl
  | cons a l ih =>
    obtain ⟨e, hd, he⟩ := h 0 a rfl
    have htail : b.EntriesFrom node IsEntry (k + 1) l := by
      intro i a' ha'
      rw [Nat.succ_add_eq_add_succ]
      exact h (i + 1) a' ha'
    have hfirst : b.offset? (node a) = some (f k) := by
      rw [offset?, hd, Option.map_some, hf _ _ _ he, Nat.add_zero]
    rw [List.map_cons, List.map_cons, ih htail, hfirst]
    rfl

end EntriesFrom

theorem PlacesBlock.grows {ids : List NodeId} {block : Block} (h : b.PlacesBlock block)
    (ha : b.Awaits ids) (hg : b.Grows ids b') : b'.PlacesBlock block :=
  ⟨h.params.grows ha hg, h.decls.grows ha hg⟩

/-- Parameters lie above all declarations, and each has a place of its own. -/
theorem PlacesBlock.nodup_offsets {block : Block} (h : b.PlacesBlock block) :
    ((block.params.map Binder.id ++ block.decls.map Decl.id).map b.offset?).Nodup := by
  have hparams := h.params.map_offset? (f := fun i => (i : Int) + 1) (by rintro i p _ rfl; rfl)
  have hdecls := h.decls.map_offset? (f := fun j => -2 - (j : Int)) (by rintro j d _ rfl; rfl)
  rw [List.map_append, hparams, hdecls]
  refine List.nodup_append.mpr ⟨?_, ?_, ?_⟩
  · exact (List.nodup_range' ..).map fun i j hij => by simpa using hij
  · exact (List.nodup_range' ..).map fun i j hij => by simpa using hij
  · intro o ho o' ho'
    obtain ⟨i, -, rfl⟩ := List.mem_map.mp ho
    obtain ⟨j, -, rfl⟩ := List.mem_map.mp ho'
    simp only [ne_eq, Option.some.injEq]
    omega

/-- In the outermost frame the places of the declarations continue those of the classes. -/
theorem nodup_offsets_outermost {cs : List ClassDecl} {ds : List Decl}
    (hcs : b.PlacesClasses 0 cs) (hds : b.PlacesDecls 0 cs.length ds) :
    ((cs.map ClassDecl.id ++ ds.map Decl.id).map b.offset?).Nodup := by
  have hclasses := hcs.map_offset? (f := fun i => -2 - (i : Int)) (by rintro i c _ ⟨_, rfl⟩; rfl)
  have hdecls := hds.map_offset? (f := fun j => -2 - (j : Int)) (by rintro j d _ rfl; rfl)
  rw [List.map_append, hclasses, hdecls, ← List.map_append, ← List.range_eq_range']
  have hrange : List.range cs.length ++ List.range' cs.length ds.length =
      List.range (cs.length + ds.length) := by
    rw [List.range_eq_range', List.range_eq_range', ← List.range'_append_1, Nat.zero_add]
  rw [hrange]
  exact List.nodup_range.map fun i j hij => by simpa using hij

end Bindings

open Bindings

namespace Resolution

/-- The state in a frame that has counted some parameters and declarations, inside of the
frames `rest`. -/
def Counts (r : Resolution) (params decls : Nat) (rest : List Frame) : Prop :=
  ∃ f, r.scope.frames = f :: rest ∧ f.paramPlace = (params : Int) + 1 ∧
    f.declPlace = -2 - (decls : Int)

/-- The frames of the functions and methods of a part of a program are placed by binding
that part. -/
structure Lays (ids : List NodeId) (blocks : List Block) (r r' : Resolution) : Prop
    extends Binds ids r r' where
  placed : ∀ block ∈ blocks, r'.bindings.PlacesBlock block

section

variable {r r' r'' : Resolution} {ids ids' : List NodeId} {blocks blocks' : List Block}
  {i k : Nat} {rest : List Frame}

theorem Counts.level (h : r.Counts i k rest) : r.scope.level = rest.length := by
  obtain ⟨f, hf, -, -⟩ := h
  simp [Scope.level, hf]

theorem Counts.of_scope (h : r.Counts i k rest) (hs : r'.scope = r.scope) :
    r'.Counts i k rest := by
  unfold Counts
  rw [hs]
  exact h

theorem counts_enter (r : Resolution) (names : Names) :
    (r.enter names).Counts 0 0 r.scope.frames :=
  ⟨{ names }, rfl, rfl, rfl⟩

theorem Counts.leave (h : r.Counts i k rest) : r.leave.scope.frames = rest := by
  obtain ⟨f, hf, -, -⟩ := h
  simp [Resolution.leave, Scope.pop, hf]

theorem Lays.of_binds (h : Binds ids r r') : Lays ids [] r r' :=
  ⟨h, fun _ hb => absurd hb List.not_mem_nil⟩

theorem Lays.append (h : Lays ids blocks r r') (h' : Lays ids' blocks' r' r'')
    (ha : r.bindings.Awaits (ids ++ ids')) : Lays (ids ++ ids') (blocks ++ blocks') r r'' := by
  refine ⟨h.toBinds.append h'.toBinds, fun block hb => ?_⟩
  rcases List.mem_append.mp hb with hb | hb
  · exact (h.placed block hb).grows (ha.right h.bindings) h'.bindings
  · exact h'.placed block hb

end

/-! A declaration counts once, taken name or not. -/

theorem declared_declare (r : Resolution) (node : NodeId) (name : String) (kind : NameKind)
    (type : Ty) (offset : Int) (pos : Position) :
    (r.declare node name kind type offset pos).bindings.declared? node =
      some { level := r.scope.level, type, offset } := by
  rw [declare_bindings, declared?_eq_some]
  refine ⟨r.bindings.entries.size, ?_, entry_add r.bindings _⟩
  rw [getElem?_declarations_add, if_pos rfl]

theorem Counts.declare? {r r' : Resolution} {i k : Nat} {rest : List Frame}
    (h : r.Counts i k rest) {x : String} {id : EntryId}
    (hs : r'.scope = (r.scope.declare? x id).getD r.scope) : r'.Counts i k rest := by
  obtain ⟨f, hf, hp, hd⟩ := h
  unfold Counts
  rw [hs, Scope.declare?, hf]
  simp only
  split
  · exact ⟨f, hf, hp, hd⟩
  · exact ⟨_, rfl, hp, hd⟩

theorem Counts.takeDecl {r : Resolution} {i k : Nat} {rest : List Frame} (h : r.Counts i k rest) :
    r.scope.takeDecl.1 = -2 - (k : Int) ∧
      Counts { r with scope := r.scope.takeDecl.2 } i (k + 1) rest := by
  obtain ⟨f, hf, hp, hd⟩ := h
  simp only [Scope.takeDecl, hf]
  refine ⟨hd, _, rfl, hp, ?_⟩
  simp only [hd]
  omega

theorem Counts.declareLocal {r : Resolution} {i k : Nat} {rest : List Frame}
    (h : r.Counts i k rest) (node : NodeId) (name : String) (kind : NameKind) (type : Ty)
    (pos : Position) :
    (r.declareLocal node name kind type pos).Counts i (k + 1) rest ∧
      (r.declareLocal node name kind type pos).bindings.declared? node =
        some { level := rest.length, type, offset := -2 - (k : Int) } := by
  obtain ⟨hplace, hcounts⟩ := h.takeDecl
  refine ⟨hcounts.declare? (declare_scope ..), ?_⟩
  unfold Resolution.declareLocal
  simp only
  rw [declared_declare, hcounts.level, hplace]

theorem Counts.declareParam {r : Resolution} {i k : Nat} {rest : List Frame}
    (h : r.Counts i k rest) (p : Binder) :
    (r.declareParam p).Counts (i + 1) k rest ∧
      (r.declareParam p).bindings.declared? p.id =
        some { level := rest.length, type := p.type.lower, offset := (i : Int) + 1 } := by
  have htake : r.scope.takeParam.1 = (i : Int) + 1 ∧
      Counts { r with scope := r.scope.takeParam.2 } (i + 1) k rest := by
    obtain ⟨f, hf, hp, hd⟩ := h
    simp only [Scope.takeParam, hf]
    refine ⟨hp, _, rfl, ?_, hd⟩
    simp [hp]
  refine ⟨htake.2.declare? (declare_scope ..), ?_⟩
  unfold Resolution.declareParam
  simp only
  rw [declared_declare, htake.2.level, htake.1]

theorem declareParams_places (ps : List Binder) (r : Resolution) {i k : Nat} {rest : List Frame}
    (h : r.Counts i k rest) (ha : r.bindings.Awaits (ps.map Binder.id)) :
    (ps.foldl declareParam r).Counts (i + ps.length) k rest ∧
      (ps.foldl declareParam r).bindings.PlacesParams rest.length i ps := by
  induction ps generalizing r i with
  | nil => exact ⟨h, .nil _ _⟩
  | cons p ps ih =>
    have ha' : r.bindings.Awaits ([p.id] ++ ps.map Binder.id) := ha
    obtain ⟨hcounts, hp⟩ := h.declareParam p
    have hrest := ha'.right (binds_declareParam r p).bindings
    obtain ⟨hcounts', hps⟩ := ih (r.declareParam p) hcounts hrest
    rw [List.length_cons, ← Nat.succ_add_eq_add_succ]
    exact ⟨hcounts',
      EntriesFrom.cons (hrest.declared? (binds_declareParams ps _).bindings hp) rfl hps⟩

/-- What is said of declarations in a frame: they are counted in it, and the functions
among them leave it as it was. -/
def DeclsPlaced (ds : List Decl) : Prop :=
  ∀ (r : Resolution) (i k : Nat) (rest : List Frame) (Γ : List Naming)
    (before : List (String × NodeId)), r.Counts i k rest → Γ.length = rest.length →
    r.bindings.Awaits (Decl.idsOfAll ds) →
    (bindDecls ds r).Counts i (k + ds.length) rest ∧
      (bindDecls ds r).bindings.PlacesDecls rest.length k ds ∧
      Lays (Decl.idsOfAll ds) (Decl.blocksOfAll Γ before ds) r (bindDecls ds r)

theorem bindRoutine_places (params : List Binder) (decls : List Decl) (body : Expr)
    (hds : DeclsPlaced decls) (r : Resolution) {Γ : List Naming}
    (hΓ : Γ.length = r.scope.frames.length)
    (ha : r.bindings.Awaits (params.map Binder.id ++ (Decl.idsOfAll decls ++ body.ids))) :
    (r.bindRoutine params decls body).scope.frames = r.scope.frames ∧
      Lays (params.map Binder.id ++ (Decl.idsOfAll decls ++ body.ids))
        (Decl.blocksOfAll Γ (params.map Binder.named) decls ++ [⟨Γ, params, decls, body⟩]) r
        (r.bindRoutine params decls body) := by
  -- The states after the parameters, the declarations and the body.
  obtain ⟨hc₁, hparams⟩ := declareParams_places params r.enter (counts_enter r ∅) ha.left
  have hb₁ := binds_declareParams params r.enter
  have ha₁ : (params.foldl declareParam r.enter).bindings.Awaits
      (Decl.idsOfAll decls ++ body.ids) :=
    ha.right hb₁.bindings
  obtain ⟨hc₂, hdecls, hl₂⟩ := hds _ _ _ _ Γ (params.map Binder.named) hc₁ hΓ ha₁.left
  have ha₂ := ha₁.right hl₂.bindings
  have hb₃ := binds_bindExpr body (bindDecls decls (params.foldl declareParam r.enter))
  refine ⟨(hc₂.of_scope (bindExpr_scope _ body)).leave, binds_bindRoutine params decls body
    (binds_bindDecls decls) r, fun block hb => ?_⟩
  rcases List.mem_append.mp hb with hb | hb
  · exact (hl₂.placed block hb).grows ha₂ hb₃.bindings
  · obtain rfl := List.mem_singleton.mp hb
    refine PlacesBlock.grows ⟨?_, ?_⟩ ha₂ hb₃.bindings
    · simp only [hΓ]
      exact hparams.grows ha₁.left hl₂.bindings
    · simp only [hΓ]
      exact hdecls

theorem bindDecls_places : (∀ d : Decl, DeclsPlaced [d]) ∧ ∀ ds : List Decl, DeclsPlaced ds := by
  apply Decl.induction
  · intro id name type init pos r i k rest Γ before h _ ha
    have hc : ((r.bindExpr init).checkType type).Counts i k rest :=
      h.of_scope (by rw [checkType_scope, bindExpr_scope])
    obtain ⟨hc', hdecl⟩ := hc.declareLocal id name .variable type.lower pos
    exact ⟨hc', EntriesFrom.cons hdecl rfl (.nil _ _), .of_binds (binds_bindDecls _ r)⟩
  · intro id name params ret decls body pos ih r i k rest Γ before h hΓ ha
    have ha' : r.bindings.Awaits ([] ++ ([id] ++ (params.map Binder.id ++
        (Decl.idsOfAll decls ++ body.ids)))) := by
      simpa [Decl.idsOfAll, Decl.ids] using ha
    have ha₁ := ha'.right (binds_checkSignature r params ret).bindings
    have hc : (r.checkSignature params ret).Counts i k rest :=
      h.of_scope (checkSignature_scope r params ret)
    obtain ⟨hc', hdecl⟩ := hc.declareLocal id name .function (.arrow (signatureOf params ret)) pos
    have ha₂ := ha₁.right (binds_declareLocal (r.checkSignature params ret) id name .function
      (.arrow (signatureOf params ret)) pos).bindings
    have hlen : (Naming.ofList (before ++ [(name, id)]) :: Γ).length =
        ((r.checkSignature params ret).declareLocal id name .function
          (.arrow (signatureOf params ret)) pos).scope.frames.length := by
      obtain ⟨f, hf, -, -⟩ := hc'
      rw [hf, List.length_cons, List.length_cons, hΓ]
    obtain ⟨hframes, hl⟩ := bindRoutine_places params decls body ih _ hlen ha₂
    refine ⟨?_, EntriesFrom.cons (ha₂.declared? hl.bindings hdecl) rfl (.nil _ _),
      binds_bindDecls _ r, ?_⟩
    · obtain ⟨f, hf, hplaces⟩ := hc'
      exact ⟨f, hframes.trans hf, hplaces⟩
    · intro block hb
      rw [Decl.blocksOfAll, Decl.blocksOfAll, List.append_nil] at hb
      exact hl.placed block hb
  · intro r i k rest Γ before h _ _
    exact ⟨h, .nil _ _, .of_binds (binds_bindDecls [] r)⟩
  · intro d ds ihd ihs r i k rest Γ before h hΓ ha
    have ha' : r.bindings.Awaits (Decl.idsOfAll [d] ++ Decl.idsOfAll ds) := by
      simpa [Decl.idsOfAll] using ha
    obtain ⟨hc, hd, hl⟩ := ihd r i k rest Γ before h hΓ ha'.left
    have hrest := ha'.right hl.bindings
    obtain ⟨hc', hds, hl'⟩ := ihs _ i (k + 1) rest Γ (before ++ [d.named]) hc hΓ hrest
    obtain ⟨e, hd, he⟩ := hd 0 d rfl
    refine ⟨?_, EntriesFrom.cons (hrest.declared? hl'.bindings hd) he hds, ?_⟩
    · rw [List.length_cons, ← Nat.succ_add_eq_add_succ]
      exact hc'
    · have hall := hl.append hl' ha'
      simpa [Decl.idsOfAll, Decl.blocksOfAll, bindDecls] using hall

/-! Classes. -/

theorem bindMethods_places (Γ : List Naming) (ms : List MethodDecl) (r : Resolution)
    (hΓ : Γ.length = r.scope.frames.length)
    (ha : r.bindings.Awaits (ms.flatMap MethodDecl.innerIds)) :
    (ms.foldl bindMethod r).scope.frames = r.scope.frames ∧
      Lays (ms.flatMap MethodDecl.innerIds) (ms.flatMap (MethodDecl.blocks Γ)) r
        (ms.foldl bindMethod r) := by
  induction ms generalizing r with
  | nil => exact ⟨rfl, .of_binds (Binds.refl _ r)⟩
  | cons m ms ih =>
    obtain ⟨hf, hm⟩ := bindRoutine_places m.params m.decls m.body (bindDecls_places.2 m.decls) r hΓ
      ha.left
    rw [← bindMethod_eq] at hf hm
    obtain ⟨hf', hms⟩ := ih (r.bindMethod m) (by rw [hf]; exact hΓ) (ha.right hm.bindings)
    exact ⟨hf'.trans hf, hm.append hms ha⟩

theorem bindClass_places (Γ : List Naming) (r : Resolution) (c : ClassDecl) (names : Names)
    (hΓ : Γ.length = r.scope.frames.length + 1) (ha : r.bindings.Awaits c.innerIds) :
    (r.bindClass c names).scope.frames = r.scope.frames ∧
      Lays c.innerIds (c.blocks Γ) r (r.bindClass c names) := by
  obtain ⟨hf, hms⟩ := bindMethods_places Γ c.methods (r.enter names) hΓ ha
  refine ⟨?_, binds_bindClass r c names, hms.placed⟩
  change (c.methods.foldl bindMethod (r.enter names)).scope.frames.tail = _
  rw [hf]
  rfl

theorem bindClasses_places (classes : Naming) (cs : List ClassDecl) (names : List Names)
    (namings : List Naming) (r : Resolution) (hlen : names.length = cs.length)
    (hlen' : namings.length = cs.length) (hr : r.scope.frames.length = 1)
    (ha : r.bindings.Awaits (cs.flatMap ClassDecl.innerIds)) :
    (bindClasses (cs.zip names) r).scope.frames = r.scope.frames ∧
      Lays (cs.flatMap ClassDecl.innerIds)
        ((cs.zip namings).flatMap fun q => q.1.blocks [q.2, classes]) r
        (bindClasses (cs.zip names) r) := by
  induction cs generalizing names namings r with
  | nil => exact ⟨rfl, .of_binds (Binds.refl _ r)⟩
  | cons c cs ih =>
    cases names with
    | nil => cases hlen
    | cons ns names =>
      cases namings with
      | nil => cases hlen'
      | cons γ namings =>
        obtain ⟨hf, hc⟩ := bindClass_places [γ, classes] r c ns (by simp [hr]) ha.left
        obtain ⟨hf', hcs⟩ := ih names namings (r.bindClass c ns) (Nat.succ.inj hlen)
          (Nat.succ.inj hlen') (by rw [hf]; exact hr) (ha.right hc.bindings)
        exact ⟨hf'.trans hf, hc.append hcs ha⟩

theorem Counts.closeHeader {r : Resolution} {i k : Nat} {rest : List Frame}
    (h : r.Counts i k rest) (c : ClassDecl) (header : Header) (parent? : Option String)
    (offset : Int) :
    (r.closeHeader c header parent? offset).Counts i k rest ∧
      (r.closeHeader c header parent? offset).bindings.declared? c.id =
        some { level := rest.length, type := header.shape.toTy, offset } := by
  obtain ⟨hdecl, hentry⟩ := closeHeader_declared r c header parent? offset
  rw [h.level] at hentry
  exact ⟨h.declare? rfl, declared?_eq_some.mpr ⟨_, hdecl, hentry⟩⟩

/-- A class takes a place before its header is put together, and declares itself there. -/
theorem Counts.layClass {r : Resolution} {i k : Nat} {rest : List Frame} (h : r.Counts i k rest)
    (c : ClassDecl) :
    (r.layClass c).1.Counts i (k + 1) rest ∧ ∃ shape : ClassShape,
      (r.layClass c).1.bindings.declared? c.id =
        some { level := rest.length, type := shape.toTy, offset := -2 - (k : Int) } := by
  obtain ⟨hplace, hcounts⟩ := h.takeDecl
  obtain ⟨hc, hdecl⟩ := (hcounts.of_scope (fillHeader_scope r c)).closeHeader c
    (r.fillHeader c).2 (r.openHeader c).2.2 (-2 - (k : Int))
  rw [layClass_eq, hplace]
  exact ⟨hc, _, hdecl⟩

theorem layClasses_places (cs : List ClassDecl) (r : Resolution) {k : Nat} (h : r.Counts 0 k [])
    (ha : r.bindings.Awaits (cs.flatMap ClassDecl.headerIds)) :
    (layClasses cs r).1.Counts 0 (k + cs.length) [] ∧
      (layClasses cs r).1.bindings.PlacesClasses k cs := by
  induction cs generalizing r k with
  | nil => exact ⟨h, .nil _ _⟩
  | cons c cs ih =>
    obtain ⟨hc, shape, hshape⟩ := h.layClass c
    have hrest := ha.right (extends_layClass r c).bindings
    obtain ⟨hc', hcs⟩ := ih (r.layClass c).1 hc hrest
    rw [List.length_cons, ← Nat.succ_add_eq_add_succ]
    exact ⟨hc', EntriesFrom.cons (hrest.declared? (extends_layClasses cs _).bindings hshape)
      ⟨shape, rfl⟩ hcs⟩

end Resolution

open Resolution

/-- What the entries of all declarations of a program are. -/
structure Program.Placed (p : Program) (b : Bindings) : Prop where
  classes : b.PlacesClasses 0 p.classes
  decls : b.PlacesDecls 0 p.classes.length p.decls
  blocks : ∀ block ∈ p.blocks, b.PlacesBlock block

theorem Program.placed (p : Program) (hn : p.ids.Nodup) : p.Placed p.resolve.bindings := by
  have hempty := p.awaits_opened hn
  obtain ⟨hc₁, hclasses⟩ : p.laid.1.Counts 0 (0 + p.classes.length) [] ∧
      p.laid.1.bindings.PlacesClasses 0 p.classes :=
    layClasses_places p.classes p.opened (counts_enter _ ∅) hempty.left
  have ha₁ := hempty.right p.extends_laid.bindings
  have hone : p.laid.1.scope.frames.length = 1 := by
    obtain ⟨f, hf, -, -⟩ := hc₁
    simp [hf]
  obtain ⟨hf₂, hl₂⟩ := bindClasses_places p.classNaming p.classes p.laid.2
    (ClassDecl.namings [] p.classes) p.laid.1 p.length_laid (ClassDecl.length_namings _ _) hone
    ha₁.left
  have hc₂ : p.withMethods.Counts 0 (0 + p.classes.length) [] := by
    obtain ⟨f, hf, hplaces⟩ := hc₁
    exact ⟨f, hf₂.trans hf, hplaces⟩
  have ha₂ := ha₁.right hl₂.bindings
  obtain ⟨-, hdecls, hl₃⟩ := bindDecls_places.2 p.decls p.withMethods _ _ _ []
    (p.classes.map ClassDecl.named) hc₂ rfl ha₂.left
  have ha₃ := ha₂.right hl₃.bindings
  have hbody := p.binds_resolve.bindings
  rw [← List.append_assoc] at ha₁
  have hlast := hl₂.append hl₃ ha₁.left
  rw [Nat.zero_add] at hdecls
  exact ⟨(hclasses.grows ha₁.left hlast.bindings).grows ha₃ hbody, hdecls.grows ha₃ hbody,
    fun block hb => (hlast.placed block hb).grows ha₃ hbody⟩

/-- The entry of a declaration follows from its position. In the frame of a function or
method inside `l` frames, the entries are of level `l`, the parameters are at 1 and upwards,
and the declarations at -2 and downwards. The outermost frame has the classes first and then
the declarations. In no frame are two entries at the same place. -/
theorem Program.declarations_placed (p : Program) (hn : p.ids.Nodup) :
    (∀ block ∈ p.blocks,
      (∀ (i : Nat) q, block.params[i]? = some q → p.resolve.bindings.declared? q.id =
        some { level := block.scope.length, type := q.type.lower, offset := (i : Int) + 1 }) ∧
      (∀ (j : Nat) d, block.decls[j]? = some d → p.resolve.bindings.declared? d.id =
        some { level := block.scope.length, type := d.type, offset := -2 - (j : Int) }) ∧
      ((block.params.map Binder.id ++ block.decls.map Decl.id).map
        p.resolve.bindings.offset?).Nodup) ∧
    (∀ (i : Nat) c, p.classes[i]? = some c → ∃ shape : ClassShape,
      p.resolve.bindings.declared? c.id =
        some { level := 0, type := shape.toTy, offset := -2 - (i : Int) }) ∧
    (∀ (j : Nat) d, p.decls[j]? = some d → p.resolve.bindings.declared? d.id =
      some { level := 0, type := d.type, offset := -2 - ((p.classes.length + j : Nat) : Int) }) ∧
    ((p.classes.map ClassDecl.id ++ p.decls.map Decl.id).map
      p.resolve.bindings.offset?).Nodup := by
  have h := p.placed hn
  refine ⟨fun block hb => ?_, ?_, ?_, nodup_offsets_outermost h.classes h.decls⟩
  · have hblock := h.blocks block hb
    refine ⟨?_, ?_, hblock.nodup_offsets⟩
    · simpa [PlacesParams, EntriesFrom] using hblock.params
    · simpa [PlacesDecls, EntriesFrom, Decl.entry] using hblock.decls
  · simpa [PlacesClasses, EntriesFrom] using h.classes
  · simpa [PlacesDecls, EntriesFrom, Decl.entry] using h.decls

/-- A program with two classes of one name, and a function in which names are taken before
and after another function. -/
def repeatedProgram : Program :=
  let pos := Position.ofLine 1
  let named (id : NodeId) : ClassDecl :=
    { id, name := "A", parent? := none, fields := [], methods := [], pos }
  let inner := .fn 6 "g" [⟨7, "c", .int pos, pos⟩] (.int pos)
    [.var 8 "b" (.int pos) (.name 9 "c" pos) pos] (.name 10 "b" pos) pos
  { classes := [named 0, named 1]
    decls := [
      .fn 2 "f" [⟨3, "a", .int pos, pos⟩, ⟨4, "a", .bool pos, pos⟩] (.int pos)
        [.var 5 "b" (.int pos) (.lit (.int 1) pos) pos, inner,
          .var 11 "b" (.bool pos) (.lit (.bool true) pos) pos]
        (.name 12 "b" pos) pos,
      .var 13 "f" (.int pos) (.lit (.int 2) pos) pos]
    body := .lit (.int 0) pos
    pos }

theorem repeatedProgram_placed : repeatedProgram.ids.Nodup ∧
    (∃ shape : ClassShape, repeatedProgram.resolve.bindings.declared? 1 =
      some { level := 0, type := shape.toTy, offset := -3 }) ∧
    repeatedProgram.resolve.bindings.declared? 4 =
      some { level := 1, type := .bool, offset := 2 } ∧
    repeatedProgram.resolve.bindings.declared? 8 =
      some { level := 2, type := .int, offset := -2 } ∧
    repeatedProgram.resolve.bindings.declared? 11 =
      some { level := 1, type := .bool, offset := -4 } ∧
    repeatedProgram.resolve.bindings.declared? 13 =
      some { level := 0, type := .int, offset := -5 } := by
  have hids : repeatedProgram.ids.Nodup := by decide +kernel
  obtain ⟨hblocks, hclasses, hdecls, -⟩ := repeatedProgram.declarations_placed hids
  have hlen : repeatedProgram.blocks.length = 2 := rfl
  have hinner := hblocks (repeatedProgram.blocks[0]) (List.getElem_mem _)
  have houter := hblocks (repeatedProgram.blocks[1]) (List.getElem_mem _)
  have hclass := hclasses 1 _ rfl
  have hparam := houter.1 1 _ rfl
  have hlocal := hinner.2.1 0 _ rfl
  have hthird := houter.2.1 2 _ rfl
  have hglobal := hdecls 1 _ rfl
  exact ⟨hids, hclass, hparam, hlocal, hthird, hglobal⟩

end Classlet
