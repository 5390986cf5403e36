import Classlet.Proofs.Checking
import Classlet.Proofs.StaticChain

/-!
The levels of uses, whatever is wrong with a program. At all times the entries of the
frame at level `l` are of level `l`: those of the outermost frame and of the classes are
of level 0, the members of a class are of level 1, and a declaration takes the level of the
frame it is made in, whether or not its name is free there. So a look-up, which goes from
the innermost frame outwards, finds an entry of the level of the frame that has the name.
The level of a use is that of the innermost frame, and the difference is the number of
frames between the use and the declaration, and of the access links that the code follows.
-/

namespace Classlet

/-- The level of the innermost frame that has the name. -/
def Naming.level? : List Naming → String → Option Nat
  | [], _ => none
  | γ :: Γ, x => if (γ x).isSome then some Γ.length else level? Γ x

namespace Use

/-- The use is of a name that is found from a place within the frames `Γ`. -/
structure Reaches (b : Bindings) (Γ : List Naming) (x : String) (u : Use) : Prop where
  level : u.level + 1 = Γ.length
  entry : ∃ e, b.entry? u.entry = some e ∧ Naming.level? Γ x = some e.level ∧ e.level ≤ u.level

/-- The use is of a registered class, from a place within the frames `Γ`. -/
structure Instantiates (b : Bindings) (Γ : List Naming) (cls : String) (u : Use) : Prop where
  level : u.level + 1 = Γ.length
  entry : ∃ record e, b.record? cls = some record ∧ u.entry = record.entry ∧
    b.entry? u.entry = some e ∧ e.level = 0

end Use

/-- What is filed in the tables. -/
def Bindings.Files (b : Bindings) : Finding → Prop
  | .use n u => b.uses[n]? = some u
  | .send n u => b.sends[n]? = some u
  | .fault _ => False

/-- The finding is what the expression itself refers to, from a place within the frames
`Γ`. -/
def Expr.Explains (b : Bindings) (Γ : List Naming) : Expr → Finding → Prop
  | .name id x _, .use n u | .call id x _ _, .use n u => n = id ∧ u.Reaches b Γ x
  | .new id cls _ _, .use n u => n = id ∧ u.Instantiates b Γ cls
  | .send id receiver _ _ _, .send n u =>
    n = id ∧ u.receiver.Reaches b Γ receiver ∧ ∃ m, b.entry? u.method = some m
  | _, _ => False

namespace Bindings

/-- A frame has exactly the given names, and their entries are of the given level. -/
structure AtLevel (b : Bindings) (level : Nat) (names : Names) (D : String → Prop) : Prop where
  has : ∀ x, x ∈ names ↔ D x
  entries : ∀ (x : String) (id : EntryId), names[x]? = some id →
    ∃ e, b.entry? id = some e ∧ e.level = level

/-- The frames, innermost first, have the names that the frames of the text have, at the
level of each. -/
inductive Levelled (b : Bindings) : List Names → List Naming → Prop
  | nil : Levelled b [] []
  | cons {names : Names} {frames : List Names} {γ : Naming} {Γ : List Naming} :
    b.AtLevel frames.length names (fun x => (γ x).isSome) → Levelled b frames Γ →
    Levelled b (names :: frames) (γ :: Γ)

/-- The entries of registered classes are of level 0 and those of their members of
level 1. -/
structure ClassLevels (b : Bindings) : Prop where
  entry : ∀ cls record, b.record? cls = some record →
    ∃ e, b.entry? record.entry = some e ∧ e.level = 0
  members : ∀ cls record, b.record? cls = some record → ∀ (x : String) (id : EntryId),
    record.members[x]? = some id → ∃ e, b.entry? id = some e ∧ e.level = 1

variable {b b' : Bindings} {ids : List NodeId} {level : Nat} {names : Names} {D D' : String → Prop}
  {Γ : List Naming}

theorem AtLevel.grows (h : b.AtLevel level names D) (hg : b.Grows ids b') :
    b'.AtLevel level names D := by
  refine ⟨h.has, fun x id hx => ?_⟩
  obtain ⟨e, he, hl⟩ := h.entries x id hx
  exact ⟨e, hg.entries _ _ he, hl⟩

theorem AtLevel.congr (h : b.AtLevel level names D) (hD : ∀ x, D x ↔ D' x) :
    b.AtLevel level names D' :=
  ⟨fun x => (h.has x).trans (hD x), h.entries⟩

theorem atLevel_empty (b : Bindings) (level : Nat) : b.AtLevel level ∅ fun _ => False :=
  ⟨by simp, by simp⟩

theorem AtLevel.insert (h : b.AtLevel level names D) {id : EntryId} {e : Entry}
    (he : b.entry? id = some e) (hl : e.level = level) (x : String) :
    b.AtLevel level (names.insert x id) fun y => y = x ∨ D y := by
  constructor
  · intro y
    rw [Std.TreeMap.mem_insert, h.has, Std.compare_eq_iff_eq]
    exact or_congr_left eq_comm
  · intro y id' hy
    rw [Std.TreeMap.getElem?_insert] at hy
    split at hy
    · cases hy
      exact ⟨e, he, hl⟩
    · exact h.entries y id' hy

/-- A name that is taken changes nothing. -/
theorem AtLevel.taken (h : b.AtLevel level names D) {x : String} (hx : x ∈ names) :
    b.AtLevel level names fun y => y = x ∨ D y := by
  refine h.congr fun y => ⟨Or.inr, ?_⟩
  rintro (rfl | hy)
  · exact (h.has y).mp hx
  · exact hy

theorem Levelled.grows {frames : List Names} (h : b.Levelled frames Γ) (hg : b.Grows ids b') :
    b'.Levelled frames Γ := by
  induction h with
  | nil => exact .nil
  | cons hf _ ih => exact .cons (hf.grows hg) ih

theorem Levelled.length {frames : List Names} (h : b.Levelled frames Γ) :
    frames.length = Γ.length := by
  induction h with
  | nil => rfl
  | cons _ _ ih => rw [List.length_cons, List.length_cons, ih]

/-- A look-up finds an entry of the level of the frame that has the name. -/
theorem Levelled.find? {frames : List Frame} (h : b.Levelled (frames.map Frame.names) Γ)
    {x : String} {id : EntryId} {l : Nat} (hx : Scope.find? x frames = some (id, l)) :
    ∃ e, b.entry? id = some e ∧ Naming.level? Γ x = some e.level ∧ e.level < Γ.length := by
  induction frames generalizing Γ with
  | nil => cases hx
  | cons f fs ih =>
    cases h with
    | @cons _ _ γ Γ hf hrest =>
      have hlen := hrest.length
      cases hn : f.names[x]? with
      | some id' =>
        simp only [Scope.find?, hn, Option.some.injEq, Prod.mk.injEq] at hx
        obtain ⟨e, he, hl⟩ := hf.entries x id' hn
        have hsome : (γ x).isSome := by
          rw [← hf.has, Std.TreeMap.mem_iff_isSome_getElem?, hn]
          rfl
        refine ⟨e, hx.1 ▸ he, ?_, ?_⟩
        · rw [Naming.level?, if_pos hsome, hl, hlen]
        · rw [List.length_cons]
          omega
      | none =>
        simp only [Scope.find?, hn] at hx
        obtain ⟨e, he, hl, hlt⟩ := ih hrest hx
        have hnone : ¬ (γ x).isSome := by
          rw [← hf.has, Std.TreeMap.mem_iff_isSome_getElem?, hn]
          simp
        refine ⟨e, he, ?_, ?_⟩
        · rw [Naming.level?, if_neg hnone, hl]
        · rw [List.length_cons]
          omega

theorem ClassLevels.grows (h : b.ClassLevels) (hg : b.Grows ids b')
    (hr : b'.records = b.records) : b'.ClassLevels := by
  have hrecord : ∀ cls, b'.record? cls = b.record? cls := by
    intro cls
    simp only [record?, hr]
  refine ⟨fun cls record hc => ?_, fun cls record hc x id hx => ?_⟩
  · rw [hrecord] at hc
    obtain ⟨e, he, hl⟩ := h.entry cls record hc
    exact ⟨e, hg.entries _ _ he, hl⟩
  · rw [hrecord] at hc
    obtain ⟨e, he, hl⟩ := h.members cls record hc x id hx
    exact ⟨e, hg.entries _ _ he, hl⟩

end Bindings

open Bindings

/-! What an expression refers to. -/

section

variable {b b' : Bindings} {Γ : List Naming} {ids : List NodeId}

theorem Use.Reaches.grows {x : String} {u : Use} (h : u.Reaches b Γ x) (hg : b.Grows ids b') :
    u.Reaches b' Γ x := by
  obtain ⟨e, he, hrest⟩ := h.entry
  exact ⟨h.level, e, hg.entries _ _ he, hrest⟩

theorem Use.Instantiates.grows {cls : String} {u : Use} (h : u.Instantiates b Γ cls)
    (hg : b.Grows ids b') : u.Instantiates b' Γ cls := by
  obtain ⟨record, e, hr, hentry, he, hl⟩ := h.entry
  exact ⟨h.level, record, e, hg.records _ _ hr, hentry, hg.entries _ _ he, hl⟩

theorem Expr.Explains.grows {e : Expr} {f : Finding} (h : e.Explains b Γ f)
    (hg : b.Grows ids b') : e.Explains b' Γ f := by
  cases e with
  | name | call | new =>
    cases f with
    | use => exact ⟨h.1, h.2.grows hg⟩
    | send | fault => exact h
  | send =>
    cases f with
    | send =>
      obtain ⟨hid, hr, m, hm⟩ := h
      exact ⟨hid, hr.grows hg, m, hg.entries _ _ hm⟩
    | use | fault => exact h
  | lit | binary | not | cond | print => cases f <;> exact h

variable {s : Scope}

theorem reaches_use? (hs : b.Levelled (s.frames.map Frame.names) Γ) {x : String} {u : Use}
    (hu : Finding.use? s x = some u) : u.Reaches b Γ x := by
  rw [Resolution.use?_eq, Option.map_eq_some_iff] at hu
  obtain ⟨⟨id, l⟩, hfind, rfl⟩ := hu
  obtain ⟨e, he, hl, hlt⟩ := hs.find? hfind
  have hlen := hs.length
  rw [List.length_map] at hlen
  simp only [Scope.level, hlen]
  exact ⟨by simp only; omega, e, he, hl, by simp only; omega⟩

/-- A finding that is no fault is explained by one of the expressions. -/
def Finding.ExplainedBy (b : Bindings) (Γ : List Naming) (es : List Expr) (f : Finding) : Prop :=
  (∃ error, f = .fault error) ∨ ∃ e ∈ es, e.Explains b Γ f

theorem Finding.ExplainedBy.mono {es es' : List Expr} {f : Finding} (h : f.ExplainedBy b Γ es)
    (hsub : es ⊆ es') : f.ExplainedBy b Γ es' := by
  rcases h with h | ⟨e, he, h⟩
  · exact Or.inl h
  · exact Or.inr ⟨e, hsub he, h⟩

variable (hs : b.Levelled (s.frames.map Frame.names) Γ)

include hs

theorem ofName_explained (id : NodeId) (kind : NameKind) (x : String) (pos : Position) {e : Expr}
    (he : ∀ u : Use, u.Reaches b Γ x → e.Explains b Γ (.use id u)) :
    (Finding.ofName s id kind x pos).ExplainedBy b Γ [e] := by
  unfold Finding.ofName
  cases hu : Finding.use? s x with
  | none => exact Or.inl ⟨_, rfl⟩
  | some u => exact Or.inr ⟨e, List.mem_singleton_self e, he u (reaches_use? hs hu)⟩

theorem ofClass_explained (hc : b.ClassLevels) (hne : s.frames ≠ []) (id : NodeId) (cls : String)
    (args : List Expr) (pos : Position) :
    (Finding.ofClass s b id cls pos).ExplainedBy b Γ [.new id cls args pos] := by
  unfold Finding.ofClass
  cases hr : b.record? cls with
  | none => exact Or.inl ⟨_, rfl⟩
  | some record =>
    obtain ⟨e, he, hl⟩ := hc.entry cls record hr
    refine Or.inr ⟨_, List.mem_singleton_self _, rfl, ?_, record, e, hr, rfl, he, hl⟩
    have hlen := hs.length
    have hpos := List.length_pos_iff.mpr hne
    rw [List.length_map] at hlen
    simp only [Scope.level]
    omega

theorem ofSend_explained (hc : b.ClassLevels) (id : NodeId) (receiver method : String)
    (args : List Expr) (pos : Position) :
    ∀ f ∈ (Finding.ofSend? s b id receiver method pos).toList,
      f.ExplainedBy b Γ [.send id receiver method args pos] := by
  intro f hf
  rw [Option.mem_toList] at hf
  unfold Finding.ofSend? at hf
  cases hu : Finding.use? s receiver with
  | none =>
    simp only [hu, Option.some.injEq] at hf
    exact Or.inl ⟨_, hf.symm⟩
  | some u =>
    simp only [hu] at hf
    split at hf
    · exact Or.inl ⟨_, (Option.some.inj hf).symm⟩
    · rename_i cls _
      obtain ⟨record, hr, rfl⟩ := Option.map_eq_some_iff.mp hf
      cases hm : record.members[method]? with
      | none => exact Or.inl ⟨_, rfl⟩
      | some m =>
        obtain ⟨e, he, -⟩ := hc.members cls record hr method m hm
        exact Or.inr ⟨_, List.mem_singleton_self _, rfl, reaches_use? hs hu, e, he⟩

/-- All findings of an expression are explained by its parts. -/
theorem Expr.findings_explained (hc : b.ClassLevels) (hne : s.frames ≠ []) (e : Expr) :
    ∀ f ∈ e.findings s b, f.ExplainedBy b Γ e.parts := by
  have args : ∀ es : List Expr, (∀ a ∈ es, ∀ f ∈ a.findings s b, f.ExplainedBy b Γ a.parts) →
      ∀ f ∈ findingsOfArgs s b es, f.ExplainedBy b Γ (partsOfArgs es) := by
    intro es
    induction es with
    | nil =>
      intro _ f hf
      cases hf
    | cons a es ih =>
      intro hes f hf
      rcases List.mem_append.mp hf with hf | hf
      · exact (hes a (List.mem_cons_self ..) f hf).mono (List.subset_append_left _ _)
      · exact (ih (fun a ha => hes a (List.mem_cons_of_mem _ ha)) f hf).mono
          (List.subset_append_right _ _)
  -- The expression itself is the first of its parts.
  have self : ∀ (x : Expr) (es : List Expr), [x] ⊆ x :: es := by simp
  induction e with
  | lit value pos =>
    intro f hf
    cases hf
  | name id x pos =>
    intro f hf
    rw [List.mem_singleton.mp hf]
    exact ofName_explained hs id .variable x pos fun u hu => ⟨rfl, hu⟩
  | binary op left right pos ihl ihr =>
    intro f hf
    rcases List.mem_append.mp hf with hf | hf
    · exact (ihl f hf).mono fun y hy => by simp [parts, hy]
    · exact (ihr f hf).mono fun y hy => by simp [parts, hy]
  | not operand pos ih => exact fun f hf => (ih f hf).mono (List.subset_cons_self _ _)
  | cond test yes no pos iht ihy ihn =>
    intro f hf
    simp only [findings, List.mem_append] at hf
    rcases hf with (hf | hf) | hf
    · exact (iht f hf).mono fun y hy => by simp [parts, hy]
    · exact (ihy f hf).mono fun y hy => by simp [parts, hy]
    · exact (ihn f hf).mono fun y hy => by simp [parts, hy]
  | print operand pos ih => exact fun f hf => (ih f hf).mono (List.subset_cons_self _ _)
  | call id callee es pos ih =>
    intro f hf
    rcases List.mem_cons.mp hf with rfl | hf
    · exact (ofName_explained hs id .function callee pos (e := .call id callee es pos)
        fun u hu => ⟨rfl, hu⟩).mono (self _ _)
    · exact (args es ih f hf).mono (List.subset_cons_self _ _)
  | send id receiver method es pos ih =>
    intro f hf
    rcases List.mem_append.mp hf with hf | hf
    · exact (ofSend_explained hs hc id receiver method es pos f hf).mono (self _ _)
    · exact (args es ih f hf).mono (List.subset_cons_self _ _)
  | new id cls es pos ih =>
    intro f hf
    rcases List.mem_cons.mp hf with rfl | hf
    · exact (ofClass_explained hs hc hne id cls es pos).mono (self _ _)
    · exact (args es ih f hf).mono (List.subset_cons_self _ _)

end

namespace Resolution

/-- The state within the frames `Γ`, where all that is filed is explained at one of the
places. -/
structure Charted (r : Resolution) (Γ : List Naming) (places : List (List Naming × Expr)) :
    Prop where
  frames : r.bindings.Levelled (r.scope.frames.map Frame.names) Γ
  classes : r.bindings.ClassLevels
  filed : ∀ f, r.bindings.Files f → ∃ q ∈ places, q.2.Explains r.bindings q.1 f

variable {r r' : Resolution} {Γ : List Naming} {places : List (List Naming × Expr)}

theorem Charted.of_bindings (h : r.Charted Γ places) (hb : r'.bindings = r.bindings)
    (hs : r'.scope.frames.map Frame.names = r.scope.frames.map Frame.names) :
    r'.Charted Γ places := by
  refine ⟨?_, ?_, ?_⟩
  · rw [hb, hs]
    exact h.frames
  · rw [hb]
    exact h.classes
  · rw [hb]
    exact h.filed

/-- Filing a finding that is explained at a place. -/
theorem files_record {f g : Finding} (h : (r.record f).bindings.Files g) :
    g = f ∨ r.bindings.Files g := by
  cases f with
  | fault error => exact Or.inr h
  | use n u =>
    cases g with
    | use n' u' =>
      simp only [record, Bindings.Files, Bindings.fileUse, Std.TreeMap.getElem?_insert] at h
      split at h
      · rename_i hn
        have hn' : n = n' := by simpa using hn
        cases h
        exact Or.inl (by rw [hn'])
      · exact Or.inr h
    | send | fault => exact Or.inr h
  | send n u =>
    cases g with
    | send n' u' =>
      simp only [record, Bindings.Files, Bindings.fileSend, Std.TreeMap.getElem?_insert] at h
      split at h
      · rename_i hn
        have hn' : n = n' := by simpa using hn
        cases h
        exact Or.inl (by rw [hn'])
      · exact Or.inr h
    | use | fault => exact Or.inr h

theorem files_foldl_record {fs : List Finding} {g : Finding}
    (h : (fs.foldl record r).bindings.Files g) : g ∈ fs ∨ r.bindings.Files g := by
  induction fs generalizing r with
  | nil => exact Or.inr h
  | cons f fs ih =>
    rcases ih h with hg | hg
    · exact Or.inl (List.mem_cons_of_mem _ hg)
    · rcases files_record hg with rfl | hg
      · exact Or.inl (List.mem_cons_self ..)
      · exact Or.inr hg

theorem bindExpr_charted {γ : Naming} (h : r.Charted (γ :: Γ) places) (e : Expr) :
    (r.bindExpr e).Charted (γ :: Γ) (places ++ e.places (γ :: Γ)) := by
  have hb := binds_bindExpr e r
  have hne : r.scope.frames ≠ [] := by
    intro hnil
    have hlen := h.frames.length
    simp [hnil] at hlen
  refine ⟨?_, h.classes.grows hb.bindings hb.records, fun f hf => ?_⟩
  · rw [bindExpr_scope]
    exact h.frames.grows hb.bindings
  · rcases files_foldl_record hf with hnew | hold
    · rcases e.findings_explained h.frames h.classes hne f hnew with ⟨error, rfl⟩ | ⟨x, hx, hexp⟩
      · cases (hf : False)
      · exact ⟨(γ :: Γ, x), List.mem_append_right _ (List.mem_map_of_mem hx),
          hexp.grows hb.bindings⟩
    · obtain ⟨q, hq, hexp⟩ := h.filed f hold
      exact ⟨q, List.mem_append_left _ hq, hexp.grows hb.bindings⟩

/-! Declarations. -/

theorem checkType_bindings (r : Resolution) (a : WrittenType) :
    (r.checkType a).bindings = r.bindings := by
  unfold checkType
  split <;> rfl

theorem checkSignature_bindings (r : Resolution) (ps : List Binder) (ret : WrittenType) :
    (r.checkSignature ps ret).bindings = r.bindings := by
  have types : ∀ (ps : List Binder) (r : Resolution),
      (ps.foldl (fun r p => r.checkType p.type) r).bindings = r.bindings := by
    intro ps
    induction ps with
    | nil => intro r; rfl
    | cons p ps ih => intro r; rw [List.foldl_cons, ih, checkType_bindings]
  rw [checkSignature, checkType_bindings, types]

/-- An entry that is added to the tables is not yet used. -/
theorem Charted.add (h : r.Charted Γ places) (node : NodeId) (e : Entry) :
    (r.add node e).2.Charted Γ places := by
  have hb := binds_add r node e
  refine ⟨h.frames.grows hb.bindings, h.classes.grows hb.bindings hb.records, fun f hf => ?_⟩
  have hold : r.bindings.Files f := by cases f <;> exact hf
  obtain ⟨q, hq, hexp⟩ := h.filed f hold
  exact ⟨q, hq, hexp.grows hb.bindings⟩

/-- A name joins the innermost frame, or is there already. -/
theorem Levelled.declare? {b : Bindings} {s : Scope} {before : List (String × NodeId)}
    (h : b.Levelled (s.frames.map Frame.names) (.ofList before :: Γ)) {id : EntryId} {e : Entry}
    (he : b.entry? id = some e) (hl : e.level = s.level) (x : String) (n : NodeId) :
    b.Levelled (((s.declare? x id).getD s).frames.map Frame.names)
      (.ofList (before ++ [(x, n)]) :: Γ) := by
  unfold Scope.declare?
  cases hs : s.frames with
  | nil =>
    rw [hs] at h
    cases h
  | cons f fs =>
    rw [hs] at h
    cases h with
    | cons hf hrest =>
      have hlevel : e.level = (fs.map Frame.names).length := by
        rw [hl, Scope.level, hs]
        simp
      have hD : ∀ y, (y = x ∨ (Naming.ofList before y).isSome) ↔
          (Naming.ofList (before ++ [(x, n)]) y).isSome := by
        intro y
        simp [Naming.isSome_ofList, or_comm]
      simp only
      split
      · rename_i htaken
        rw [Option.getD_none, hs]
        exact .cons ((hf.taken htaken).congr hD) hrest
      · exact .cons ((hf.insert he hlevel x).congr hD) hrest

theorem declare_charted {before : List (String × NodeId)}
    (h : r.Charted (.ofList before :: Γ) places) (node : NodeId) (name : String)
    (kind : NameKind) (type : Ty) (offset : Int) (pos : Position) :
    (r.declare node name kind type offset pos).Charted (.ofList (before ++ [(name, node)]) :: Γ)
      places := by
  have hadd := h.add node { level := r.scope.level, type, offset }
  have hentry := entry_add r.bindings { level := r.scope.level, type, offset }
  have hs := Levelled.declare? hadd.frames hentry rfl name node
  refine ⟨?_, ?_, ?_⟩
  · rw [declare_bindings, declare_scope]
    exact hs
  · rw [declare_bindings]
    exact hadd.classes
  · rw [declare_bindings]
    exact hadd.filed

theorem declareLocal_charted {before : List (String × NodeId)}
    (h : r.Charted (.ofList before :: Γ) places) (node : NodeId) (name : String)
    (kind : NameKind) (type : Ty) (pos : Position) :
    (r.declareLocal node name kind type pos).Charted (.ofList (before ++ [(name, node)]) :: Γ)
      places :=
  declare_charted (r := { r with scope := r.scope.takeDecl.2 })
    (h.of_bindings rfl (Scope.names_takeDecl r.scope)) node name kind type _ pos

theorem declareParams_charted (ps : List Binder) {before : List (String × NodeId)}
    (h : r.Charted (.ofList before :: Γ) places) :
    (ps.foldl declareParam r).Charted (.ofList (before ++ ps.map Binder.named) :: Γ) places := by
  induction ps generalizing r before with
  | nil => simpa using h
  | cons p ps ih =>
    have hp : (r.declareParam p).Charted (.ofList (before ++ [(p.name, p.id)]) :: Γ) places :=
      declare_charted (r := { r with scope := r.scope.takeParam.2 })
        (h.of_bindings rfl (Scope.names_takeParam r.scope)) p.id p.name .parameter p.type.lower _
        p.pos
    have hrest := ih hp
    rw [List.append_assoc] at hrest
    exact hrest

theorem Charted.enter (h : r.Charted Γ places) {names : Names} {γ : Naming}
    (hn : r.bindings.AtLevel Γ.length names fun x => (γ x).isSome) :
    (r.enter names).Charted (γ :: Γ) places := by
  refine ⟨.cons ?_ h.frames, h.classes, h.filed⟩
  rw [h.frames.length]
  exact hn

theorem Charted.leave {γ : Naming} (h : r.Charted (γ :: Γ) places) : r.leave.Charted Γ places := by
  refine ⟨?_, h.classes, h.filed⟩
  have hframes := h.frames
  change r.bindings.Levelled (r.scope.frames.tail.map Frame.names) Γ
  cases hs : r.scope.frames with
  | nil =>
    rw [hs] at hframes
    cases hframes
  | cons f fs =>
    rw [hs] at hframes
    cases hframes with
    | cons _ hrest => exact hrest

/-- What is said of declarations in a frame: they join it, and all that is filed for them
is explained at their places. -/
def DeclsCharted (ds : List Decl) : Prop :=
  ∀ (r : Resolution) (before : List (String × NodeId)) (Γ : List Naming)
    (places : List (List Naming × Expr)), r.Charted (.ofList before :: Γ) places →
    (bindDecls ds r).Charted (.ofList (before ++ ds.map Decl.named) :: Γ)
      (places ++ Decl.placesOfAll Γ before ds)

theorem bindRoutine_charted (params : List Binder) (decls : List Decl) (body : Expr)
    (hds : DeclsCharted decls) (h : r.Charted Γ places) :
    (r.bindRoutine params decls body).Charted Γ (places ++ routinePlaces Γ params decls body) := by
  have hempty : r.bindings.AtLevel Γ.length ∅ fun x => (Naming.ofList [] x).isSome :=
    (atLevel_empty _ _).congr (by simp [Naming.isSome_ofList])
  have hparams := declareParams_charted params (h.enter hempty)
  have hbody := (bindExpr_charted (hds _ _ _ _ hparams) body).leave
  simpa only [bindRoutine, routinePlaces, List.nil_append, List.append_assoc] using hbody

theorem bindDecls_charted : (∀ d : Decl, DeclsCharted [d]) ∧ ∀ ds : List Decl, DeclsCharted ds := by
  apply Decl.induction
  · intro id name type init pos r before Γ places h
    have hinit := bindExpr_charted h init
    have htype : ((r.bindExpr init).checkType type).Charted _ _ :=
      hinit.of_bindings (checkType_bindings _ type) (by rw [checkType_scope])
    have hdecl := declareLocal_charted htype id name .variable type.lower pos
    simpa [bindDecls, bindDecl, Decl.placesOfAll, Decl.places, Decl.named, Decl.name, Decl.id]
      using hdecl
  · intro id name params ret decls body pos ih r before Γ places h
    have hsig : (r.checkSignature params ret).Charted _ _ :=
      h.of_bindings (checkSignature_bindings r params ret) (by rw [checkSignature_scope])
    have hdecl := declareLocal_charted hsig id name .function (.arrow (signatureOf params ret)) pos
    have hinner := bindRoutine_charted params decls body ih hdecl
    simpa [bindDecls, bindDecl, bindRoutine, Decl.placesOfAll, Decl.places, routinePlaces,
      Decl.named, Decl.name, Decl.id] using hinner
  · intro r before Γ places h
    simpa [bindDecls, Decl.placesOfAll] using h
  · intro d ds ihd ihs r before Γ places h
    have hall := ihs _ _ _ _ (ihd r before Γ places h)
    simpa [bindDecls, Decl.placesOfAll] using hall

/-! The bodies of classes. -/

theorem bindMethods_charted (ms : List MethodDecl) (h : r.Charted Γ places) :
    (ms.foldl bindMethod r).Charted Γ
      (places ++ ms.flatMap fun m => routinePlaces Γ m.params m.decls m.body) := by
  induction ms generalizing r places with
  | nil => simpa using h
  | cons m ms ih =>
    have hall := ih (bindRoutine_charted m.params m.decls m.body (bindDecls_charted.2 m.decls) h)
    rw [List.append_assoc] at hall
    exact hall

theorem bindClass_charted {classes γ : Naming} (h : r.Charted [classes] places) (c : ClassDecl)
    {names : Names} (hn : r.bindings.AtLevel 1 names fun x => (γ x).isSome) :
    (r.bindClass c names).Charted [classes] (places ++ c.places [γ, classes]) :=
  (bindMethods_charted c.methods (h.enter hn)).leave

theorem bindClasses_charted {classes : Naming} (cs : List ClassDecl) {names : List Names}
    {namings : List Naming}
    (hn : List.Forall₂ (fun names γ => r.bindings.AtLevel 1 names fun x => (γ x).isSome) names
      namings)
    (h : r.Charted [classes] places) (hlen : names.length = cs.length) :
    (bindClasses (cs.zip names) r).Charted [classes]
      (places ++ (cs.zip namings).flatMap fun q => q.1.places [q.2, classes]) := by
  induction cs generalizing names namings r places with
  | nil => simpa [bindClasses] using h
  | cons c cs ih =>
    cases hn with
    | nil => cases hlen
    | @cons ns γ names namings hfirst hrest =>
      have hone := bindClass_charted h c hfirst
      have hkept := hrest.imp fun _ _ hl => hl.grows (binds_bindClass r c ns).bindings
      have hall := ih hkept hone (Nat.succ.inj hlen)
      rw [List.append_assoc] at hall
      exact hall

/-! The headers of classes. -/

theorem fileMember_atLevel {level : Nat} {h : Header} {D : String → Prop}
    (hm : r.bindings.AtLevel level h.members D) (node : NodeId) (name : String) {e : Entry}
    (he : e.level = level) :
    (r.fileMember h node name e).1.bindings.AtLevel level (r.fileMember h node name e).2.members
      fun x => x = name ∨ D x :=
  (hm.grows (binds_add r node e).bindings).insert (entry_add r.bindings e) he name

theorem mem_of_member? {h : Header} {x : String} {e : Entry} (hx : r.member? h x = some e) :
    x ∈ h.members := by
  rw [Std.TreeMap.mem_iff_isSome_getElem?]
  unfold member? at hx
  cases hn : h.members[x]? with
  | none => simp [hn] at hx
  | some id => rfl

theorem placeField_atLevel {level : Nat} {h : Header} {D : String → Prop}
    (hm : r.bindings.AtLevel level h.members D) (cls : String) (f : Binder) :
    (r.placeField cls level h f).1.bindings.AtLevel level (r.placeField cls level h f).2.members
      fun x => x = f.name ∨ D x := by
  unfold placeField
  simp only
  split
  · exact fileMember_atLevel (h := { h with shape.fields := _ }) hm f.id f.name rfl
  · rename_i hold
    split
    · exact hm.taken (mem_of_member? hold)
    · exact fileMember_atLevel (h := { h with shape.fields := _ }) hm f.id f.name rfl

theorem placeMethod_atLevel {level : Nat} {h : Header} {D : String → Prop}
    (hm : r.bindings.AtLevel level h.members D) (cls : String) (m : MethodDecl) :
    (r.placeMethod cls level h m).1.bindings.AtLevel level (r.placeMethod cls level h m).2.members
      fun x => x = m.name ∨ D x := by
  have hfile : ∀ (h' : Header) (slot : MethodSlot), h'.members = h.members →
      (r.fileMethod h' level m slot).1.bindings.AtLevel level
        (r.fileMethod h' level m slot).2.members fun x => x = m.name ∨ D x := by
    intro h' slot hh
    have hnew := fileMember_atLevel (h := h') (hh ▸ hm) m.id m.name
      (e := { level, type := .method m.signature, offset := slot.index }) rfl
    exact ⟨hnew.has, hnew.entries⟩
  unfold placeMethod
  simp only
  split
  · exact hfile _ _ rfl
  · rename_i hold
    split
    · exact hm.taken (mem_of_member? hold)
    · exact hfile _ _ rfl

/-- Names that are placed once are the names that are declared, and those seen before. -/
theorem placeFields_atLevel (cls : String) {level : Nat} (fs : List Binder) :
    ∀ (seen : List String) (r : Resolution) (h : Header) (D : String → Prop),
      r.bindings.AtLevel level h.members D → (∀ x ∈ seen, D x) →
      (placeFields cls level seen fs r h).1.bindings.AtLevel level
        (placeFields cls level seen fs r h).2.members fun x => x ∈ fs.map Binder.name ∨ D x := by
  induction fs with
  | nil => exact fun seen r h D hm _ => hm.congr (by simp)
  | cons f fs ih =>
    intro seen r h D hm hseen
    have hm₁ : (r.checkType f.type).bindings.AtLevel level h.members D := by
      rw [checkType_bindings]
      exact hm
    have hD : ∀ x, (x ∈ fs.map Binder.name ∨ x = f.name ∨ D x) ↔
        (x ∈ (f :: fs).map Binder.name ∨ D x) := by
      intro x
      rw [List.map_cons, List.mem_cons]
      tauto
    have hseen' : ∀ x ∈ f.name :: seen, x = f.name ∨ D x := by
      intro x hx
      exact (List.mem_cons.mp hx).imp_right (hseen x)
    simp only [placeFields]
    split
    · rename_i hs
      have htaken := hm₁.taken ((hm₁.has _).mpr (hseen f.name (by simpa using hs)))
      exact (ih _ (report _ f.pos (.repeatedMember .field cls f.name)) _ _ htaken hseen').congr hD
    · exact (ih _ _ _ _ (placeField_atLevel hm₁ cls f) hseen').congr hD

theorem placeMethods_atLevel (cls : String) {level : Nat} (ms : List MethodDecl) :
    ∀ (seen : List String) (r : Resolution) (h : Header) (D : String → Prop),
      r.bindings.AtLevel level h.members D → (∀ x ∈ seen, D x) →
      (placeMethods cls level seen ms r h).1.bindings.AtLevel level
        (placeMethods cls level seen ms r h).2.members
        fun x => x ∈ ms.map MethodDecl.name ∨ D x := by
  induction ms with
  | nil => exact fun seen r h D hm _ => hm.congr (by simp)
  | cons m ms ih =>
    intro seen r h D hm hseen
    have hm₁ : (r.checkSignature m.params m.ret).bindings.AtLevel level h.members D := by
      rw [checkSignature_bindings]
      exact hm
    have hD : ∀ x, (x ∈ ms.map MethodDecl.name ∨ x = m.name ∨ D x) ↔
        (x ∈ (m :: ms).map MethodDecl.name ∨ D x) := by
      intro x
      rw [List.map_cons, List.mem_cons]
      tauto
    have hseen' : ∀ x ∈ m.name :: seen, x = m.name ∨ D x := by
      intro x hx
      exact (List.mem_cons.mp hx).imp_right (hseen x)
    simp only [placeMethods]
    split
    · rename_i hs
      have htaken := hm₁.taken ((hm₁.has _).mpr (hseen m.name (by simpa using hs)))
      exact (ih _ (report _ m.pos (.repeatedMember .method cls m.name)) _ _ htaken hseen').congr hD
    · exact (ih _ _ _ _ (placeMethod_atLevel hm₁ cls m) hseen').congr hD

/-- The members of a class are those that it inherits and those that it declares. -/
theorem placeMembers_atLevel {level : Nat} {h : Header} {inherited : String → Option Member}
    (hm : r.bindings.AtLevel level h.members fun x => (inherited x).isSome) (c : ClassDecl) :
    (r.placeMembers c level h).1.bindings.AtLevel level (r.placeMembers c level h).2.members
      fun x => (c.membersOver inherited x).isSome := by
  have hfields := placeFields_atLevel c.name c.fields [] r h _ hm (by simp)
  have hmethods := placeMethods_atLevel c.name c.methods [] _ _ _ hfields (by simp)
  refine hmethods.congr fun x => ?_
  rw [ClassDecl.membersOver, Member.isSome_over, Member.isSome_over, Naming.isSome_ofList,
    Naming.isSome_ofList, List.map_map, List.map_map]
  rfl

/-- The headers of classes are put together, the latest of them first in the list. -/
structure Introduces (r : Resolution) (done : List ClassDecl) : Prop where
  frames : r.bindings.Levelled (r.scope.frames.map Frame.names)
    [.ofList (done.reverse.map ClassDecl.named)]
  entry : ∀ cls record, r.bindings.record? cls = some record →
    ∃ e, r.bindings.entry? record.entry = some e ∧ e.level = 0
  registered : ∀ cls, (r.bindings.record? cls).isSome ↔ cls ∈ done.map ClassDecl.name
  members : ∀ cls record, r.bindings.record? cls = some record →
    r.bindings.AtLevel 1 record.members fun x => (membersOf done cls x).isSome

theorem layClass_introduces {done : List ClassDecl} (h : r.Introduces done) (c : ClassDecl) :
    (r.layClass c).1.Introduces (c :: done) ∧
      (r.layClass c).1.bindings.AtLevel 1 (r.layClass c).2 fun x => (c.naming done x).isSome := by
  have hlevel : r.scope.level = 0 := by
    have hlen := h.frames.length
    rw [List.length_map] at hlen
    simp [Scope.level, hlen]
  have hfill := (extends_fillHeader r c).bindings
  have hclose := (extends_closed r c).bindings
  have hentry := (layClass_declared r c).2
  have hplaced : (r.fillHeader c).1.bindings.AtLevel 1 (r.fillHeader c).2.members
      fun x => (c.membersOver (c.inherited done) x).isSome := by
    rw [fillHeader, hlevel]
    refine placeMembers_atLevel ?_ c
    rw [openHeader_bindings]
    exact openHeader_members (P := fun names members =>
        r.bindings.AtLevel 1 names fun x => (members x).isSome)
      h.registered ((atLevel_empty _ _).congr (by simp)) h.members
  have hnew := hplaced.grows hclose
  refine ⟨⟨?_, ?_, layClass_registered h.registered, ?_⟩, ?_⟩
  · have hframes : (r.fillHeader c).1.bindings.Levelled
        ((r.fillHeader c).1.scope.frames.map Frame.names)
        [.ofList (done.reverse.map ClassDecl.named)] := by
      rw [fillHeader_scope, Scope.names_takeDecl]
      exact h.frames.grows hfill
    have hsame : r.scope.level = (r.fillHeader c).1.scope.level := by
      rw [fillHeader_scope, level_takeDecl]
    rw [List.reverse_cons, List.map_append]
    exact Levelled.declare? (hframes.grows hclose) hentry hsame c.name c.id
  · intro cls record hr
    rcases layClass_record_cases hr with ⟨-, -, rfl⟩ | hr
    · exact ⟨_, hentry, hlevel⟩
    · obtain ⟨e, he, hl⟩ := h.entry cls record hr
      exact ⟨e, hclose.entries _ _ (hfill.entries _ _ he), hl⟩
  · refine layClass_members (P := fun names members =>
      (r.layClass c).1.bindings.AtLevel 1 names fun x => (members x).isSome) h.registered ?_ hnew
    intro cls record hr
    exact ((h.members cls record hr).grows hfill).grows hclose
  · refine hnew.congr fun x => ?_
    simp [ClassDecl.naming]

theorem layClasses_introduces (cs : List ClassDecl) :
    ∀ (r : Resolution) (done : List ClassDecl), r.Introduces done →
      (layClasses cs r).1.Introduces (cs.reverse ++ done) ∧
        List.Forall₂ (fun names γ => (layClasses cs r).1.bindings.AtLevel 1 names
          fun x => (γ x).isSome) (layClasses cs r).2 (ClassDecl.namings done cs) := by
  induction cs with
  | nil =>
    intro r done h
    exact ⟨h, List.Forall₂.nil⟩
  | cons c cs ih =>
    intro r done h
    obtain ⟨hone, hnames⟩ := layClass_introduces h c
    obtain ⟨hall, hrest⟩ := ih (r.layClass c).1 (c :: done) hone
    simp only [List.reverse_cons, List.append_assoc, List.singleton_append]
    exact ⟨hall, .cons (hnames.grows (extends_layClasses cs _).bindings) hrest⟩

/-! Headers use nothing. -/

/-- The tables of what is filed for occurrences. -/
def filings (r : Resolution) : Std.TreeMap NodeId Use × Std.TreeMap NodeId SendUse :=
  (r.bindings.uses, r.bindings.sends)

theorem filings_placeFields (cls : String) (level : Nat) (fs : List Binder) :
    ∀ (seen : List String) (r : Resolution) (h : Header),
      (placeFields cls level seen fs r h).1.filings = r.filings := by
  induction fs with
  | nil => intro seen r h; rfl
  | cons f fs ih =>
    intro seen r h
    have htype : (r.checkType f.type).filings = r.filings := by
      rw [filings, checkType_bindings, filings]
    simp only [placeFields, ih]
    split
    · exact htype
    · rw [← htype]
      unfold placeField
      simp only
      split
      · rfl
      · split <;> rfl

theorem filings_placeMethods (cls : String) (level : Nat) (ms : List MethodDecl) :
    ∀ (seen : List String) (r : Resolution) (h : Header),
      (placeMethods cls level seen ms r h).1.filings = r.filings := by
  induction ms with
  | nil => intro seen r h; rfl
  | cons m ms ih =>
    intro seen r h
    have hsig : (r.checkSignature m.params m.ret).filings = r.filings := by
      rw [filings, checkSignature_bindings, filings]
    simp only [placeMethods, ih]
    split
    · exact hsig
    · rw [← hsig]
      unfold placeMethod
      simp only
      split
      · rfl
      · split <;> rfl

theorem filings_layClasses (cs : List ClassDecl) (r : Resolution) :
    (layClasses cs r).1.filings = r.filings := by
  induction cs generalizing r with
  | nil => rfl
  | cons c cs ih =>
    have hclose : ∀ (r : Resolution) (h : Header) (parent? : Option String) (offset : Int),
        (r.closeHeader c h parent? offset).filings = r.filings := by
      intro r h parent? offset
      simp only [filings, closeHeader, Bindings.register?]
      split <;> rfl
    have hone : (r.layClass c).1.filings = r.filings := by
      rw [layClass_eq, hclose]
      simp only [fillHeader, placeMembers, filings_placeMethods, filings_placeFields]
      rw [filings, openHeader_bindings, filings]
    exact (ih _).trans hone

end Resolution

open Resolution

theorem Program.laid_introduces (p : Program) :
    p.laid.1.Introduces p.classes.reverse ∧
      List.Forall₂ (fun names γ => p.laid.1.bindings.AtLevel 1 names fun x => (γ x).isSome)
        p.laid.2 (ClassDecl.namings [] p.classes) := by
  have hstart : p.opened.Introduces [] := by
    refine ⟨.cons ((atLevel_empty _ _).congr ?_) .nil, ?_, ?_, ?_⟩
    · simp [Naming.isSome_ofList]
    · intro cls record hr
      simp [opened, enter, Bindings.record?] at hr
    · intro cls
      simp [opened, enter, Bindings.record?]
    · intro cls record hr
      simp [opened, enter, Bindings.record?] at hr
  have h := layClasses_introduces p.classes p.opened [] hstart
  rwa [List.append_nil] at h

/-- All that is filed for a program is explained at one of its places. -/
theorem Program.filed_explained (p : Program) (f : Finding)
    (hf : p.resolve.bindings.Files f) :
    ∃ q ∈ p.places, q.2.Explains p.resolve.bindings q.1 f := by
  obtain ⟨hlaid, hnames⟩ := p.laid_introduces
  have hnone : ∀ f, ¬ p.laid.1.bindings.Files f := by
    have hfilings := filings_layClasses p.classes p.opened
    simp only [filings, opened, enter, Prod.mk.injEq] at hfilings
    intro f hf
    cases f <;> simp [Bindings.Files, laid, opened, enter, hfilings] at hf
  have h₁ : p.laid.1.Charted [.ofList (p.classes.map ClassDecl.named)] [] :=
    ⟨by simpa using hlaid.frames,
      ⟨hlaid.entry, fun cls record hr => (hlaid.members cls record hr).entries⟩,
      fun f hf => absurd hf (hnone f)⟩
  have h₂ := bindClasses_charted p.classes hnames h₁ p.length_laid
  have h₃ := bindExpr_charted (bindDecls_charted.2 p.decls _ _ _ _ h₂) p.body
  obtain ⟨q, hq, hexp⟩ := h₃.filed f hf
  refine ⟨q, ?_, hexp⟩
  simpa only [Program.places, List.nil_append, List.append_assoc] using hq

/-- The use that is filed for an expression fits its place within the frames `Γ`: its level
is the number of frames around the outermost one, and the entry is of the level of the frame
in which the name is found. The code follows exactly one access link for each frame in
between. -/
structure Use.Exact (b : Bindings) (Γ : List Naming) (e : Expr) (u : Use) : Prop where
  level : u.level + 1 = Γ.length
  entry : ∃ entry, b.entry? u.entry = some entry ∧ entry.level + u.distance entry = u.level ∧
    ∀ x, e.name? = some x → Naming.level? Γ x = some entry.level ∧
      e.FollowsLinks b (u.distance entry) entry

theorem Use.Reaches.exact {b : Bindings} {Γ : List Naming} {x : String} {u : Use} {e : Expr}
    (h : u.Reaches b Γ x) (hx : e.name? = some x)
    (hfollows : ∀ entry, b.entry? u.entry = some entry →
      e.FollowsLinks b (u.distance entry) entry) : u.Exact b Γ e := by
  obtain ⟨entry, hentry, hl, hle⟩ := h.entry
  refine ⟨h.level, entry, hentry, Nat.add_sub_cancel' hle, fun y hy => ?_⟩
  obtain rfl : x = y := Option.some.inj (hx.symm.trans hy)
  exact ⟨hl, hfollows entry hentry⟩

theorem Expr.Explains.use_exact {b : Bindings} {Γ : List Naming} {e : Expr} {n : NodeId} {u : Use}
    (h : e.Explains b Γ (.use n u)) (hu : b.uses[n]? = some u) :
    e.id? = some n ∧ u.Exact b Γ e := by
  have hused : ∀ entry, b.entry? u.entry = some entry → b.used? n = some (u, entry) :=
    fun entry he => (used?_eq_some b n u entry).mpr ⟨hu, he⟩
  cases e with
  | name id x pos =>
    obtain ⟨rfl, hr⟩ := h
    exact ⟨rfl, hr.exact rfl fun entry he => followsLinks_name (hused entry he)⟩
  | call id callee args pos =>
    obtain ⟨rfl, hr⟩ := h
    exact ⟨rfl, hr.exact rfl fun entry he => followsLinks_call (hused entry he)⟩
  | new id cls args pos =>
    obtain ⟨rfl, hlevel, record, entry, -, -, he, hzero⟩ := h
    refine ⟨rfl, hlevel, entry, he, ?_, fun x hx => by cases hx⟩
    rw [Use.distance, hzero, Nat.zero_add, Nat.sub_zero]
  | lit | binary | not | cond | print | send => exact h.elim

theorem Expr.Explains.send_exact {b : Bindings} {Γ : List Naming} {e : Expr} {n : NodeId}
    {u : SendUse} (h : e.Explains b Γ (.send n u)) (hu : b.sends[n]? = some u) :
    e.id? = some n ∧ u.receiver.Exact b Γ e ∧ ∃ m, b.entry? u.method = some m := by
  cases e with
  | send id receiver method args pos =>
    obtain ⟨rfl, hr, m, hm⟩ := h
    exact ⟨rfl, hr.exact rfl fun entry he => followsLinks_send hu he hm, m, hm⟩
  | lit | name | binary | not | cond | print | call | new => exact h.elim

/-- Expressions of a program with the same number stand at one place. -/
theorem Program.place_unique (p : Program) (hn : p.ids.Nodup) {q q' : List Naming × Expr}
    (hq : q ∈ p.places) (hq' : q' ∈ p.places) {n : NodeId} (hid : q.2.id? = some n)
    (hid' : q'.2.id? = some n) : q = q' := by
  have hparts := hn.sublist p.ids_of_parts
  rw [← p.map_places, List.filterMap_map] at hparts
  exact eq_of_nodup_filterMap hparts hq hq' hid hid'

/-- Every use that is filed for a program fits the place of an expression with its number,
and where the numbers are distinct there is only one such place. The same holds of the
receivers of method calls. -/
theorem Program.uses_exact (p : Program) :
    (∀ (n : NodeId) (u : Use), p.resolve.bindings.uses[n]? = some u →
      ∃ q ∈ p.places, q.2.id? = some n ∧ u.Exact p.resolve.bindings q.1 q.2) ∧
    (∀ (n : NodeId) (u : SendUse), p.resolve.bindings.sends[n]? = some u →
      ∃ q ∈ p.places, q.2.id? = some n ∧ u.receiver.Exact p.resolve.bindings q.1 q.2 ∧
        ∃ m, p.resolve.bindings.entry? u.method = some m) ∧
    (p.ids.Nodup → ∀ q ∈ p.places, ∀ q' ∈ p.places, ∀ n : NodeId, q.2.id? = some n →
      q'.2.id? = some n → q = q') := by
  refine ⟨fun n u hu => ?_, fun n u hu => ?_, fun hn q hq q' hq' n => p.place_unique hn hq hq'⟩
  · obtain ⟨q, hq, hexp⟩ := p.filed_explained (.use n u) hu
    exact ⟨q, hq, hexp.use_exact hu⟩
  · obtain ⟨q, hq, hexp⟩ := p.filed_explained (.send n u) hu
    exact ⟨q, hq, hexp.send_exact hu⟩

end Classlet
