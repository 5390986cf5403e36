import Classlet.Binding.Occurrence
import Classlet.Proofs.Growth
import Mathlib.Data.List.Forall2

/-!
The names in an expression are bound. The findings of an expression depend on
the scope, the entries and the classes only, none of which change while they are
filed, so an expression is bound by binding its parts one after the other. If no
finding is a fault then every node of the expression is bound: the only
occurrence without a finding is a receiver of a class that does not exist, and
no name in scope refers to such a class.
-/

namespace Classlet

namespace Resolution

/-- The open frames have the names and entries that are listed in `Γ`. -/
def Sees (r : Resolution) (Γ : Nest Entry) : Prop :=
  List.Forall₂ (fun f frame => r.bindings.Lists f.names frame) r.scope.frames Γ

/-- Every registered class has an entry, and so have its members. -/
def Registered (b : Bindings) : Prop :=
  ∀ cls record, b.record? cls = some record →
    (∃ e, b.entry? record.entry = some e) ∧
      ∀ (x : String) (id : EntryId), record.members[x]? = some id → ∃ e, b.entry? id = some e

/-- All classes of the program are registered, and the names in scope refer to
these classes only. -/
structure Ready (r : Resolution) (Γ : Nest Entry) : Prop where
  sees : r.Sees Γ
  known : ∀ frame ∈ Γ, ∀ p ∈ frame, ∀ cls, p.2.type = .ref cls → cls ∈ r.classNames
  records : ∀ cls ∈ r.classNames, ∃ record, r.bindings.record? cls = some record
  registered : Registered r.bindings

theorem Sees.grows {ids : List NodeId} {r r' : Resolution} {Γ : Nest Entry} (h : r.Sees Γ)
    (hg : r.bindings.Grows ids r'.bindings) (hs : r'.scope = r.scope) : r'.Sees Γ := by
  unfold Sees at h ⊢
  rw [hs]
  exact h.imp fun f frame hl => hg.lists hl

theorem Registered.grows {ids : List NodeId} {b b' : Bindings} (h : Registered b)
    (hg : b.Grows ids b') (hr : b'.records = b.records) : Registered b' := by
  intro cls record hrec
  have hrec' : b.record? cls = some record := by simpa only [Bindings.record?, hr] using hrec
  obtain ⟨⟨e, he⟩, hm⟩ := h cls record hrec'
  refine ⟨⟨e, hg.entries _ _ he⟩, ?_⟩
  intro x id hx
  obtain ⟨e, he⟩ := hm x id hx
  exact ⟨e, hg.entries _ _ he⟩

theorem Ready.binds {ids : List NodeId} {r r' : Resolution} {Γ : Nest Entry} (h : r.Ready Γ)
    (hb : Binds ids r r') (hs : r'.scope = r.scope) : r'.Ready Γ where
  sees := h.sees.grows hb.bindings hs
  known := by
    rw [hb.classNames]
    exact h.known
  records := by
    intro cls hc
    rw [hb.classNames] at hc
    obtain ⟨record, hr⟩ := h.records cls hc
    exact ⟨record, hb.bindings.records _ _ hr⟩
  registered := h.registered.grows hb.bindings hb.records

/-- A look-up in the scope finds what the listed frames say. -/
theorem Sees.find? {b : Bindings} {frames : List Frame} {Γ : Nest Entry}
    (h : List.Forall₂ (fun f frame => b.Lists f.names frame) frames Γ) (x : String) :
    match Γ.find? x with
    | none => Scope.find? x frames = none
    | some (e, seen) =>
      ∃ id, Scope.find? x frames = some (id, seen.level) ∧ b.entry? id = some e := by
  induction h with
  | nil => rfl
  | @cons f frame fs outer hf hrest ih =>
    have hx := hf x
    rw [Nest.lookup_eq_cut?] at hx
    cases hc : Nest.cut? x frame with
    | none =>
      have hn : f.names[x]? = none := by simpa [hc] using hx
      simpa only [Nest.find?, hc, Scope.find?, hn] using ih
    | some p =>
      obtain ⟨e, seen⟩ := p
      rw [hc] at hx
      cases hn : f.names[x]? with
      | none => simp [hn] at hx
      | some id =>
        have he : b.entry? id = some e := by simpa [hn] using hx
        simp only [Nest.find?, hc, Scope.find?, hn]
        exact ⟨id, by rw [hrest.length_eq]; rfl, he⟩

theorem use?_eq (s : Scope) (x : String) :
    Finding.use? s x = (Scope.find? x s.frames).map fun p => { entry := p.1, level := s.level } :=
  rfl

/-- The use of a name that is listed. -/
theorem Sees.use? {r : Resolution} {Γ : Nest Entry} (h : r.Sees Γ) (x : String) :
    match Γ.find? x with
    | none => Finding.use? r.scope x = none
    | some (e, _) => ∃ u, Finding.use? r.scope x = some u ∧ u.level = Γ.level ∧
        r.bindings.entry? u.entry = some e := by
  have hl : r.scope.level = Γ.level := by
    unfold Scope.level Nest.level
    rw [h.length_eq]
  have hf := Sees.find? h x
  rw [use?_eq]
  cases hΓ : Γ.find? x with
  | none =>
    rw [hΓ] at hf
    simp only at hf ⊢
    simp [hf]
  | some p =>
    obtain ⟨e, seen⟩ := p
    rw [hΓ] at hf
    obtain ⟨id, hid, he⟩ := hf
    exact ⟨⟨id, r.scope.level⟩, by simp [hid], hl, he⟩

/-! Filing a finding changes the tables of uses and of calls, at one node. -/

/-- The nodes that a finding is filed for. -/
def findingIds : Finding → List NodeId
  | .use n _ | .send n _ => [n]
  | .fault _ => []

theorem binds_record (r : Resolution) (f : Finding) :
    Binds (findingIds f) r (r.record f) := by
  cases f with
  | use n u =>
    refine ⟨⟨rfl, List.prefix_refl _, ?_⟩, rfl, rfl, rfl⟩
    refine ⟨fun _ _ h => h, fun _ _ h => h, ?_, fun _ _ => rfl, fun _ _ => rfl, fun _ _ => rfl,
      fun _ _ => rfl, fun h => ⟨h.bounded, h.distinct⟩⟩
    intro m hm
    have hne : ¬ n = m := fun h => hm (by simp [findingIds, h])
    simp [record, Bindings.fileUse, Std.TreeMap.getElem?_insert, hne]
  | send n u =>
    refine ⟨⟨rfl, List.prefix_refl _, ?_⟩, rfl, rfl, rfl⟩
    refine ⟨fun _ _ h => h, fun _ _ h => h, fun _ _ => rfl, ?_, fun _ _ => rfl, fun _ _ => rfl,
      fun _ _ => rfl, fun h => ⟨h.bounded, h.distinct⟩⟩
    intro m hm
    have hne : ¬ n = m := fun h => hm (by simp [findingIds, h])
    simp [record, Bindings.fileSend, Std.TreeMap.getElem?_insert, hne]
  | fault e =>
    exact ⟨⟨rfl, List.prefix_append _ _, Bindings.Grows.refl _ _⟩, rfl, rfl, rfl⟩

@[simp]
theorem record_scope (r : Resolution) (f : Finding) : (r.record f).scope = r.scope := by
  cases f <;> rfl

@[simp]
theorem record_entries (r : Resolution) (f : Finding) :
    (r.record f).bindings.entries = r.bindings.entries := by
  cases f <;> rfl

@[simp]
theorem record_records (r : Resolution) (f : Finding) :
    (r.record f).bindings.records = r.bindings.records := by
  cases f <;> rfl

@[simp]
theorem foldl_record_scope (fs : List Finding) (r : Resolution) :
    (fs.foldl record r).scope = r.scope := by
  induction fs generalizing r with
  | nil => rfl
  | cons f fs ih => simp [ih]

@[simp]
theorem foldl_record_entries (fs : List Finding) (r : Resolution) :
    (fs.foldl record r).bindings.entries = r.bindings.entries := by
  induction fs generalizing r with
  | nil => rfl
  | cons f fs ih => simp [ih]

@[simp]
theorem foldl_record_records (fs : List Finding) (r : Resolution) :
    (fs.foldl record r).bindings.records = r.bindings.records := by
  induction fs generalizing r with
  | nil => rfl
  | cons f fs ih => simp [ih]

end Resolution

/-- The findings of an expression depend on the scope, the entries and the
classes only. -/
theorem Expr.findings_congr (s : Scope) {b b' : Bindings} (he : b'.entries = b.entries)
    (hr : b'.records = b.records) (e : Expr) : e.findings s b' = e.findings s b := by
  have hentry : ∀ i, b'.entry? i = b.entry? i := by
    intro i
    unfold Bindings.entry?
    rw [he]
  have hrecord : ∀ c, b'.record? c = b.record? c := fun c => by simp only [Bindings.record?, hr]
  have hsend : ∀ id x m pos, Finding.ofSend? s b' id x m pos = Finding.ofSend? s b id x m pos := by
    intro id x m pos
    simp only [Finding.ofSend?, hentry, hrecord]
  have hclass : ∀ id c pos, Finding.ofClass s b' id c pos = Finding.ofClass s b id c pos := by
    intro id c pos
    simp only [Finding.ofClass, hrecord]
  have args : ∀ es : List Expr, (∀ a ∈ es, a.findings s b' = a.findings s b) →
      Expr.findingsOfArgs s b' es = Expr.findingsOfArgs s b es := by
    intro es
    induction es with
    | nil => intro _; rfl
    | cons a es ih =>
      intro h
      simp only [Expr.findingsOfArgs, h a (List.mem_cons_self ..),
        ih fun a ha => h a (List.mem_cons_of_mem _ ha)]
  induction e with
  | lit => rfl
  | name => rfl
  | binary op left right pos ihl ihr => simp only [Expr.findings, ihl, ihr]
  | not operand pos ih => simp only [Expr.findings, ih]
  | cond test yes no pos iht ihy ihn => simp only [Expr.findings, iht, ihy, ihn]
  | print operand pos ih => simp only [Expr.findings, ih]
  | call id callee es pos ih => simp only [Expr.findings, args es ih]
  | send id receiver method es pos ih => simp only [Expr.findings, hsend, args es ih]
  | new id cls es pos ih => simp only [Expr.findings, hclass, args es ih]

namespace Resolution

/-- Binds arguments in order. -/
def bindArgs (r : Resolution) (es : List Expr) : Resolution := es.foldl bindExpr r

theorem foldl_findings (r r' : Resolution) (e : Expr) (hs : r'.scope = r.scope)
    (he : r'.bindings.entries = r.bindings.entries)
    (hr : r'.bindings.records = r.bindings.records) :
    (e.findings r.scope r.bindings).foldl record r' = r'.bindExpr e := by
  rw [bindExpr, hs, Expr.findings_congr _ he hr]

theorem foldl_findingsOfArgs (es : List Expr) (r r' : Resolution) (hs : r'.scope = r.scope)
    (he : r'.bindings.entries = r.bindings.entries)
    (hr : r'.bindings.records = r.bindings.records) :
    (Expr.findingsOfArgs r.scope r.bindings es).foldl record r' = r'.bindArgs es := by
  induction es generalizing r' with
  | nil => rfl
  | cons e es ih =>
    simp only [Expr.findingsOfArgs, List.foldl_append, foldl_findings r r' e hs he hr]
    rw [ih (r'.bindExpr e) (by simp [bindExpr, hs]) (by simp [bindExpr, he])
      (by simp [bindExpr, hr])]
    rfl

theorem bindExpr_binary (r : Resolution) (op : BinOp) (left right : Expr) (pos : Position) :
    r.bindExpr (.binary op left right pos) = (r.bindExpr left).bindExpr right := by
  rw [← foldl_findings r (r.bindExpr left) right (by simp [bindExpr]) (by simp [bindExpr])
    (by simp [bindExpr])]
  simp only [bindExpr, Expr.findings, List.foldl_append]

theorem bindExpr_cond (r : Resolution) (test yes no : Expr) (pos : Position) :
    r.bindExpr (.cond test yes no pos) = ((r.bindExpr test).bindExpr yes).bindExpr no := by
  rw [← foldl_findings r ((r.bindExpr test).bindExpr yes) no (by simp [bindExpr])
      (by simp [bindExpr]) (by simp [bindExpr]),
    ← foldl_findings r (r.bindExpr test) yes (by simp [bindExpr]) (by simp [bindExpr])
      (by simp [bindExpr])]
  simp only [bindExpr, Expr.findings, List.foldl_append]

theorem bindExpr_call (r : Resolution) (id : NodeId) (callee : String) (args : List Expr)
    (pos : Position) : r.bindExpr (.call id callee args pos) =
      (r.record (.ofName r.scope id .function callee pos)).bindArgs args := by
  rw [← foldl_findingsOfArgs args r _ (by simp) (by simp) (by simp)]
  rfl

theorem bindExpr_send (r : Resolution) (id : NodeId) (receiver method : String)
    (args : List Expr) (pos : Position) : r.bindExpr (.send id receiver method args pos) =
      ((Finding.ofSend? r.scope r.bindings id receiver method pos).toList.foldl
        record r).bindArgs args := by
  rw [← foldl_findingsOfArgs args r _ (foldl_record_scope _ r) (foldl_record_entries _ r)
    (foldl_record_records _ r)]
  simp only [bindExpr, Expr.findings, List.foldl_append]

theorem bindExpr_new (r : Resolution) (id : NodeId) (cls : String) (args : List Expr)
    (pos : Position) : r.bindExpr (.new id cls args pos) =
      (r.record (.ofClass r.scope r.bindings id cls pos)).bindArgs args := by
  rw [← foldl_findingsOfArgs args r _ (by simp) (by simp) (by simp)]
  rfl

@[simp]
theorem bindExpr_scope (r : Resolution) (e : Expr) : (r.bindExpr e).scope = r.scope := by
  simp [bindExpr]

/-- The nodes filed by an occurrence are its own. -/
theorem binds_ofName (r : Resolution) (id : NodeId) (kind : NameKind) (x : String)
    (pos : Position) : Binds [id] r (r.record (.ofName r.scope id kind x pos)) := by
  refine (binds_record r _).mono ?_
  unfold Finding.ofName
  split <;> simp [findingIds]

theorem binds_ofClass (r : Resolution) (id : NodeId) (cls : String) (pos : Position) :
    Binds [id] r (r.record (.ofClass r.scope r.bindings id cls pos)) := by
  refine (binds_record r _).mono ?_
  unfold Finding.ofClass
  split <;> simp [findingIds]

theorem binds_ofSend (r : Resolution) (id : NodeId) (receiver method : String) (pos : Position) :
    Binds [id] r ((Finding.ofSend? r.scope r.bindings id receiver method pos).toList.foldl
      record r) := by
  cases hf : Finding.ofSend? r.scope r.bindings id receiver method pos with
  | none => exact Binds.refl _ r
  | some f =>
    refine (binds_record r f).mono ?_
    unfold Finding.ofSend? at hf
    split at hf
    · cases hf
      simp [findingIds]
    · split at hf
      · cases hf
        simp [findingIds]
      · simp only [Option.map_eq_some_iff] at hf
        obtain ⟨record, -, rfl⟩ := hf
        split <;> simp [findingIds]

theorem binds_bindArgs (es : List Expr) (h : ∀ a ∈ es, ∀ r, Binds a.ids r (r.bindExpr a))
    (r : Resolution) : Binds (Expr.idsOfArgs es) r (r.bindArgs es) := by
  induction es generalizing r with
  | nil => exact Binds.refl _ r
  | cons e es ih =>
    have he : Binds e.ids r (r.bindExpr e) := h e (List.mem_cons_self ..) r
    have hes := ih (fun a ha => h a (List.mem_cons_of_mem _ ha)) (r.bindExpr e)
    exact he.append hes

/-- Binding an expression files its own nodes only. -/
theorem binds_bindExpr (e : Expr) (r : Resolution) : Binds e.ids r (r.bindExpr e) := by
  induction e generalizing r with
  | lit value pos => exact Binds.refl _ r
  | name id x pos => exact binds_ofName r id .variable x pos
  | binary op left right pos ihl ihr =>
    rw [bindExpr_binary]
    exact (ihl r).append (ihr _)
  | not operand pos ih => exact ih r
  | cond test yes no pos iht ihy ihn =>
    rw [bindExpr_cond]
    exact ((iht r).append (ihy _)).append (ihn _)
  | print operand pos ih => exact ih r
  | call id callee args pos ih =>
    rw [bindExpr_call]
    exact (binds_ofName r id .function callee pos).append (binds_bindArgs args ih _)
  | send id receiver method args pos ih =>
    rw [bindExpr_send]
    exact (binds_ofSend r id receiver method pos).append (binds_bindArgs args ih _)
  | new id cls args pos ih =>
    rw [bindExpr_new]
    exact (binds_ofClass r id cls pos).append (binds_bindArgs args ih _)

/-! An occurrence that is no fault is bound. -/

theorem record_fault_errors (r : Resolution) (e : BindingError) :
    (r.record (.fault e)).errors ≠ [] := by
  simp [record]

theorem usesAt_fileUse (r : Resolution) (id : NodeId) (u : Use) (e : Entry)
    (he : r.bindings.entry? u.entry = some e) :
    (r.record (.use id u)).bindings.UsesAt id u.level e := by
  refine ⟨u, ?_, rfl⟩
  rw [Bindings.used?_eq_some]
  exact ⟨by simp [record, Bindings.fileUse], he⟩

theorem ofName_bound {r : Resolution} {Γ : Nest Entry} (h : r.Ready Γ) (id : NodeId)
    (kind : NameKind) (x : String) (pos : Position)
    (he : (r.record (.ofName r.scope id kind x pos)).errors = []) :
    ∃ e seen, Γ.find? x = some (e, seen) ∧
      (r.record (.ofName r.scope id kind x pos)).bindings.UsesAt id Γ.level e := by
  have hu := h.sees.use? x
  unfold Finding.ofName at he ⊢
  cases hf : Γ.find? x with
  | none =>
    rw [hf] at hu
    simp only at hu
    rw [hu] at he
    exact absurd he (record_fault_errors _ _)
  | some p =>
    obtain ⟨e, seen⟩ := p
    rw [hf] at hu
    obtain ⟨u, hu, hl, hent⟩ := hu
    rw [hu]
    refine ⟨e, seen, rfl, ?_⟩
    rw [← hl]
    exact usesAt_fileUse r id u e hent

theorem ofClass_bound {r : Resolution} {Γ : Nest Entry} (h : r.Ready Γ) (id : NodeId)
    (cls : String) (pos : Position)
    (he : (r.record (.ofClass r.scope r.bindings id cls pos)).errors = []) :
    ∃ e, (r.record (.ofClass r.scope r.bindings id cls pos)).bindings.registered? cls = some e ∧
      (r.record (.ofClass r.scope r.bindings id cls pos)).bindings.UsesAt id Γ.level e := by
  have hg := (binds_ofClass r id cls pos).bindings
  have hl : r.scope.level = Γ.level := by
    unfold Scope.level Nest.level
    rw [h.sees.length_eq]
  unfold Finding.ofClass at he hg ⊢
  cases hr : r.bindings.record? cls with
  | none =>
    rw [hr] at he
    exact absurd he (record_fault_errors _ _)
  | some record =>
    rw [hr] at hg
    obtain ⟨e, hent⟩ := (h.registered cls record hr).1
    refine ⟨e, hg.registered? ?_, ?_⟩
    · rw [Bindings.registered_eq_some]
      exact ⟨record, hr, hent⟩
    · rw [← hl]
      exact usesAt_fileUse r id ⟨record.entry, r.scope.level⟩ e hent

theorem ofSend_bound {r : Resolution} {Γ : Nest Entry} (h : r.Ready Γ) (id : NodeId)
    (receiver method : String) (pos : Position)
    (he : ((Finding.ofSend? r.scope r.bindings id receiver method pos).toList.foldl
      record r).errors = []) :
    ∃ e seen cls m, Γ.find? receiver = some (e, seen) ∧ e.type = .ref cls ∧
      ((Finding.ofSend? r.scope r.bindings id receiver method pos).toList.foldl
        record r).bindings.member? cls method = some m ∧
      ((Finding.ofSend? r.scope r.bindings id receiver method pos).toList.foldl
        record r).bindings.SendsAt id Γ.level e m := by
  have hg := (binds_ofSend r id receiver method pos).bindings
  have hu := h.sees.use? receiver
  unfold Finding.ofSend? at he hg ⊢
  cases hf : Γ.find? receiver with
  | none =>
    rw [hf] at hu
    simp only at hu
    rw [hu] at he
    exact absurd he (record_fault_errors _ _)
  | some p =>
    obtain ⟨e, seen⟩ := p
    rw [hf] at hu
    obtain ⟨u, hu, hl, hent⟩ := hu
    simp only [hu, hent, Option.bind_some] at he hg ⊢
    cases ht : e.type.referent? with
    | none =>
      simp only [ht] at he
      exact absurd he (record_fault_errors _ _)
    | some cls =>
      have htype : e.type = .ref cls := by
        cases hty : e.type <;> simp_all [Ty.referent?]
      -- The class is one of the program, so the occurrence does have a finding.
      obtain ⟨frame, hframe, hmem⟩ := Nest.mem_of_find? hf
      have hcls : cls ∈ r.classNames := h.known frame hframe _ hmem cls htype
      obtain ⟨record, hr⟩ := h.records cls hcls
      simp only [ht, hr, Option.map_some] at he hg ⊢
      cases hm : record.members[method]? with
      | none =>
        simp only [hm] at he
        exact absurd he (record_fault_errors _ _)
      | some mid =>
        simp only [hm] at hg ⊢
        obtain ⟨m, hment⟩ := (h.registered cls record hr).2 method mid hm
        refine ⟨e, seen, cls, m, rfl, htype, hg.member? ?_, ?_⟩
        · rw [Bindings.member?_eq_some]
          exact ⟨record, mid, hr, hm, hment⟩
        · exact ⟨⟨u, mid⟩, by simp [Resolution.record, Bindings.fileSend], hl, hent, hment⟩

theorem bindArgs_bound (es : List Expr) {Γ : Nest Entry}
    (ih : ∀ a ∈ es, ∀ r : Resolution, r.Ready Γ → a.ids.Nodup → (r.bindExpr a).errors = [] →
      a.Bound (r.bindExpr a).bindings Γ)
    (r : Resolution) (h : r.Ready Γ) (hn : (Expr.idsOfArgs es).Nodup)
    (he : (r.bindArgs es).errors = []) : Expr.ArgsBound (r.bindArgs es).bindings Γ es := by
  induction es generalizing r with
  | nil => trivial
  | cons e es ihs =>
    have hbe : Binds e.ids r (r.bindExpr e) := binds_bindExpr e r
    have hbs : Binds (Expr.idsOfArgs es) (r.bindExpr e) (r.bindArgs (e :: es)) :=
      binds_bindArgs es (fun a _ => binds_bindExpr a) _
    simp only [Expr.idsOfArgs, List.nodup_append] at hn
    obtain ⟨hne, hns, hdis⟩ := hn
    have hfirst : e.Bound (r.bindExpr e).bindings Γ :=
      ih e (List.mem_cons_self ..) r h hne (hbs.clean he)
    refine ⟨hfirst.mono hbs.bindings fun n hn hn' => hdis n hn n hn' rfl, ?_⟩
    exact ihs (fun a ha => ih a (List.mem_cons_of_mem _ ha)) _
      (h.binds hbe (bindExpr_scope r e)) hns he

/-- If nothing is wrong with the names in an expression then all its nodes are
bound. -/
theorem bindExpr_bound (e : Expr) {Γ : Nest Entry} (r : Resolution) (h : r.Ready Γ)
    (hn : e.ids.Nodup) (he : (r.bindExpr e).errors = []) :
    e.Bound (r.bindExpr e).bindings Γ := by
  induction e generalizing r with
  | lit value pos => trivial
  | name id x pos => exact ofName_bound h id .variable x pos he
  | binary op left right pos ihl ihr =>
    rw [bindExpr_binary] at he ⊢
    simp only [Expr.ids, List.nodup_append] at hn
    obtain ⟨hnl, hnr, hdis⟩ := hn
    have hbl := binds_bindExpr left r
    have hbr := binds_bindExpr right (r.bindExpr left)
    refine ⟨(ihl r h hnl (hbr.clean he)).mono hbr.bindings fun n hn hn' => hdis n hn n hn' rfl, ?_⟩
    exact ihr _ (h.binds hbl (bindExpr_scope r left)) hnr he
  | not operand pos ih => exact ih r h hn he
  | cond test yes no pos iht ihy ihn =>
    rw [bindExpr_cond] at he ⊢
    simp only [Expr.ids, List.nodup_append, List.mem_append] at hn
    obtain ⟨⟨hnt, hny, hty⟩, hnn, hdis⟩ := hn
    have hbt := binds_bindExpr test r
    have hby := binds_bindExpr yes (r.bindExpr test)
    have hbn := binds_bindExpr no ((r.bindExpr test).bindExpr yes)
    have hy := h.binds hbt (bindExpr_scope r test)
    have hn' := hy.binds hby (bindExpr_scope _ yes)
    have het := iht r h hnt (hby.clean (hbn.clean he))
    have hey := ihy _ hy hny (hbn.clean he)
    refine ⟨?_, hey.mono hbn.bindings fun n hn hn' => hdis n (Or.inr hn) n hn' rfl,
      ihn _ hn' hnn he⟩
    refine het.mono (hby.append hbn).bindings fun n hn hn' => ?_
    rcases List.mem_append.mp hn' with hn' | hn'
    · exact hty n hn n hn' rfl
    · exact hdis n (Or.inl hn) n hn' rfl
  | print operand pos ih => exact ih r h hn he
  | call id callee args pos ih =>
    rw [bindExpr_call] at he ⊢
    simp only [Expr.ids, List.nodup_cons] at hn
    have hb := binds_ofName r id .function callee pos
    have hbs := binds_bindArgs args (fun a _ => binds_bindExpr a)
      (r.record (.ofName r.scope id .function callee pos))
    obtain ⟨e, seen, hf, hu⟩ := ofName_bound h id .function callee pos (hbs.clean he)
    refine ⟨⟨e, seen, hf, hbs.bindings.usesAt hu hn.1⟩, ?_⟩
    exact bindArgs_bound args (fun a ha r' hr' => ih a ha r' hr') _
      (h.binds hb (record_scope _ _)) hn.2 he
  | send id receiver method args pos ih =>
    rw [bindExpr_send] at he ⊢
    simp only [Expr.ids, List.nodup_cons] at hn
    have hb := binds_ofSend r id receiver method pos
    have hbs := binds_bindArgs args (fun a _ => binds_bindExpr a)
      ((Finding.ofSend? r.scope r.bindings id receiver method pos).toList.foldl record r)
    obtain ⟨e, seen, cls, m, hf, ht, hm, hs⟩ :=
      ofSend_bound h id receiver method pos (hbs.clean he)
    refine ⟨⟨e, seen, cls, m, hf, ht, hbs.bindings.member? hm, hbs.bindings.sendsAt hs hn.1⟩, ?_⟩
    exact bindArgs_bound args (fun a ha r' hr' => ih a ha r' hr') _
      (h.binds hb (foldl_record_scope _ _)) hn.2 he
  | new id cls args pos ih =>
    rw [bindExpr_new] at he ⊢
    simp only [Expr.ids, List.nodup_cons] at hn
    have hb := binds_ofClass r id cls pos
    have hbs := binds_bindArgs args (fun a _ => binds_bindExpr a)
      (r.record (.ofClass r.scope r.bindings id cls pos))
    obtain ⟨e, hc, hu⟩ := ofClass_bound h id cls pos (hbs.clean he)
    refine ⟨⟨e, hbs.bindings.registered? hc, hbs.bindings.usesAt hu hn.1⟩, ?_⟩
    exact bindArgs_bound args (fun a ha r' hr' => ih a ha r' hr') _
      (h.binds hb (record_scope _ _)) hn.2 he

end Resolution

end Classlet
