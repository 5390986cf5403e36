import Classlet.Proofs.Operators

/-!
The code of expressions. Run where the machine has the frames and the store of an
evaluation, the code of an expression puts the word of its value on the stack and
comes to its end. Here are the expressions that call nothing and make nothing, and
the arguments of the others.
-/

namespace Classlet

open Code

/-- The listing is that of a program without a fault, for a memory whose addresses
are words. -/
structure Setting.Valid (S : Setting) (t : Ty) : Prop where
  ids : S.program.ids.Nodup
  resolved : S.program.Resolved S.context.bindings S.context.ancestry
  typed : S.context.ProgramTyped S.program t
  listing : ListingOf S.program S.target S.listing
  size : S.size < Word.limit

namespace Setting

/-- An expression of the program, at a place of the text around which are the frames of an
environment. -/
def Placed (S : Setting) (env : Env) (start : Nat) (e : Expr) : Prop :=
  ∃ Γ, ScopeFits S.program Γ env ∧ e.sites S.target Γ start ⊆ S.sites

def PlacedArgs (S : Setting) (env : Env) (start : Nat) (args : List Expr) : Prop :=
  ∃ Γ, ScopeFits S.program Γ env ∧ Expr.sitesOfArgs S.target Γ args start ⊆ S.sites

def PlacedBackwards (S : Setting) (env : Env) (start : Nat) (args : List Expr) : Prop :=
  ∃ Γ, ScopeFits S.program Γ env ∧ Expr.sitesBackwards S.target Γ args start ⊆ S.sites

section

variable {S : Setting} {env : Env} {start : Nat}

theorem Placed.site {e : Expr} (h : S.Placed env start e) :
    ∃ Γ, ScopeFits S.program Γ env ∧ ⟨Γ, start, e⟩ ∈ S.sites := by
  obtain ⟨Γ, hΓ, hsites⟩ := h
  exact ⟨Γ, hΓ, hsites (e.mem_sites_self S.target Γ start)⟩

theorem Placed.mem_parts {e : Expr} (h : S.Placed env start e) : e ∈ S.program.parts := by
  obtain ⟨Γ, -, hsite⟩ := h.site
  exact Program.mem_parts hsite

theorem Placed.operands {op : BinOp} {left right : Expr} {pos : Position}
    (h : S.Placed env start (.binary op left right pos)) (hop : op ≠ .greaterEqual) :
    S.Placed env start left ∧ S.Placed env (start + left.width S.target) right := by
  obtain ⟨Γ, hΓ, hsites⟩ := h
  rw [Expr.sites, if_neg hop, List.append_subset, List.append_subset] at hsites
  exact ⟨⟨Γ, hΓ, hsites.1.1⟩, Γ, hΓ, hsites.1.2⟩

theorem Placed.operandsBackwards {left right : Expr} {pos : Position}
    (h : S.Placed env start (.binary .greaterEqual left right pos)) :
    S.Placed env start right ∧ S.Placed env (start + right.width S.target) left := by
  obtain ⟨Γ, hΓ, hsites⟩ := h
  rw [Expr.sites, if_pos rfl, List.append_subset, List.append_subset] at hsites
  exact ⟨⟨Γ, hΓ, hsites.1.1⟩, Γ, hΓ, hsites.1.2⟩

theorem Placed.not {operand : Expr} {pos : Position} (h : S.Placed env start (.not operand pos)) :
    S.Placed env start operand := by
  obtain ⟨Γ, hΓ, hsites⟩ := h
  rw [Expr.sites, List.append_subset] at hsites
  exact ⟨Γ, hΓ, hsites.1⟩

theorem Placed.print {operand : Expr} {pos : Position}
    (h : S.Placed env start (.print operand pos)) : S.Placed env start operand := by
  obtain ⟨Γ, hΓ, hsites⟩ := h
  rw [Expr.sites, List.append_subset] at hsites
  exact ⟨Γ, hΓ, hsites.1⟩

theorem Placed.cond {test yes no : Expr} {pos : Position}
    (h : S.Placed env start (.cond test yes no pos)) :
    S.Placed env start test ∧ S.Placed env (start + test.width S.target + 4) no ∧
      S.Placed env (start + test.width S.target + 4 + no.width S.target + 2) yes := by
  obtain ⟨Γ, hΓ, hsites⟩ := h
  rw [Expr.sites, List.append_subset, List.append_subset, List.append_subset] at hsites
  exact ⟨⟨Γ, hΓ, hsites.1.1.1⟩, ⟨Γ, hΓ, hsites.1.1.2⟩, Γ, hΓ, hsites.1.2⟩

theorem Placed.call {id : NodeId} {callee : String} {args : List Expr} {pos : Position}
    (h : S.Placed env start (.call id callee args pos)) :
    S.PlacedBackwards env (start + 1) args := by
  obtain ⟨Γ, hΓ, hsites⟩ := h
  rw [Expr.sites, List.append_subset] at hsites
  exact ⟨Γ, hΓ, hsites.1⟩

theorem Placed.send {id : NodeId} {receiver method : String} {args : List Expr} {pos : Position}
    (h : S.Placed env start (.send id receiver method args pos)) :
    S.PlacedBackwards env (start + 1) args := by
  obtain ⟨Γ, hΓ, hsites⟩ := h
  rw [Expr.sites, List.append_subset] at hsites
  exact ⟨Γ, hΓ, hsites.1⟩

theorem Placed.new {id : NodeId} {cls : String} {args : List Expr} {pos : Position}
    (h : S.Placed env start (.new id cls args pos)) : S.PlacedArgs env start args := by
  obtain ⟨Γ, hΓ, hsites⟩ := h
  rw [Expr.sites, List.append_subset] at hsites
  exact ⟨Γ, hΓ, hsites.1⟩

theorem PlacedArgs.cons {e : Expr} {es : List Expr} (h : S.PlacedArgs env start (e :: es)) :
    S.Placed env start e ∧ S.PlacedArgs env (start + e.width S.target) es := by
  obtain ⟨Γ, hΓ, hsites⟩ := h
  rw [Expr.sitesOfArgs, List.append_subset] at hsites
  exact ⟨⟨Γ, hΓ, hsites.1⟩, Γ, hΓ, hsites.2⟩

theorem PlacedBackwards.cons {e : Expr} {es : List Expr}
    (h : S.PlacedBackwards env start (e :: es)) : S.PlacedBackwards env start es ∧
      S.Placed env (start + Expr.widthOfArgs S.target es) e := by
  obtain ⟨Γ, hΓ, hsites⟩ := h
  rw [Expr.sitesBackwards, List.append_subset] at hsites
  exact ⟨⟨Γ, hΓ, hsites.1⟩, Γ, hΓ, hsites.2⟩

end

end Setting

/-- An expression of the program, with its type and its code. -/
structure Coded (S : Setting) (Γ : Nest Entry) (env : Env) (start : Nat) (e : Expr) (ty : Ty)
    (lines : List Line) : Prop where
  bound : e.Bound S.context.bindings Γ
  typed : S.context.HasType e ty
  code : CodeOf S.target e lines
  placed : S.Placed env start e

/-- The machine has put the word of a value on the stack. -/
def Pushes (S : Setting) (s : Snapshot) (addresses : List Nat) (stop : Nat) (v : Value) (st : Store)
    (s' : Snapshot) : Prop :=
  s'.ip = stop ∧ ∃ addresses' w, Advanced S s addresses st s' addresses' ∧
    s'.stack = w :: s.stack ∧ v.Kept addresses' w

/-- The same with more on the way: what the evaluation is known to give. -/
def Evaluates (S : Setting) (s : Snapshot) (addresses : List Nat) (stop : Nat)
    (objects : List Object) (ty : Ty) (v : Value) (st : Store) (s' : Snapshot) : Prop :=
  (v.OfType S.context.ancestry st.objects ty ∧ Sound S.program S.context objects st) ∧
    Pushes S s addresses stop v st s'

section

variable (S : Setting) (depth : Nat) (call : Closure → List Value → Eval Value)

/-- The machine follows the evaluation of an expression. -/
def ExprFollows (e : Expr) : Prop :=
  ∀ Γ ty env st s addresses frames lowest lines, Coded S Γ env s.ip e ty lines →
    S.listing.Has s.ip lines → Ready S st s addresses frames lowest Γ env →
    Follows S depth ((e.eval S.classes call env).run st) s
      (Pushes S s addresses (s.ip + Line.sizes lines))

/-- The machine has returned from a call, with the word of the result in the place
of the arguments and the calls that had not returned before it. -/
def Returns (s : Snapshot) (addresses : List Nat) (back : Nat) (fp : Cell) (rest : List Cell)
    (calls : List Activation) (v : Value) (st : Store) (s' : Snapshot) : Prop :=
  s'.ip = back ∧ s'.fp = fp ∧ s'.calls = calls ∧ s.marks <+: s'.marks ∧ ∃ addresses' w,
    s'.stack = w :: rest ∧ s.heap <+: s'.heap ∧ addresses <+: addresses' ∧
    S.StoreAt st s' addresses' ∧ v.Kept addresses' w

/-- The machine follows a way to call functions, from the beginning of their code
to the place that they return to. -/
def CallFollows : Prop :=
  ∀ (f : Closure) (args : List Value) (Γ : Nest Entry) (ret : WrittenType) (st : Store)
    (s : Snapshot) (addresses : List Nat) (frames : Nat → Place) (lowest : Nat) (l : Label)
    (ws : List Cell) (a : Activation) (calls : List Activation),
    S.Routine l f.env f.params f.decls f.body a.stop →
    RoutineBound S.context.bindings Γ f.params f.decls f.body →
    S.context.DeclsTyped f.decls → S.context.BodyTyped ret f.body →
    EnvTyped S.program S.context st.objects Γ f.env →
    StoreTyped S.program S.context st.objects →
    ValuesTyped S.context st.objects args (f.params.map fun q => q.type.lower) →
    EnvAt S s addresses frames lowest Γ f.env → S.StoreAt st s addresses →
    S.ClassesAt { s with stack := a.rest } → s.calls = a :: calls →
    s.ip = S.listing.position l → s.ra = Int64.ofNat a.back →
    s.stack = .place (frames Γ.level) :: (ws ++ a.fp :: a.rest) →
    List.Forall₂ (Value.Kept addresses) args ws →
    Follows S depth ((call f args).run st) s (Returns S s addresses a.back a.fp a.rest calls)

end

/-- Where the parts of a conditional are. -/
theorem has_conditional {L : Listing} (hn : L.labels.Nodup) {pos : Nat} {yes done : Label}
    {a b c : List Line} (h : L.Has pos (conditionalLines yes done a b c)) :
    L.Has pos a ∧ L.Has (pos + Line.sizes a) (instrs [.push 1, .jump .equal yes]) ∧
      L.Has (pos + Line.sizes a + 4) c ∧
      L.Has (pos + Line.sizes a + 4 + Line.sizes c) [.instr (.jump .always done)] ∧
      L.Has (L.position yes) b ∧
      L.position yes + Line.sizes b = pos + Line.sizes (conditionalLines yes done a b c) ∧
      L.position done = pos + Line.sizes (conditionalLines yes done a b c) := by
  have hsize : Line.sizes (conditionalLines yes done a b c) =
      Line.sizes a + 4 + Line.sizes c + 2 + Line.sizes b := by
    simp only [conditionalLines, Line.sizes_append]
    rfl
  have hdone := h.right.position hn
  have hyes := h.left.left.right.position hn
  have hb := h.left.right
  have hskip := h.left.left.left.right
  have hno := h.left.left.left.left.right
  have hjump := h.left.left.left.left.left.right
  have hlabel : Line.sizes [.label yes] = 0 := rfl
  have hpush : Line.sizes (instrs [.push 1, .jump .equal yes]) = 4 := rfl
  have hgoto : Line.sizes (instrs [.jump .always done]) = 2 := rfl
  simp only [Line.sizes_append, hlabel, hpush, hgoto, ← Nat.add_assoc, Nat.add_zero] at *
  refine ⟨h.left.left.left.left.left.left, hjump, hno, hskip, ?_, ?_, ?_⟩
  · rw [hyes]
    exact hb
  · rw [hyes, hsize]
    omega
  · rw [hdone, hsize]
    omega

/-- The jump of a conditional. -/
theorem steps_test {L : Listing} {M : Nat} {K : Route} {s : Snapshot} {yes : Label}
    (hc : L.Has s.ip (instrs [.push 1, .jump .equal yes])) {rest : List Cell} {b : Bool}
    (hs : s.stack = .word (if b then 1 else 0) :: rest) :
    Steps L M K 2 s { s with ip := if b then L.position yes else s.ip + 4, stack := rest } := by
  have hjump : Does L M K (.jump .equal yes)
      { s with ip := s.ip + 2, stack := .word 1 :: s.stack }
      { s with ip := if (if b then 1 else 0 : Word) = 1 then L.position yes else s.ip + 4
               stack := rest } :=
    .jumpEqual yes (by rw [hs]) rfl rfl
  have hiff : ((if b then 1 else 0 : Word) = 1) = (b = true) := by
    cases b <;> decide
  simp only [hiff] at hjump
  exact .cons (Listing.Has.left (a := [.instr (.push 1)]) hc) (.push 1)
    (.single (Listing.Has.right (a := [.instr (.push 1)]) hc) hjump)

section

variable {S : Setting} {depth : Nat} {call : Closure → List Value → Eval Value} {Γ : Nest Entry}
  {env : Env} {st : Store} {s : Snapshot} {addresses : List Nat} {frames : Nat → Place}
  {lowest : Nat}

/-- A value whose word is put on the stack by code that changes nothing else. -/
theorem Ready.pushes (hr : Ready S st s addresses frames lowest Γ env) {s' : Snapshot}
    {addresses' : List Nat} {st' : Store} (hadv : Advanced S s addresses st' s' addresses')
    {stop : Nat} {ra : Word} {tm w : Cell} {v : Value} (hv : v.Kept addresses' w) :
    Pushes S s addresses stop v st' { s' with ip := stop, stack := w :: s.stack, ra, tm } :=
  ⟨rfl, addresses', w, hadv.settle hr.store.classes (List.suffix_cons _ _), rfl, hv⟩

theorem Ready.settled (hr : Ready S st s addresses frames lowest Γ env) {s' : Snapshot}
    {addresses' : List Nat} {st' : Store} (hadv : Advanced S s addresses st' s' addresses')
    {stop : Nat} {v : Value} {st'' : Store} {s'' : Snapshot}
    (h : Settles s' addresses' stop s.stack st' v st'' s'') :
    Pushes S s addresses stop v st'' s'' := by
  obtain ⟨rfl, w, rfl, hw⟩ := h
  exact hr.pushes hadv hw

/-- One more word on the stack changes nothing. -/
theorem Ready.pushed (hr : Ready S st s addresses frames lowest Γ env) (ip : Nat) (w : Cell) :
    Ready S st { s with ip, stack := w :: s.stack } addresses frames lowest Γ env :=
  hr.advance (.refl hr.storeTyped)
    ((Advanced.refl hr.store).settle hr.store.classes (List.suffix_cons _ _))

/-- Access links lead to the frame of a name. -/
theorem Ready.climbs (hr : Ready S st s addresses frames lowest Γ env) {x : String}
    {e : Entry} {seen : Nest Entry} (hx : Γ.find? x = some (e, seen)) (he : e.level = seen.level)
    (hlow : lowest ≤ e.level) {u : Use} (hu : u.level = Γ.level) :
    s.Climbs (u.distance e) (frames Γ.level) (frames e.level) := by
  obtain ⟨hpos, hle⟩ := Nest.length_of_find? hx
  have hlevel : e.level ≤ Γ.level := by
    rw [he]
    exact Nat.sub_le_sub_right hle 1
  have hΓ : Γ.level < Γ.length := Nat.sub_lt (by omega) Nat.one_pos
  have hback : Γ.level - (Γ.level - e.level) = e.level := by omega
  rw [Use.distance, hu]
  have hclimbs : s.Climbs (Γ.level - e.level) (frames Γ.level)
      (frames (Γ.level - (Γ.level - e.level))) :=
    Snapshot.climbs_of_links _ _ (Nat.sub_le _ _)
      (fun n hn hn' => hr.env.links n (by omega) (by omega))
  rw [hback] at hclimbs
  exact hclimbs

/-- The address of the frame of a name, found by access links. -/
theorem Ready.straight_frame (hr : Ready S st s addresses frames lowest Γ env) {x : String}
    {e : Entry} {seen : Nest Entry} (hx : Γ.find? x = some (e, seen)) (he : e.level = seen.level)
    (hlow : lowest ≤ e.level) {u : Use} (hu : u.level = Γ.level) :
    Straight S.listing S.size S.route (pushFrame (u.distance e)) s
      { s with ip := s.ip + (1 + u.distance e)
               stack := .place (frames e.level) :: s.stack } :=
  straight_pushFrame hr.fp (hr.climbs hx he hlow hu)

theorem Pushes.of_advanced {s₁ s' : Snapshot} {addresses₁ : List Nat} {st₁ st' : Store} {stop : Nat}
    {v : Value} (h : Pushes S s₁ addresses₁ stop v st' s')
    (hadv : Advanced S s addresses st₁ s₁ addresses₁) (hstack : s₁.stack = s.stack) :
    Pushes S s addresses stop v st' s' := by
  obtain ⟨hip, addresses', w, hadv', hstack', hv⟩ := h
  exact ⟨hip, addresses', w, hadv.trans hadv', by rw [hstack', hstack], hv⟩

theorem follows_lit (value : Literal) (pos : Position) :
    ExprFollows S depth call (.lit value pos) := by
  intro Γ ty env st s addresses frames lowest lines hc hhas hr
  obtain ⟨-, -, hcode, -⟩ := hc
  cases hcode
  refine .ok (.single hhas (.push _)) (hr.pushes (.refl hr.store) ?_)
  cases value <;> rfl

theorem follows_name (id : NodeId) (x : String) (pos : Position) :
    ExprFollows S depth call (.name id x pos) := by
  intro Γ ty env st s addresses frames lowest lines hc hhas hr
  obtain ⟨⟨e, seen, hx, u, hu, hlevel⟩, -, hcode, -⟩ := hc
  cases hcode with
  | name hu' =>
    obtain ⟨rfl, rfl⟩ : _ ∧ _ := by simpa using hu.symm.trans hu'
    obtain ⟨d, seen', hfind, hat, -⟩ := hr.env.items.find? hx
    simp only [Expr.eval, hfind]
    cases d with
    | function params decls body => exact trivial
    | method self => exact trivial
    | cls => exact trivial
    | value v =>
      obtain ⟨he, hlow, w, hv, hw⟩ := hat
      have hload := (hr.straight_frame hx he hlow hlevel).append (straight_loadAt rfl hw)
      have hip := hload.ip
      refine .ok (hload.steps hhas) ?_
      rw [← hip]
      exact hr.pushes (.refl hr.store) hv

variable {t : Ty} (hS : S.Valid t) (hsafe : InvokeSafe S.program S.context call)

include hS hsafe

theorem ExprFollows.evaluates {e : Expr} (h : ExprFollows S depth call e) {ty : Ty}
    {lines : List Line} (hc : Coded S Γ env s.ip e ty lines) (hhas : S.listing.Has s.ip lines)
    (hr : Ready S st s addresses frames lowest Γ env) :
    Follows S depth ((e.eval S.classes call env).run st) s
      (Evaluates S s addresses (s.ip + Line.sizes lines) st.objects ty) :=
  (h Γ ty env st s addresses frames lowest lines hc hhas hr).and_safe
    (exprSafe hS.resolved hS.typed hsafe e Γ ty env st hc.bound hc.typed hr.envTyped hr.storeTyped)

/-- Two operands in a row, and what is done with their words. -/
theorem follows_operands {first second : Expr} (h₁ : ExprFollows S depth call first)
    (h₂ : ExprFollows S depth call second) {t₁ t₂ : Ty} {a b tail : List Line}
    (hc₁ : Coded S Γ env s.ip first t₁ a)
    (hc₂ : Coded S Γ env (s.ip + first.width S.target) second t₂ b)
    (hhas : S.listing.Has s.ip (a ++ b ++ tail))
    (hr : Ready S st s addresses frames lowest Γ env) {k : Value → Value → Eval Value}
    (hk : ∀ v w st' s' addresses' x y, S.listing.Has s'.ip tail →
      s'.stack = y :: x :: s.stack → v.Kept addresses' x → w.Kept addresses' y →
      S.StoreAt st' s' addresses' →
      Follows S depth ((k v w).run st') s'
        (Settles s' addresses' (s'.ip + Line.sizes tail) s.stack st')) :
    Follows S depth ((do k (← first.eval S.classes call env) (← second.eval S.classes call env) :
      Eval Value).run st) s (Pushes S s addresses (s.ip + Line.sizes (a ++ b ++ tail))) := by
  refine (h₁.evaluates hS hsafe hc₁ hhas.left.left hr).bind ?_
  rintro v st₁ s₁ ⟨⟨-, hsound⟩, hip, addresses₁, x, hadv, hstack, hv⟩
  have hr₁ := hr.advance hsound hadv
  have hc₂ : Coded S Γ env s₁.ip second t₂ b := by rwa [hip, hc₁.code.sizes]
  refine (h₂.evaluates hS hsafe hc₂ (hip ▸ hhas.left.right) hr₁).bind ?_
  rintro w st₂ s₂ ⟨⟨-, hsound'⟩, hip', addresses₂, y, hadv', hstack', hw⟩
  have hend : s₂.ip = s.ip + Line.sizes (a ++ b) := by
    rw [hip', hip, Line.sizes_append, Nat.add_assoc]
  refine (hk v w st₂ s₂ addresses₂ x y (hend ▸ hhas.right) ?_ (hv.mono hadv'.addresses) hw
    hadv'.store).mono ?_
  · rw [hstack', hstack]
  · intro u st' s' hsettles
    rw [hend, Nat.add_assoc, ← Line.sizes_append] at hsettles
    exact hr.settled (hadv.trans hadv') hsettles

theorem follows_binary (op : BinOp) {left right : Expr} (pos : Position)
    (hl : ExprFollows S depth call left) (hr : ExprFollows S depth call right) :
    ExprFollows S depth call (.binary op left right pos) := by
  intro Γ ty env st s addresses frames lowest lines hc hhas hready
  obtain ⟨⟨hbl, hbr⟩, hty, hcode, hplaced⟩ := hc
  have hn := hS.listing.nodup
  cases hty with
  | binary htl htr hop =>
    cases hcode with
    | equal ha hb =>
      obtain ⟨hpl, hpr⟩ := hplaced.operands (by decide)
      rw [comparisonLines, List.append_assoc] at hhas ⊢
      refine follows_operands hS hsafe hl hr ⟨hbl, htl, ha, hpl⟩ ⟨hbr, htr, hb, hpr⟩ hhas hready ?_
      intro v w st' s' addresses' x y htail hstack hv hw hst
      exact follows_equal hv hw hstack hn hS.size hst htail
    | lessEqual ha hb =>
      obtain ⟨hpl, hpr⟩ := hplaced.operands (by decide)
      rw [comparisonLines, List.append_assoc] at hhas ⊢
      refine follows_operands hS hsafe hl hr ⟨hbl, htl, ha, hpl⟩ ⟨hbr, htr, hb, hpr⟩ hhas hready ?_
      intro v w st' s' addresses' x y htail hstack hv hw hst
      exact follows_lessEqual hv hw hstack hn htail
    | greaterEqual ha hb =>
      -- The right operand is evaluated first.
      obtain ⟨hpr, hpl⟩ := hplaced.operandsBackwards
      rw [comparisonLines, List.append_assoc] at hhas ⊢
      refine follows_operands hS hsafe hr hl ⟨hbr, htr, hb, hpr⟩ ⟨hbl, htl, ha, hpl⟩ hhas hready ?_
      intro v w st' s' addresses' x y htail hstack hv hw hst
      exact follows_greaterEqual hv hw hstack hn htail
    | or ha hb =>
      obtain ⟨hpl, hpr⟩ := hplaced.operands (by decide)
      rw [disjunctionLines, List.append_assoc] at hhas ⊢
      refine follows_operands hS hsafe hl hr ⟨hbl, htl, ha, hpl⟩ ⟨hbr, htr, hb, hpr⟩ hhas hready ?_
      intro v w st' s' addresses' x y htail hstack hv hw hst
      exact follows_or hv hw hstack hn htail
    | arith ho ha hb =>
      have hne : op ≠ .greaterEqual := by
        rintro rfl
        cases ho
      obtain ⟨hpl, hpr⟩ := hplaced.operands hne
      have hfirst : Eval.operate op (left.eval S.classes call env) (right.eval S.classes call env) =
          (do op.apply (← left.eval S.classes call env) (← right.eval S.classes call env)) := by
        cases op <;> first | rfl | cases ho
      unfold Expr.eval
      rw [hfirst]
      refine follows_operands hS hsafe hl hr ⟨hbl, htl, ha, hpl⟩ ⟨hbr, htr, hb, hpr⟩ hhas hready ?_
      intro v w st' s' addresses' x y htail hstack hv hw hst
      exact follows_arith hv hw hstack ho htail

theorem follows_not {operand : Expr} (pos : Position) (ih : ExprFollows S depth call operand) :
    ExprFollows S depth call (.not operand pos) := by
  intro Γ ty env st s addresses frames lowest lines hc hhas hr
  obtain ⟨hb, hty, hcode, hplaced⟩ := hc
  cases hty with
  | not hty hsub =>
    cases hcode with
    | @not _ _ a ha =>
      unfold Expr.eval
      refine (ih.evaluates hS hsafe ⟨hb, hty, ha, hplaced.not⟩ hhas.left hr).bind ?_
      rintro v st₁ s₁ ⟨-, hip, addresses₁, w, hadv, hstack, hv⟩
      cases hbool : v.bool? with
      | none => exact trivial
      | some b =>
        obtain rfl := Value.eq_ofBool_of_bool? hbool
        rw [Value.kept_ofBool hv] at hstack
        have hstraight : Straight S.listing S.size S.route
            [.push (-1), .plain (.arith .mul), .push 1, .plain (.arith .add)] s₁
            { s₁ with ip := s₁.ip + 6
                      stack := .word ((if b then 1 else 0) * -1 + 1) :: s.stack } :=
          ⟨_, .push _, rfl, _, .arith (by simp only [hstack]) rfl, rfl, _, .push _, rfl,
            _, .arith rfl rfl, rfl, rfl⟩
        have hstop : s.ip + Line.sizes (a ++ instrs
            [.push (-1), .plain (.arith .mul), .push 1, .plain (.arith .add)]) = s₁.ip + 6 := by
          rw [hip, Line.sizes_append, Nat.add_assoc]
          rfl
        refine .ok (hstraight.steps (hip ▸ hhas.right)) ?_
        rw [hstop]
        refine hr.pushes hadv ?_
        change Cell.word ((if b then 1 else 0) * -1 + 1) = .word (if !b then 1 else 0)
        congr 1
        cases b <;> decide

theorem follows_print {operand : Expr} (pos : Position) (ih : ExprFollows S depth call operand) :
    ExprFollows S depth call (.print operand pos) := by
  intro Γ ty env st s addresses frames lowest lines hc hhas hr
  obtain ⟨hb, hty, hcode, hplaced⟩ := hc
  cases hty with
  | print hty =>
    cases hcode with
    | @print _ _ a ha =>
      unfold Expr.eval
      refine (ih.evaluates hS hsafe ⟨hb, hty, ha, hplaced.print⟩ hhas.left hr).bind ?_
      rintro v st₁ s₁ ⟨-, hip, addresses₁, w, hadv, hstack, hv⟩
      obtain ⟨printed, hfixed, hprinted⟩ := hv.encodes
      refine .ok (.single (hip ▸ hhas.right) (.print hstack hfixed))
        ⟨?_, addresses₁, w, ?_, hstack, hv⟩
      · rw [Line.sizes_append, ← Nat.add_assoc, ← hip]
        rfl
      · have hst := hadv.store
        exact ⟨hadv.fp, hadv.calls, hadv.marks, hadv.stack, hadv.heap, hadv.addresses, hst.count,
          hst.increasing, hst.below,
          fun i o a ho ha => (hst.objects i o a ho ha).mono (List.prefix_refl _)
            (List.prefix_refl _) (List.prefix_refl _),
          List.rel_append hst.output (.cons hprinted .nil), hst.pending, hst.classes⟩

theorem follows_cond {test yes no : Expr} (pos : Position) (iht : ExprFollows S depth call test)
    (ihy : ExprFollows S depth call yes) (ihn : ExprFollows S depth call no) :
    ExprFollows S depth call (.cond test yes no pos) := by
  intro Γ ty env st s addresses frames lowest lines hc hhas hr
  obtain ⟨⟨hbt, hby, hbn⟩, hty, hcode, hplaced⟩ := hc
  obtain ⟨hpt, hpn, hpy⟩ := hplaced.cond
  have hsizes := hcode.sizes
  cases hty with
  | cond htest hsub hyes hno hjoin =>
    cases hcode with
    | @cond _ _ _ _ a b c yesLabel done ha hb hc =>
      unfold Expr.eval
      obtain ⟨hatest, hjump, hatno, hskip, hatyes, hyesend, hnoend⟩ :=
        has_conditional hS.listing.nodup hhas
      have hyesip : S.listing.position yesLabel =
          s.ip + test.width S.target + 4 + no.width S.target + 2 := by
        rw [hsizes, hb.sizes, Expr.width] at hyesend
        omega
      have hcy : Coded S Γ env (S.listing.position yesLabel) yes _ b :=
        ⟨hby, hyes, hb, hyesip ▸ hpy⟩
      have hcn : Coded S Γ env (s.ip + Line.sizes a + 4) no _ c :=
        ⟨hbn, hno, hc, ha.sizes ▸ hpn⟩
      refine (iht.evaluates hS hsafe ⟨hbt, htest, ha, hpt⟩ hatest hr).bind ?_
      rintro v st₁ s₁ ⟨⟨-, hsound⟩, hip, addresses₁, w, hadv, hstack, hv⟩
      cases hbool : v.bool? with
      | none => exact trivial
      | some bool =>
        obtain rfl := Value.eq_ofBool_of_bool? hbool
        rw [← hip] at hjump hatno hskip hcn
        rw [Value.kept_ofBool hv] at hstack
        have htest := steps_test (M := S.size) (K := S.route) hjump hstack
        -- Either branch starts with the stack as it was at first.
        have hadv' : ∀ ip, Advanced S s addresses st₁ { s₁ with ip, stack := s.stack } addresses₁ :=
          fun _ => hadv.settle hr.store.classes (List.suffix_refl s.stack)
        cases bool with
        | true =>
          refine .steps htest ((ihy _ _ _ _ _ _ _ _ _ hcy hatyes
            (hr.advance hsound (hadv' _))).mono ?_)
          intro u st' s' hu
          rw [← hyesend]
          exact hu.of_advanced (hadv' _) rfl
        | false =>
          refine .steps htest (Follows.finish (ihn _ _ _ _ _ _ _ _ _ hcn hatno
            (hr.advance hsound (hadv' _))) ?_)
          intro u st' s' hu
          obtain ⟨hip', addresses', w', hadv'', hstack', hu⟩ := hu.of_advanced (hadv' _) rfl
          refine ⟨1, _, .single (hip' ▸ hskip) (.jump done), hnoend, addresses', w', ?_, hstack',
            hu⟩
          exact hadv''.settle hr.store.classes hadv''.stack

/-- The arguments of a `new`, the first one deepest on the stack. -/
theorem follows_args {args : List Expr} (h : ∀ a ∈ args, ExprFollows S depth call a) :
    ∀ {ss : List Ty} {codes : List (List Line)} {st : Store} {s : Snapshot} {addresses : List Nat},
      Expr.ArgsBound S.context.bindings Γ args → S.context.Fits args ss →
      List.Forall₂ (CodeOf S.target) args codes → S.PlacedArgs env s.ip args →
      S.listing.Has s.ip codes.flatten → Ready S st s addresses frames lowest Γ env →
      Follows S depth ((Expr.evalArgs S.classes call env args).run st) s fun vs st' s' =>
        s'.ip = s.ip + Line.sizes codes.flatten ∧ ∃ addresses' ws,
          Advanced S s addresses st' s' addresses' ∧ s'.stack = ws.reverse ++ s.stack ∧
            List.Forall₂ (Value.Kept addresses') vs ws := by
  induction args with
  | nil =>
    intro ss codes st s addresses _ _ hcodes _ _ hr
    cases hcodes
    exact .ok (.refl s) ⟨rfl, addresses, [], .refl hr.store, rfl, .nil⟩
  | cons e es ih =>
    intro ss codes st s addresses hb hf hcodes hplaced hhas hr
    cases hf with
    | cons hty hsub hrest =>
      cases hcodes with
      | @cons _ code _ codes hcode hcodes =>
        unfold Expr.evalArgs
        rw [List.flatten_cons] at hhas ⊢
        obtain ⟨hp, hps⟩ := hplaced.cons
        refine ((h e (by simp)).evaluates hS hsafe ⟨hb.1, hty, hcode, hp⟩ hhas.left hr).bind ?_
        rintro v st₁ s₁ ⟨⟨-, hsound⟩, hip, addresses₁, w, hadv, hstack, hv⟩
        rw [← hcode.sizes, ← hip] at hps
        refine (ih (fun a ha => h a (List.mem_cons_of_mem _ ha)) hb.2 hrest hcodes hps
          (hip ▸ hhas.right) (hr.advance hsound hadv)).bind ?_
        rintro vs st₂ s₂ ⟨hip', addresses₂, ws, hadv', hstack', hvs⟩
        refine .ok (.refl s₂) ⟨?_, addresses₂, w :: ws, hadv.trans hadv', ?_,
          .cons (hv.mono hadv'.addresses) hvs⟩
        · rw [hip', hip, Line.sizes_append, Nat.add_assoc]
        · rw [hstack', hstack]
          simp

/-- The arguments of a call, the first one topmost on the stack. -/
theorem follows_argsBackwards {args : List Expr} (h : ∀ a ∈ args, ExprFollows S depth call a) :
    ∀ {ss : List Ty} {codes : List (List Line)} {st : Store} {s : Snapshot} {addresses : List Nat},
      Expr.ArgsBound S.context.bindings Γ args → S.context.Fits args ss →
      List.Forall₂ (CodeOf S.target) args codes → S.PlacedBackwards env s.ip args →
      S.listing.Has s.ip codes.reverse.flatten → Ready S st s addresses frames lowest Γ env →
      Follows S depth ((Expr.evalArgsBackwards S.classes call env args).run st) s fun vs st' s' =>
        s'.ip = s.ip + Line.sizes codes.reverse.flatten ∧
          s'.ComputedAt s'.stack (argEnds s.ip codes) ∧ ∃ addresses' ws,
          Advanced S s addresses st' s' addresses' ∧ s'.stack = ws ++ s.stack ∧
            List.Forall₂ (Value.Kept addresses') vs ws := by
  induction args with
  | nil =>
    intro ss codes st s addresses _ _ hcodes _ _ hr
    cases hcodes
    refine .ok (.refl s) ⟨rfl, ?_, addresses, [], .refl hr.store, rfl, .nil⟩
    intro i place hi
    simp [argEnds] at hi
  | cons e es ih =>
    intro ss codes st s addresses hb hf hcodes hplaced hhas hr
    cases hf with
    | cons hty hsub hrest =>
      cases hcodes with
      | @cons _ code _ codes hcode hcodes =>
        unfold Expr.evalArgsBackwards
        have hflat : (code :: codes).reverse.flatten = codes.reverse.flatten ++ code := by simp
        rw [hflat] at hhas
        rw [argEnds, hflat]
        obtain ⟨hps, hp⟩ := hplaced.cons
        have hsound := evalArgsBackwards_safe
          (fun a _ => exprSafe hS.resolved hS.typed hsafe a) hb.2 hrest hr.envTyped hr.storeTyped
        refine ((ih (fun a ha => h a (List.mem_cons_of_mem _ ha)) hb.2 hrest hcodes hps hhas.left
          hr).and_safe hsound).bind ?_
        rintro vs st₁ s₁ ⟨⟨-, hsound⟩, hip, hends, addresses₁, ws, hadv, hstack, hvs⟩
        rw [← Expr.sizes_argsBackwards (fun _ _ _ hcode => hcode.sizes) hcodes, ← hip] at hp
        refine (h e (by simp) _ _ _ _ _ _ _ _ _ ⟨hb.1, hty, hcode, hp⟩ (hip ▸ hhas.right)
          (hr.advance hsound hadv)).bind ?_
        rintro v st₂ s₂ ⟨hip', addresses₂, w, hadv', hstack', hv⟩
        have hend : s₂.ip = s.ip + Line.sizes (codes.reverse.flatten ++ code) := by
          rw [hip', hip, Line.sizes_append, Nat.add_assoc]
        have hmarks : s₂.marks <+: s₂.marks ++ [s₂.mark] := List.prefix_append _ _
        refine .ok (.mark (.refl _)) ⟨hend, ?_, addresses₂, w :: ws,
          (hadv.trans hadv').marked hmarks, ?_,
          .cons hv (hvs.imp fun _ _ hv => hv.mono hadv'.addresses)⟩
        · intro i place hi
          cases i with
          | zero =>
            obtain rfl : _ = place := Option.some.inj hi
            rw [← hend]
            exact List.mem_append_right _ (List.mem_singleton_self _)
          | succ i =>
            have hold := hends.mono hadv'.calls hadv'.marks i place hi
            rw [hstack']
            exact hmarks.subset hold
        · rw [hstack', hstack]
          rfl

end

end Classlet
