import Classlet.Proofs.Tables

/-!
The code of a program stands where the sites of the program say. Every expression of a
program has a site, with the frames around its place in the text, and its code is found
there in the listing; and the block of every function and method is found where the sizes
of the code before it put it.
-/

namespace Classlet

open Code

/-! Sites and places in the text. -/

namespace Site

variable {t : Target} {Γ : List Naming}

/-- The places of the expressions in that of a site. -/
def places (x : Site) : List (List Naming × Expr) := x.expr.places x.scope

theorem mem_places_of_args {start : Nat} {es : List Expr} {q : List Naming × Expr} :
    q ∈ (Expr.partsOfArgs es).map (Γ, ·) ↔ ∃ y ∈ args t Γ start es, q ∈ y.places := by
  induction es generalizing start with
  | nil => simp [Expr.partsOfArgs, args]
  | cons e es ih =>
    rw [Expr.partsOfArgs, List.map_append, List.mem_append, @ih (start + e.width t), args]
    simp [places, Expr.places]

theorem mem_places_of_argsBackwards {start : Nat} {es : List Expr} {q : List Naming × Expr} :
    q ∈ (Expr.partsOfArgs es).map (Γ, ·) ↔ ∃ y ∈ argsBackwards t Γ start es, q ∈ y.places := by
  induction es with
  | nil => simp [Expr.partsOfArgs, argsBackwards]
  | cons e es ih =>
    rw [Expr.partsOfArgs, List.map_append, List.mem_append, ih, argsBackwards, or_comm]
    simp [or_and_right, exists_or, places, Expr.places]

theorem mem_places_iff_children {x : Site} {q : List Naming × Expr} :
    q ∈ x.places ↔ q = (x.scope, x.expr) ∨ ∃ y ∈ x.children t, q ∈ y.places := by
  obtain ⟨Γ, start, e⟩ := x
  cases e with
  | lit | name => simp [places, Expr.places, Expr.parts, children]
  | binary op left right pos =>
    simp only [children]
    split <;> simp [places, Expr.places, Expr.parts, or_comm]
  | not | print => simp [places, Expr.places, Expr.parts, children]
  | cond test yes no pos => simp [places, Expr.places, Expr.parts, children, or_comm]
  | call id callee es pos =>
    simp only [children, ← mem_places_of_argsBackwards]
    simp [places, Expr.places, Expr.parts]
  | send id receiver method es pos =>
    simp only [children, ← mem_places_of_argsBackwards]
    simp [places, Expr.places, Expr.parts]
  | new id cls es pos =>
    simp only [children, ← mem_places_of_args]
    simp [places, Expr.places, Expr.parts]

/-- The expressions in an expression are those with a site in it. -/
theorem mem_places_iff (t : Target) {q : List Naming × Expr} (x : Site) :
    q ∈ x.places ↔ ∃ y ∈ x.inner t, (y.scope, y.expr) = q := by
  induction x using Site.induction t with
  | h x ih =>
    rw [mem_places_iff_children (t := t), inner_eq]
    constructor
    · rintro (rfl | ⟨y, hy, hq⟩)
      · exact ⟨x, by simp, rfl⟩
      · obtain ⟨z, hz, hq⟩ := (ih y hy).mp hq
        exact ⟨z, List.mem_append_left _ (List.mem_flatMap.mpr ⟨y, hy, hz⟩), hq⟩
    · rintro ⟨z, hz, rfl⟩
      rcases List.mem_append.mp hz with hz | hz
      · obtain ⟨y, hy, hz⟩ := List.mem_flatMap.mp hz
        exact Or.inr ⟨y, hy, (ih y hy).mpr ⟨z, hz, rfl⟩⟩
      · obtain rfl := List.mem_singleton.mp hz
        exact Or.inl rfl

end Site

/-- The values of variables are where the text has them. -/
theorem Decl.roots_places {t : Target} {outer : List Naming} {r : Site} (ds : List Decl) :
    ∀ (before : List (String × NodeId)) (start : Nat), r ∈ roots t outer before ds start →
      r.places ⊆ placesOfAll outer before ds := by
  induction ds with
  | nil =>
    intro before start hr
    cases hr
  | cons d ds ih =>
    intro before start hr
    rw [placesOfAll]
    cases d with
    | var id x type init pos =>
      rcases List.mem_cons.mp hr with rfl | hr
      · exact List.subset_append_left _ _
      · exact List.Subset.trans (ih _ _ hr) (List.subset_append_right _ _)
    | fn id f params ret decls body pos =>
      exact List.Subset.trans (ih _ _ hr) (List.subset_append_right _ _)

/-- The place is in a variable's value or in the body, wherever the code begins. -/
def Block.Holds (t : Target) (q : List Naming × Expr) (b : Block) : Prop :=
  ∀ start, ∃ r ∈ b.roots t start, q ∈ r.places

/-- A place in a function or method is in its own code or in that of a function in it. -/
theorem Block.exists_holds {t : Target} {Γ : List Naming} {params : List Binder}
    {decls : List Decl} {body : Expr} {q : List Naming × Expr}
    (hdecls : q ∈ Decl.placesOfAll Γ (params.map Binder.named) decls →
      (∀ start, ∃ r ∈ Decl.roots t Γ (params.map Binder.named) decls start, q ∈ r.places) ∨
        ∃ b ∈ Decl.blocksOfAll Γ (params.map Binder.named) decls, b.Holds t q)
    (hq : q ∈ routinePlaces Γ params decls body) :
    ∃ b ∈ Decl.blocksOfAll Γ (params.map Binder.named) decls ++ [⟨Γ, params, decls, body⟩],
      b.Holds t q := by
  have hself : ⟨Γ, params, decls, body⟩ ∈
      Decl.blocksOfAll Γ (params.map Binder.named) decls ++ [⟨Γ, params, decls, body⟩] :=
    List.mem_append_right _ (List.mem_singleton_self _)
  rcases List.mem_append.mp hq with hq | hq
  · rcases hdecls hq with hroot | ⟨b, hb, hholds⟩
    · refine ⟨_, hself, fun start => ?_⟩
      obtain ⟨r, hr, hq⟩ := hroot (start + 2)
      exact ⟨r, List.mem_append_left _ hr, hq⟩
    · exact ⟨b, List.mem_append_left _ hb, hholds⟩
  · exact ⟨_, hself, fun start => ⟨_, List.mem_append_right _ (List.mem_singleton_self _), hq⟩⟩

/-- A place in declarations is in the value of a variable or in the code of a function. -/
theorem Decl.exists_holds {t : Target} {q : List Naming × Expr} :
    (∀ (d : Decl) (outer : List Naming) (before : List (String × NodeId)),
      q ∈ d.places outer before →
      (∀ ds start, ∃ r ∈ roots t outer before (d :: ds) start, q ∈ r.places) ∨
        ∃ b ∈ d.blocks outer before, b.Holds t q) ∧
    ∀ (ds : List Decl) (outer : List Naming) (before : List (String × NodeId)),
      q ∈ placesOfAll outer before ds →
      (∀ start, ∃ r ∈ roots t outer before ds start, q ∈ r.places) ∨
        ∃ b ∈ blocksOfAll outer before ds, b.Holds t q := by
  apply Decl.induction
  · intro id name type init pos outer before hq
    exact Or.inl fun ds start => ⟨_, List.mem_cons_self, hq⟩
  · intro id name params ret decls body pos ih outer before hq
    exact Or.inr (Block.exists_holds (ih _ _) hq)
  · intro outer before hq
    cases hq
  · intro d ds ihd ihs outer before hq
    rcases List.mem_append.mp hq with hq | hq
    · refine (ihd _ _ hq).imp (fun h start => h ds start) ?_
      exact fun ⟨b, hb, hholds⟩ => ⟨b, List.mem_append_left _ hb, hholds⟩
    · refine (ihs _ _ hq).imp (fun h start => ?_) ?_
      · cases d with
        | var id x type init pos =>
          obtain ⟨r, hr, hq⟩ := h (start + init.width t)
          exact ⟨r, List.mem_cons_of_mem _ hr, hq⟩
        | fn id f params ret decls body pos => exact h (start + 2)
      · exact fun ⟨b, hb, hholds⟩ => ⟨b, List.mem_append_right _ hb, hholds⟩

/-- A function is where the text has it. -/
theorem Decl.blocks_places {b : Block} :
    (∀ (d : Decl) (outer : List Naming) (before : List (String × NodeId)),
      b ∈ d.blocks outer before →
      routinePlaces b.scope b.params b.decls b.body ⊆ d.places outer before ∧
        (b.params, b.decls, b.body) ∈ d.routines) ∧
    ∀ (ds : List Decl) (outer : List Naming) (before : List (String × NodeId)),
      b ∈ blocksOfAll outer before ds →
      routinePlaces b.scope b.params b.decls b.body ⊆ placesOfAll outer before ds ∧
        (b.params, b.decls, b.body) ∈ routinesOfAll ds := by
  apply Decl.induction
  · intro id name type init pos outer before hb
    cases hb
  · intro id name params ret decls body pos ih outer before hb
    rw [blocks, List.mem_append, List.mem_singleton] at hb
    rw [places, routines, List.mem_cons]
    rcases hb with hb | rfl
    · obtain ⟨hplaces, hroutine⟩ := ih _ _ hb
      exact ⟨List.Subset.trans hplaces (List.subset_append_left _ _), Or.inr hroutine⟩
    · exact ⟨fun q hq => hq, Or.inl rfl⟩
  · intro outer before hb
    cases hb
  · intro d ds ihd ihs outer before hb
    rw [placesOfAll, routinesOfAll, List.mem_append]
    rcases List.mem_append.mp hb with hb | hb
    · obtain ⟨hplaces, hroutine⟩ := ihd _ _ hb
      exact ⟨List.Subset.trans hplaces (List.subset_append_left _ _), Or.inl hroutine⟩
    · obtain ⟨hplaces, hroutine⟩ := ihs _ _ hb
      exact ⟨List.Subset.trans hplaces (List.subset_append_right _ _), Or.inr hroutine⟩

theorem MethodDecl.blocks_places {Γ : List Naming} {m : MethodDecl} {b : Block}
    (hb : b ∈ m.blocks Γ) :
    routinePlaces b.scope b.params b.decls b.body ⊆ routinePlaces Γ m.params m.decls m.body ∧
      (b.params, b.decls, b.body) ∈ m.routines := by
  rw [MethodDecl.blocks, List.mem_append, List.mem_singleton] at hb
  rw [MethodDecl.routines, List.mem_cons]
  rcases hb with hb | rfl
  · obtain ⟨hplaces, hroutine⟩ := Decl.blocks_places.2 _ _ _ hb
    exact ⟨List.Subset.trans hplaces (List.subset_append_left _ _), Or.inr hroutine⟩
  · exact ⟨fun q hq => hq, Or.inl rfl⟩

section

variable {p : Program} {t : Target}

theorem Block.startOf_succ (start : Nat) (b : Block) (bs : List Block) (k : Nat) :
    Block.startOf t start (b :: bs) (k + 1) = Block.startOf t (start + b.width t) bs k := by
  rw [Block.startOf, Block.startOf, List.take_succ_cons, List.map_cons, List.sum_cons,
    Nat.add_assoc]

theorem Block.roots_subset {bs : List Block} {start k : Nat} {b : Block} (hk : bs[k]? = some b) :
    b.roots t (Block.startOf t start bs k) ⊆ Block.rootsFrom t start bs := by
  induction bs generalizing start k with
  | nil => cases hk
  | cons b' bs ih =>
    cases k with
    | zero =>
      obtain rfl : b' = b := Option.some.inj hk
      exact List.subset_append_left _ _
    | succ k =>
      rw [Block.startOf_succ]
      exact List.Subset.trans (ih hk) (List.subset_append_right _ _)

/-- The expressions of a function or method are where its block begins. -/
theorem Program.roots_of_block {k : Nat} {b : Block} (hk : p.blocks[k]? = some b) :
    b.roots t (p.blockStart t k) ⊆ p.roots t :=
  List.Subset.trans (Block.roots_subset hk)
    (fun _ hr => List.mem_append_right _ (List.mem_cons_of_mem _ hr))

theorem Program.inner_subset {r : Site} (hr : r ∈ p.roots t) : r.inner t ⊆ p.sites t :=
  fun _ hx => List.mem_flatMap.mpr ⟨r, hr, hx⟩

/-- Where the body of a function or method ends. -/
theorem Program.body_site (t : Target) {k : Nat} {b : Block} (hk : p.blocks[k]? = some b) :
    ∃ y ∈ p.sites t, y.stop t = p.blockStart t k + b.bodyWidth t ∧ y.expr = b.body := by
  have hroot : ⟨.ofList b.names :: b.scope, p.blockStart t k + 2 + Decl.widths t b.decls, b.body⟩ ∈
      p.roots t := roots_of_block hk (List.mem_append_right _ (List.mem_singleton_self _))
  refine ⟨_, inner_subset hroot (Expr.mem_sites_self _ _ _ _), ?_, rfl⟩
  rw [Site.stop, Block.bodyWidth, ← Nat.add_assoc, ← Nat.add_assoc]

end

namespace Program

variable {p : Program}

theorem blocks_places {b : Block} (hb : b ∈ p.blocks) :
    routinePlaces b.scope b.params b.decls b.body ⊆ p.places ∧
      (b.params, b.decls, b.body) ∈ p.routines := by
  rw [places, routines, List.mem_append]
  rcases List.mem_append.mp hb with hb | hb
  · obtain ⟨⟨c, γ⟩, hc, hb⟩ := List.mem_flatMap.mp hb
    obtain ⟨m, hm, hb⟩ := List.mem_flatMap.mp hb
    obtain ⟨hplaces, hroutine⟩ := MethodDecl.blocks_places hb
    refine ⟨fun q hq => List.mem_append_left _ ?_, Or.inl ?_⟩
    · exact List.mem_flatMap.mpr ⟨(c, γ), hc, List.mem_flatMap.mpr ⟨m, hm, hplaces hq⟩⟩
    · exact List.mem_flatMap.mpr ⟨c, (List.of_mem_zip hc).1, List.mem_flatMap.mpr ⟨m, hm, hroutine⟩⟩
  · obtain ⟨hplaces, hroutine⟩ := Decl.blocks_places.2 _ _ _ hb
    exact ⟨fun q hq => List.mem_append_right _ (List.mem_append_left _ (hplaces hq)),
      Or.inr hroutine⟩

theorem mem_rootsFrom {t : Target} {bs : List Block} {start : Nat} {r : Site}
    (hr : r ∈ Block.rootsFrom t start bs) : ∃ b ∈ bs, ∃ start, r ∈ b.roots t start := by
  induction bs generalizing start with
  | nil => cases hr
  | cons b bs ih =>
    rcases List.mem_append.mp hr with hr | hr
    · exact ⟨b, List.mem_cons_self, start, hr⟩
    · obtain ⟨b', hb', start', hr⟩ := ih hr
      exact ⟨b', List.mem_cons_of_mem _ hb', start', hr⟩

theorem roots_places {t : Target} {r : Site} (hr : r ∈ p.roots t) : r.places ⊆ p.places := by
  rw [roots, List.mem_append, List.mem_cons] at hr
  rcases hr with hr | rfl | hr
  · refine List.Subset.trans (Decl.roots_places _ _ _ hr) ?_
    exact fun q hq => List.mem_append_right _ (List.mem_append_left _ hq)
  · exact fun q hq => List.mem_append_right _ (List.mem_append_right _ hq)
  · obtain ⟨b, hb, start, hr⟩ := mem_rootsFrom hr
    refine List.Subset.trans ?_ (blocks_places hb).1
    rw [Block.roots, List.mem_append, List.mem_singleton] at hr
    rcases hr with hr | rfl
    · exact List.Subset.trans (Decl.roots_places _ _ _ hr) (List.subset_append_left _ _)
    · exact List.subset_append_right _ _

theorem mem_parts_of_places {Γ : List Naming} {e x : Expr} (h : e.places Γ ⊆ p.places)
    (hx : x ∈ e.parts) : x ∈ p.parts := by
  rw [← p.map_places]
  exact List.mem_map_of_mem (h (List.mem_map.mpr ⟨x, hx, rfl⟩))

/-- Every place is in the code of a block or of the program itself. -/
theorem exists_root (t : Target) {q : List Naming × Expr} (hq : q ∈ p.places) :
    ∃ r ∈ p.roots t, q ∈ r.places := by
  have hblock : ∀ b ∈ p.blocks, b.Holds t q → ∃ r ∈ p.roots t, q ∈ r.places := by
    intro b hb hholds
    obtain ⟨k, hk⟩ := List.mem_iff_getElem?.mp hb
    obtain ⟨r, hr, hq⟩ := hholds (p.blockStart t k)
    exact ⟨r, roots_of_block hk hr, hq⟩
  rw [places, List.mem_append, List.mem_append] at hq
  rcases hq with hq | hq | hq
  · obtain ⟨⟨c, γ⟩, hc, hq⟩ := List.mem_flatMap.mp hq
    obtain ⟨m, hm, hq⟩ := List.mem_flatMap.mp hq
    obtain ⟨b, hb, hholds⟩ := Block.exists_holds (Decl.exists_holds.2 _ _ _) hq
    exact hblock b (List.mem_append_left _ (List.mem_flatMap.mpr
      ⟨(c, γ), hc, List.mem_flatMap.mpr ⟨m, hm, hb⟩⟩)) hholds
  · rcases Decl.exists_holds.2 _ _ _ hq with hroot | ⟨b, hb, hholds⟩
    · obtain ⟨r, hr, hq⟩ := hroot p.declsStart
      exact ⟨r, List.mem_append_left _ hr, hq⟩
    · exact hblock b (List.mem_append_right _ hb) hholds
  · exact ⟨_, List.mem_append_right _ List.mem_cons_self, hq⟩

/-- The expressions of a program are those with a site. -/
theorem mem_places_iff (t : Target) {q : List Naming × Expr} :
    q ∈ p.places ↔ ∃ x ∈ p.sites t, (x.scope, x.expr) = q := by
  constructor
  · intro hq
    obtain ⟨r, hr, hq⟩ := exists_root t hq
    obtain ⟨x, hx, hq⟩ := (r.mem_places_iff t).mp hq
    exact ⟨x, inner_subset hr hx, hq⟩
  · rintro ⟨x, hx, rfl⟩
    obtain ⟨r, hr, hx⟩ := List.mem_flatMap.mp hx
    exact roots_places hr ((r.mem_places_iff t).mpr ⟨x, hx, rfl⟩)

theorem mem_parts {t : Target} {x : Site} (hx : x ∈ p.sites t) : x.expr ∈ p.parts := by
  rw [← p.map_places]
  exact List.mem_map_of_mem ((mem_places_iff t).mpr ⟨x, hx, rfl⟩)

end Program

/-! The code of a program. -/

section

variable {p : Program} {t : Target} {L : Listing}

/-- Where the declarations and the body are in the code of a function or method. -/
theorem has_routine {start params locals : Nat} {ds bs : List Line}
    (h : L.Has start (routineLines params locals ds bs)) :
    L.Has (start + 2) ds ∧ L.Has (start + 2 + Line.sizes ds) bs := by
  have hds := h.left.left.right
  have hbs := h.left.right
  rw [Line.sizes_append, ← Nat.add_assoc] at hbs
  exact ⟨hds, hbs⟩

/-- Blocks in a row, each behind the label of its number. -/
theorem has_blocks (hn : L.labels.Nodup) {bs : List Block} {blocks : List (List Line)}
    (h : List.Forall₂ (Block.Lines p t) bs blocks) {n start : Nat}
    (hL : L.Has start (blockLines n blocks)) {k : Nat} {b : Block} (hk : bs[k]? = some b) :
    L.position (.function (n + k)) = Block.startOf t start bs k ∧
      ∃ lines, b.Lines p t lines ∧ L.Has (Block.startOf t start bs k) lines := by
  induction h generalizing n start k with
  | nil => cases hk
  | @cons b' lines bs blocks hlines _ ih =>
    cases k with
    | zero =>
      obtain rfl : b' = b := Option.some.inj hk
      exact ⟨hL.position hn, lines, hlines, hL.skip_label.left⟩
    | succ k =>
      have hrest := hL.skip_label.right
      rw [hlines.sizes] at hrest
      rw [Block.startOf_succ, Nat.add_comm k 1, ← Nat.add_assoc]
      exact ih hrest hk

theorem sizes_tableLines (table : List Label) :
    Line.sizes (tableLines table) = 1 + 9 * table.length := by
  have hentries : ∀ ls : List Label,
      Line.sizes (instrs (ls.flatMap fun l => .pushLabel l :: moveToHeap)) = 9 * ls.length := by
    intro ls
    induction ls with
    | nil => rfl
    | cons l ls ih =>
      rw [List.flatMap_cons, instrs_append, Line.sizes_append, ih, List.length_cons, Nat.mul_succ,
        Nat.add_comm]
      rfl
  exact congrArg (1 + ·) (hentries table)

theorem sizes_tables {cs : List ClassDecl} {tables : List (List Label)}
    (h : List.Forall₂ (fun c table => ∃ l, layout? p.classes.reverse c.name = some l ∧
      TableOf p l table) cs tables) :
    Line.sizes (tables.flatMap tableLines) = (cs.map fun c =>
      1 + 9 * (layout? p.classes.reverse c.name).elim 0 fun l => l.methods.length).sum := by
  induction h with
  | nil => rfl
  | cons hc _ ih =>
    obtain ⟨l, hl, htable⟩ := hc
    rw [List.flatMap_cons, Line.sizes_append, ih, sizes_tableLines, List.map_cons, List.sum_cons,
      hl, Option.elim_some, ← htable.length_eq]

namespace ListingOf

variable (hl : ListingOf p t L)

include hl

/-- Where the parts of the code begin. -/
theorem parts : ∃ front tables ds bs blocks,
    (p.declaresAny ∧ front = instrs [.push 0] ∨ front = [] ∧ p.classes = [] ∧ p.decls = []) ∧
    List.Forall₂ (fun c table => ∃ l, layout? p.classes.reverse c.name = some l ∧
      TableOf p l table) p.classes tables ∧
    DeclsAt p t [] (p.classes.map ClassDecl.named) p.decls ds ∧ CodeOf t p.body bs ∧
    List.Forall₂ (Block.Lines p t) p.blocks blocks ∧
    Line.sizes (front ++ tables.flatMap tableLines) = p.declsStart ∧
    L.Has 0 (front ++ tables.flatMap tableLines) ∧ L.Has p.declsStart ds ∧
    L.Has (p.declsStart + Decl.widths t p.decls) bs ∧
    L.Has (p.declsStart + Decl.widths t p.decls + p.body.width t) (instrs [.plain .halt]) ∧
    L.Has (p.blocksStart t) (blockLines 0 blocks) ∧
    L.lines = front ++ tables.flatMap tableLines ++ ds ++ bs ++ instrs [.plain .halt] ++
      blockLines 0 blocks := by
  obtain ⟨front, tables, ds, bs, blocks, hfront, htables, hds, hbs, hblocks, hlines⟩ := hl.lines
  have hall : L.Has 0 (front ++ tables.flatMap tableLines ++ ds ++ bs ++ instrs [.plain .halt] ++
      blockLines 0 blocks) := ⟨[], [], by simpa using hlines, rfl⟩
  have hstart : Line.sizes (front ++ tables.flatMap tableLines) = p.declsStart := by
    rw [Line.sizes_append, sizes_tables htables, Program.declsStart, Program.tablesWidth]
    rcases hfront with ⟨hany, rfl⟩ | ⟨rfl, hclasses, hdecls⟩
    · rw [if_pos hany]
      rfl
    · rw [if_neg (by simp [Program.declaresAny, hclasses, hdecls])]
      rfl
  have hrest := hall.right
  have hhalt := hall.left.right
  have hbody := hall.left.left.right
  have hdecls := hall.left.left.left.right
  simp only [Line.sizes_append, Nat.zero_add] at hrest hhalt hbody hdecls hstart
  simp only [hstart, hds.sizes, hbs.sizes] at hrest hhalt hbody hdecls
  exact ⟨front, tables, ds, bs, blocks, hfront, htables, hds, hbs, hblocks, by
    rw [Line.sizes_append, hstart], hall.left.left.left.left, hdecls, hbody, hhalt, hrest, hlines⟩

/-- The block of a function or method is behind the label of its number. -/
theorem block {k : Nat} {b : Block} (hk : p.blocks[k]? = some b) :
    L.position (.function k) = p.blockStart t k ∧ ∃ ds bs,
      DeclsAt p t b.scope (b.params.map Binder.named) b.decls ds ∧ CodeOf t b.body bs ∧
      L.Has (p.blockStart t k) (routineLines b.params.length b.decls.length ds bs) := by
  obtain ⟨_, _, _, _, blocks, -, -, -, -, hblocks, -, -, -, -, -, hhas, -⟩ := hl.parts
  obtain ⟨hposition, _, ⟨ds, bs, rfl, hds, hbs⟩, hlines⟩ := has_blocks hl.nodup hblocks hhas hk
  rw [Nat.zero_add] at hposition
  exact ⟨hposition, ds, bs, hds, hbs, hlines⟩

/-- Declarations whose functions are labels of their numbers, as code. -/
theorem declsCode :
    (∀ (d : Decl) (outer : List Naming) (before : List (String × NodeId)) (ds : List Decl)
      (lines : List Line), DeclsAt p t outer before (d :: ds) lines →
      d.places outer before ⊆ p.places →
      (∀ rest, DeclsAt p t outer (before ++ [d.named]) ds rest → DeclsCode t L p ds rest) →
      DeclsCode t L p (d :: ds) lines) ∧
    ∀ (ds : List Decl) (outer : List Naming) (before : List (String × NodeId)) (lines : List Line),
      DeclsAt p t outer before ds lines → Decl.placesOfAll outer before ds ⊆ p.places →
      DeclsCode t L p ds lines := by
  apply Decl.induction
  · intro id name type init pos outer before ds lines h hplaces hds
    cases h with
    | var hinit hrest =>
      exact .var hinit (fun x hx => Program.mem_parts_of_places hplaces hx) (hds _ hrest)
  · intro id name params ret decls body pos ih outer before ds lines h _ hds
    cases h with
    | fn hk hrest =>
      obtain ⟨hposition, ds', bs, hds', hbs, hlines⟩ := hl.block hk
      obtain ⟨hplaces, hroutine⟩ := Program.blocks_places (List.mem_of_getElem? hk)
      rw [routinePlaces, List.append_subset] at hplaces
      rw [← hposition] at hlines
      refine .fn (.mk hroutine (ih _ _ _ hds' hplaces.1) hbs ?_ hlines) (hds _ hrest)
      exact fun x hx => Program.mem_parts_of_places hplaces.2 hx
  · intro outer before lines h _
    cases h
    exact .nil
  · intro d ds ihd ihs outer before lines h hplaces
    rw [Decl.placesOfAll, List.append_subset] at hplaces
    exact ihd outer before ds lines h hplaces.1 fun rest hrest => ihs _ _ _ hrest hplaces.2

end ListingOf

end

end Classlet
