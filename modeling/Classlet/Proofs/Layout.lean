import Classlet.Proofs.Nest
import Classlet.Tree.Program
import Mathlib.Data.List.Basic

/-!
What the text of a program says about its classes. The classes are given with
the latest first, so that a superclass is looked for among the classes behind a
class. A layout lists all fields and methods of a class, inherited ones first;
a member of an inherited name takes over the place of the inherited one.
-/

namespace Classlet

/-- A method and the class that declares it. -/
structure Implementation where
  owner : String
  decl : MethodDecl

structure Layout where
  fields : List (String × Ty) := []
  methods : List (String × Implementation) := []

/-- Puts a name in its place: the place it has already, or a new one at the end. -/
def placed {α : Type} (x : String) (a : α) : List (String × α) → List (String × α)
  | [] => [(x, a)]
  | (y, b) :: rest => if y = x then (x, a) :: rest else (y, b) :: placed x a rest

/-- The layout of a class whose superclass has the given one. -/
def ClassDecl.over (c : ClassDecl) (base : Layout) : Layout where
  fields := c.fields.foldl (fun l f => placed f.name f.type.lower l) base.fields
  methods := c.methods.foldl (fun l m => placed m.name ⟨c.name, m⟩ l) base.methods

/-- The class of the given name, with the classes behind it. -/
def class? : List ClassDecl → String → Option (ClassDecl × List ClassDecl)
  | [], _ => none
  | c :: earlier, cls => if c.name = cls then some (c, earlier) else class? earlier cls

/-- The layout of a class of the given name. -/
def layout? : List ClassDecl → String → Option Layout
  | [], _ => none
  | c :: earlier, cls =>
    if c.name = cls then
      match c.parent? with
      | none => some (c.over {})
      | some parent => (layout? earlier parent).map c.over
    else layout? earlier cls

/-- The method that an object of a class answers with: the one of the class
itself if it declares one, and otherwise that of its superclass. -/
def nearest? : List ClassDecl → String → String → Option Implementation
  | [], _, _ => none
  | c :: earlier, cls, method =>
    if c.name = cls then
      match c.methods.find? fun m => m.name = method with
      | some decl => some ⟨c.name, decl⟩
      | none => c.parent?.bind fun parent => nearest? earlier parent method
    else nearest? earlier cls method

section Placed

variable {α : Type}

theorem placed_of_notMem {x : String} {l : List (String × α)} (a : α)
    (h : x ∉ l.map Prod.fst) : placed x a l = l ++ [(x, a)] := by
  induction l with
  | nil => rfl
  | cons p rest ih =>
    obtain ⟨y, b⟩ := p
    simp only [List.map_cons, List.mem_cons, not_or] at h
    simp [placed, Ne.symm h.1, ih h.2]

theorem placed_of_mem {x : String} {l : List (String × α)} (a : α) (h : x ∈ l.map Prod.fst) :
    placed x a l = l.set ((l.map Prod.fst).idxOf x) (x, a) := by
  induction l with
  | nil => simp at h
  | cons p rest ih =>
    obtain ⟨y, b⟩ := p
    by_cases hy : y = x
    · subst hy
      simp [placed]
    · have hrest : x ∈ rest.map Prod.fst := by
        simp only [List.map_cons, List.mem_cons] at h
        exact h.resolve_left (Ne.symm hy)
      simp [placed, hy, ih hrest, List.idxOf_cons_ne _ hy]

theorem names_placed_of_mem {x : String} {l : List (String × α)} (a : α)
    (h : x ∈ l.map Prod.fst) : (placed x a l).map Prod.fst = l.map Prod.fst := by
  have hlt := List.idxOf_lt_length_iff.mpr h
  calc (placed x a l).map Prod.fst
    _ = (l.map Prod.fst).set ((l.map Prod.fst).idxOf x) x := by
      rw [placed_of_mem a h, List.map_set]
    _ = (l.map Prod.fst).set ((l.map Prod.fst).idxOf x)
        (l.map Prod.fst)[(l.map Prod.fst).idxOf x] := by rw [List.getElem_idxOf hlt]
    _ = l.map Prod.fst := List.set_getElem_self hlt

/-- Names keep their places, and a new name is put behind them. -/
theorem names_placed (x : String) (a : α) (l : List (String × α)) :
    l.map Prod.fst <+: (placed x a l).map Prod.fst := by
  by_cases h : x ∈ l.map Prod.fst
  · simp only [names_placed_of_mem a h, List.prefix_refl]
  · simp only [placed_of_notMem a h, List.map_append, List.prefix_append]

theorem mem_names_placed (x : String) (a : α) (l : List (String × α)) :
    x ∈ (placed x a l).map Prod.fst := by
  by_cases h : x ∈ l.map Prod.fst
  · rwa [names_placed_of_mem a h]
  · simp [placed_of_notMem a h]

theorem mem_placed {x : String} {a : α} {l : List (String × α)} {p : String × α}
    (h : p ∈ placed x a l) : p = (x, a) ∨ p ∈ l := by
  induction l with
  | nil => simpa [placed] using h
  | cons q rest ih =>
    obtain ⟨y, b⟩ := q
    by_cases hy : y = x
    · simp only [placed, hy, if_true, List.mem_cons] at h ⊢
      rcases h with h | h
      · exact Or.inl h
      · exact Or.inr (Or.inr h)
    · simp only [placed, hy, if_false, List.mem_cons] at h ⊢
      rcases h with h | h
      · exact Or.inr (Or.inl h)
      · rcases ih h with h | h
        · exact Or.inl h
        · exact Or.inr (Or.inr h)

theorem lookup_placed (x y : String) (a : α) (l : List (String × α)) :
    (placed x a l).lookup y = if y = x then some a else l.lookup y := by
  induction l with
  | nil =>
    by_cases h : y = x
    · simp [placed, h]
    · rw [placed, lookup_cons_of_ne h, if_neg h]
  | cons p rest ih =>
    obtain ⟨z, b⟩ := p
    by_cases hz : z = x
    · subst hz
      by_cases h : y = z
      · simp [placed, h]
      · rw [placed, if_pos rfl, lookup_cons_of_ne h, lookup_cons_of_ne h, if_neg h]
    · by_cases hyz : y = z
      · subst hyz
        simp [placed, hz]
      · rw [placed, if_neg hz, lookup_cons_of_ne hyz, lookup_cons_of_ne hyz, ih]

theorem lookup_eq_none {x : String} {l : List (String × α)} :
    l.lookup x = none ↔ x ∉ l.map Prod.fst := by
  induction l with
  | nil => simp
  | cons p rest ih =>
    obtain ⟨y, a⟩ := p
    by_cases h : x = y
    · simp [h]
    · simpa [lookup_cons_of_ne h, h] using ih

theorem lookup_isSome {x : String} {l : List (String × α)} (h : x ∈ l.map Prod.fst) :
    ∃ a, l.lookup x = some a := by
  cases hl : l.lookup x with
  | none => exact absurd h (lookup_eq_none.mp hl)
  | some a => exact ⟨a, rfl⟩

theorem mem_of_lookup {x : String} {l : List (String × α)} {a : α} (h : l.lookup x = some a) :
    (x, a) ∈ l := by
  induction l with
  | nil => simp at h
  | cons p rest ih =>
    obtain ⟨y, b⟩ := p
    by_cases hy : x = y
    · subst hy
      have : b = a := by simpa using h
      simp [this]
    · rw [lookup_cons_of_ne hy] at h
      exact List.mem_cons_of_mem _ (ih h)

theorem getElem?_idxOf_of_lookup {l : List (String × α)} {x : String} {a : α}
    (h : l.lookup x = some a) : l[(l.map Prod.fst).idxOf x]? = some (x, a) := by
  induction l with
  | nil => simp at h
  | cons q rest ih =>
    obtain ⟨y, b⟩ := q
    by_cases hy : x = y
    · subst hy
      have hb : b = a := by simpa using h
      simp [hb]
    · rw [lookup_cons_of_ne hy] at h
      simpa [List.idxOf_cons_ne _ (Ne.symm hy)] using ih h

/-- The place of a name does not depend on the names behind it. -/
theorem idxOf_of_prefix {x : String} {l l' : List String} (h : l <+: l') (hx : x ∈ l) :
    l'.idxOf x = l.idxOf x := by
  obtain ⟨rest, rfl⟩ := h
  rw [List.idxOf_append_of_mem hx]

theorem idxOf_placed (x : String) (a : α) (l : List (String × α)) :
    ((placed x a l).map Prod.fst).idxOf x = (l.map Prod.fst).idxOf x := by
  by_cases h : x ∈ l.map Prod.fst
  · rw [names_placed_of_mem a h]
  · rw [placed_of_notMem a h, List.map_append, List.idxOf_append_of_notMem h,
      List.idxOf_eq_length_iff.mpr h]
    simp

end Placed

/-- The class that is found under a name is the first one in the list that has it. -/
theorem class?_split {classes : List ClassDecl} {cls : String} {c : ClassDecl}
    {earlier : List ClassDecl} (h : class? classes cls = some (c, earlier)) :
    c.name = cls ∧ ∃ later, classes = later ++ c :: earlier ∧ ∀ d ∈ later, d.name ≠ cls := by
  induction classes with
  | nil => simp [class?] at h
  | cons d rest ih =>
    by_cases hd : d.name = cls
    · simp only [class?, hd, if_true, Option.some.injEq, Prod.mk.injEq] at h
      obtain ⟨rfl, rfl⟩ := h
      exact ⟨hd, [], rfl, by simp⟩
    · simp only [class?, hd, if_false] at h
      obtain ⟨hc, later, rfl, hlater⟩ := ih h
      exact ⟨hc, d :: later, rfl, List.forall_mem_cons.mpr ⟨hd, hlater⟩⟩

theorem class?_name {classes : List ClassDecl} {cls : String} {c : ClassDecl}
    {earlier : List ClassDecl} (h : class? classes cls = some (c, earlier)) : c.name = cls :=
  (class?_split h).1

theorem class?_suffix {classes : List ClassDecl} {cls : String} {c : ClassDecl}
    {earlier : List ClassDecl} (h : class? classes cls = some (c, earlier)) :
    c :: earlier <:+ classes := by
  obtain ⟨-, later, rfl, -⟩ := class?_split h
  exact List.suffix_append later _

theorem class?_isSome {classes : List ClassDecl} {cls : String} :
    (∃ c earlier, class? classes cls = some (c, earlier)) ↔ cls ∈ classes.map ClassDecl.name := by
  induction classes with
  | nil => simp [class?]
  | cons d rest ih =>
    by_cases hd : d.name = cls
    · simp [class?, hd]
    · simp only [class?, hd, if_false, List.map_cons, List.mem_cons, Ne.symm hd, false_or]
      exact ih

/-- A class that shares its name with none is the one found under it. -/
theorem class?_of_mem {classes : List ClassDecl} (hn : (classes.map ClassDecl.name).Nodup)
    {c : ClassDecl} (hc : c ∈ classes) : ∃ earlier, class? classes c.name = some (c, earlier) := by
  induction classes with
  | nil => cases hc
  | cons d rest ih =>
    simp only [List.map_cons, List.nodup_cons] at hn
    rcases List.mem_cons.mp hc with rfl | hc
    · exact ⟨rest, by simp [class?]⟩
    · have hne : d.name ≠ c.name := fun h => hn.1 (h ▸ List.mem_map_of_mem hc)
      obtain ⟨earlier, he⟩ := ih hn.2 hc
      exact ⟨earlier, by simp [class?, hne, he]⟩

theorem layout?_eq {classes : List ClassDecl} {cls : String} {c : ClassDecl}
    {earlier : List ClassDecl} (h : class? classes cls = some (c, earlier)) :
    layout? classes cls = layout? (c :: earlier) c.name := by
  obtain ⟨rfl, later, rfl, hlater⟩ := class?_split h
  clear h
  induction later with
  | nil => rfl
  | cons d later ih =>
    obtain ⟨hd, hlater⟩ := List.forall_mem_cons.mp hlater
    rw [List.cons_append, layout?, if_neg hd, ih hlater]

theorem layout?_isSome {classes : List ClassDecl} {cls : String} {l : Layout}
    (h : layout? classes cls = some l) : ∃ c earlier, class? classes cls = some (c, earlier) := by
  induction classes with
  | nil => simp [layout?] at h
  | cons d rest ih =>
    by_cases hd : d.name = cls
    · exact ⟨d, rest, by simp [class?, hd]⟩
    · simp only [layout?, hd, if_false] at h
      obtain ⟨c, earlier, hc⟩ := ih h
      exact ⟨c, earlier, by simp [class?, hd, hc]⟩

end Classlet
