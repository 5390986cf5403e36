import Classlet.Proofs.AssemblyGrammar

/-!
The direct encoding of a listing, and that assembly of its text is this encoding for
every listing, closed or not. The code words of the lines follow one another, and a
label stands for the number of code words before its first line. A label without a
line is looked up in vain, so the first of these among the operands, in the order of
the lines, is the one that assembly reports.
-/

namespace Classlet

/-- The label that a line refers to. -/
def Line.target? (line : Line) : Option Label := line.instr?.bind Instr.target?

namespace Listing

/-- The labels that the instructions refer to, in the order of the lines. -/
def targets (L : Listing) : List Label := L.lines.filterMap Line.target?

/-- The number of code words before the first line of a label, whatever it is that
labels stand for in them. -/
def wordsBefore (L : Listing) (l : Label) : Nat :=
  ((L.lines.takeWhile fun line => line != .label l).flatMap (Line.words fun _ => 0)).length

/-- The code words of a listing, or the first label that is referred to and has no
line. -/
def encoding (L : Listing) : Except AssemblyError (List Word) :=
  match L.targets.find? fun l => l ∉ L.labels with
  | none => .ok (L.lines.flatMap (Line.words fun l => Int64.ofNat (L.wordsBefore l)))
  | some l => .error (.undefinedLabel l.text)

theorem code_eq (L : Listing) :
    L.code = L.lines.flatMap (Line.words fun l => Int64.ofNat (L.wordsBefore l)) := by
  have haddress : L.address = fun l => Int64.ofNat (L.wordsBefore l) := by
    funext l
    rw [address, wordsBefore, Line.length_flatMap_words, position]
  rw [code, haddress]

theorem mem_targets {L : Listing} {l : Label} :
    l ∈ L.targets ↔ ∃ i ∈ L.instrs, i.target? = some l := by
  simp only [targets, Line.target?, instrs, List.mem_filterMap, Option.bind_eq_some_iff]
  constructor
  · rintro ⟨line, hline, i, hi, hl⟩
    exact ⟨i, ⟨line, hline, hi⟩, hl⟩
  · rintro ⟨i, ⟨line, hline, hi⟩, hl⟩
    exact ⟨line, hline, i, hi, hl⟩

theorem closed_iff {L : Listing} :
    L.Closed ↔ L.targets.find? (fun l => l ∉ L.labels) = none := by
  simp only [List.find?_eq_none, decide_eq_true_eq, Decidable.not_not, mem_targets, Closed]
  constructor
  · rintro h l ⟨i, hi, hl⟩
    exact h i hi l hl
  · intro h i hi l hl
    exact h l ⟨i, hi, hl⟩

end Listing

namespace Statement

/-- The lines define the labels among them. -/
theorem definitions_statements (lines : List Line) :
    definitions (lines.map Line.statement ++ [⟨[], none⟩]) =
      (lines.filterMap Line.label?).map Label.text := by
  induction lines with
  | nil => rfl
  | cons line lines ih =>
    rw [List.map_cons, List.cons_append, definitions, List.flatMap_cons, ← definitions, ih]
    cases line <;> rfl

theorem references_statements (lines : List Line) :
    references (lines.map Line.statement ++ [⟨[], none⟩]) =
      (lines.filterMap Line.target?).map Label.text := by
  induction lines with
  | nil => rfl
  | cons line lines ih =>
    rw [List.map_cons, List.cons_append, references, List.filterMap_cons, ← references, ih]
    cases line with
    | label l => rfl
    | instr i => cases i <;> rfl

/-- A label has an address exactly if it has a line. -/
theorem lookup_addresses_isNone (L : Listing) (l : Label) :
    ((addresses 0 (L.lines.map Line.statement ++ [⟨[], none⟩])).lookup l.text).isNone =
      decide (l ∉ L.labels) := by
  rw [lookup_addresses_isNone_eq, definitions_statements]
  congr 2
  rw [List.mem_map_of_injective fun _ _ h => Label.text_injective h]
  rfl

/-- Lines are encoded in their order, so the first label that is not in the table is
reported. -/
theorem encodeAll_undefined {table : List (String × Nat)} {lines : List Line} {l : Label}
    (h : (lines.filterMap Line.target?).find? (fun l => (table.lookup l.text).isNone) = some l) :
    encodeAll table (lines.map Line.statement ++ [⟨[], none⟩]) =
      .error (.undefinedLabel l.text) := by
  refine encodeAll_eq_error ?_
  rw [references_statements, List.find?_map]
  exact congrArg (Option.map Label.text) h

end Statement

/-- Assembly of the text of a listing gives its direct encoding. -/
theorem Listing.assemble_text_eq_encoding (L : Listing) : assemble L.text = L.encoding := by
  unfold encoding
  split
  · rename_i hnone
    rw [assemble_text L (closed_iff.mpr hnone), code_eq]
  · rename_i l hsome
    have hmissing : (L.lines.filterMap Line.target?).find? (fun l =>
        ((Statement.addresses 0 (L.lines.map Line.statement ++ [⟨[], none⟩])).lookup
          l.text).isNone) = some l := by
      simpa only [Statement.lookup_addresses_isNone, targets] using hsome
    unfold assemble
    rw [lines_text, Statement.ofLines_text]
    exact Statement.encodeAll_undefined hmissing

end Classlet
