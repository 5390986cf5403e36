import Classlet.Execute
import Classlet.Proofs.Numerals

/-!
A listing and the code words that assembly makes of its text. The lines of the
text are read back as the lines of the listing, so a label stands for the number
of code words before its line and the code is what the lines say, one after the
other. The only thing assembly can miss is the line of a label that is referred
to.
-/

namespace Classlet

/-! Code words of a listing. -/

/-- The number of code words of an instruction. -/
def Instr.size : Instr → Nat
  | .plain _ => 1
  | .push _ | .pushLabel _ | .jump _ _ => 2

/-- The code words of an instruction, given where labels are. -/
def Instr.words (address : Label → Word) : Instr → List Word
  | .push w => [Operation.push.toWord, w]
  | .pushLabel l => [Operation.push.toWord, address l]
  | .plain op => [(Operation.plain op).toWord]
  | .jump test l => [(Operation.jump test).toWord, address l]

def Line.size : Line → Nat
  | .label _ => 0
  | .instr i => i.size

def Line.words (address : Label → Word) : Line → List Word
  | .label _ => []
  | .instr i => i.words address

/-- The number of code words of some lines. -/
def Line.sizes : List Line → Nat
  | [] => 0
  | line :: lines => line.size + Line.sizes lines

namespace Listing

/-- The number of code words before the line of a label. -/
def position (L : Listing) (l : Label) : Nat :=
  Line.sizes (L.lines.takeWhile fun line => line != .label l)

/-- The word that a label stands for. -/
def address (L : Listing) (l : Label) : Word := Int64.ofNat (L.position l)

/-- The code words of a listing. -/
def code (L : Listing) : List Word := L.lines.flatMap (Line.words L.address)

/-- Every label that is referred to has a line. -/
def Closed (L : Listing) : Prop := ∀ i ∈ L.instrs, ∀ l, i.target? = some l → l ∈ L.labels

end Listing

theorem Line.length_words (address : Label → Word) (line : Line) :
    (line.words address).length = line.size := by
  cases line with
  | label l => rfl
  | instr i => cases i <;> rfl

@[simp] theorem Line.sizes_nil : Line.sizes [] = 0 := rfl

@[simp] theorem Line.sizes_cons (line : Line) (lines : List Line) :
    Line.sizes (line :: lines) = line.size + Line.sizes lines := rfl

@[simp] theorem Line.sizes_append (a b : List Line) :
    Line.sizes (a ++ b) = Line.sizes a + Line.sizes b := by
  induction a with
  | nil => rw [List.nil_append, sizes_nil, Nat.zero_add]
  | cons line a ih => rw [List.cons_append, sizes_cons, sizes_cons, ih, Nat.add_assoc]

theorem Line.length_flatMap_words (address : Label → Word) (lines : List Line) :
    (lines.flatMap (Line.words address)).length = Line.sizes lines := by
  induction lines with
  | nil => rfl
  | cons line lines ih => simp [ih, Line.length_words]

/-! Texts cut into pieces. -/

namespace Text

theorem pieces_of_plain {separator : Char → Bool} {w : List Char}
    (hw : ∀ c ∈ w, separator c = false) : pieces separator w = [w] := by
  induction w with
  | nil => rfl
  | cons c w ih =>
    have ih := ih fun c' hc' => hw c' (by simp [hc'])
    simp only [pieces, List.foldr_cons, hw c (by simp)] at ih ⊢
    rw [ih]
    rfl

theorem pieces_append {separator : Char → Bool} {w : List Char} {s : Char} (rest : List Char)
    (hw : ∀ c ∈ w, separator c = false) (hs : separator s = true) :
    pieces separator (w ++ s :: rest) = w :: pieces separator rest := by
  induction w with
  | nil => simp [pieces, hs]
  | cons c w ih =>
    have ih := ih fun c' hc' => hw c' (by simp [hc'])
    simp only [pieces, List.cons_append, List.foldr_cons, hw c (by simp)] at ih ⊢
    rw [ih]
    rfl

/-- A word is a text that is not empty and has no blanks. -/
def IsWord (cs : List Char) : Prop := cs ≠ [] ∧ ∀ c ∈ cs, isBlank c = false

theorem tokens_of_isWord {cs : List Char} (h : IsWord cs) : tokens cs = [cs] := by
  rw [tokens, pieces_of_plain h.2]
  simp [h.1]

theorem tokens_pair {a b : List Char} (ha : IsWord a) (hb : IsWord b) :
    tokens (a ++ ' ' :: b) = [a, b] := by
  rw [tokens, pieces_append b ha.2 (by decide), pieces_of_plain hb.2]
  simp [ha.1, hb.1]

theorem isBlank_of_isDigit {c : Char} (h : c.isDigit) : isBlank c = false := by
  have hrange : 48 ≤ c.toNat ∧ c.toNat ≤ 57 := by
    simp only [Char.isDigit, Bool.and_eq_true, decide_eq_true_eq] at h
    exact ⟨UInt32.le_iff_toNat_le.mp h.1, UInt32.le_iff_toNat_le.mp h.2⟩
  rw [← Bool.not_eq_true]
  simp only [isBlank, blankRanges, List.any_cons, List.any_nil, Bool.or_eq_true,
    Bool.and_eq_true, decide_eq_true_eq, Bool.false_eq_true, or_false]
  omega

/-- A line break is a blank. -/
theorem not_break_of_isBlank {c : Char} (h : isBlank c = false) : (c == '\n') = false := by
  rw [beq_eq_false_iff_ne]
  rintro rfl
  exact absurd h (by decide)

end Text

theorem Numeral.isWord_text (w : Word) : Text.IsWord (Numeral.text w).toList := by
  refine ⟨Numeral.text_ne_nil w, fun c hc => ?_⟩
  rcases Numeral.mem_text hc with rfl | hdigit
  · decide
  · exact Text.isBlank_of_isDigit hdigit

theorem Label.isWord_text (l : Label) : Text.IsWord l.text.toList := by
  refine ⟨l.text_ne_nil, fun c hc => ?_⟩
  rcases Label.mem_text hc with hletter | hdigit
  · have hall : ['l', 'a', 'b', 'e', 'f', 'u', 'n', 'c', 't', 'i', 'o'].all
        (fun c => !Text.isBlank c) := by
      decide
    simpa using List.all_eq_true.mp hall c hletter
  · exact Text.isBlank_of_isDigit hdigit

theorem Operation.mem_all (o : Operation) : o ∈ Operation.all.toList := by
  cases o with
  | push => decide
  | plain op =>
    cases op with
    | arith op => cases op <;> decide
    | pushReg r => cases r <;> decide
    | popReg r => cases r <;> decide
    | _ => decide
  | jump test => cases test <;> decide

theorem Operation.ofMnemonic?_mnemonic (o : Operation) :
    Operation.ofMnemonic? o.mnemonic = some o := by
  have hall : ∀ o ∈ Operation.all.toList, Operation.ofMnemonic? o.mnemonic = some o := by
    decide +kernel
  exact hall o o.mem_all

theorem Operation.ofWord?_toWord (o : Operation) : Operation.ofWord? o.toWord = some o := by
  have hall : ∀ o ∈ Operation.all.toList, Operation.ofWord? o.toWord = some o := by
    decide +kernel
  exact hall o o.mem_all

theorem Operation.isWord_mnemonic (o : Operation) : Text.IsWord o.mnemonic.toList := by
  have hall : Operation.all.toList.all (fun o => !o.mnemonic.toList.isEmpty &&
      o.mnemonic.toList.all fun c => !Text.isBlank c) := by
    decide +kernel
  have ho := List.all_eq_true.mp hall o o.mem_all
  rw [Bool.and_eq_true, List.all_eq_true] at ho
  exact ⟨fun hnil => by simp [hnil] at ho, fun c hc => by simpa using ho.2 c hc⟩

/-- No mnemonic looks like the definition of a label. -/
theorem Operation.definedLabel?_mnemonic (o : Operation) :
    Statement.definedLabel? o.mnemonic.toList = none := by
  have hall : ∀ o ∈ Operation.all.toList,
      Statement.definedLabel? o.mnemonic.toList = none := by
    decide +kernel
  exact hall o o.mem_all

/-! A line is read back as the statement it stands for. -/

def Instr.operand? : Instr → Option Operand
  | .push w => some (.number w)
  | .pushLabel l | .jump _ l => some (.label l.text)
  | .plain _ => none

def Line.statement : Line → Statement
  | .label l => { labels := [l.text] }
  | .instr i => { instr := some (i.operation, i.operand?) }

theorem Line.size_statement (line : Line) : line.statement.size = line.size := by
  cases line with
  | label l => rfl
  | instr i => cases i <;> rfl

theorem Line.isWord_label (l : Label) : Text.IsWord (Line.label l).text.toList := by
  have htext : (Line.label l).text.toList = l.text.toList ++ [':'] := by
    simp [Line.text, String.toList_append]
  rw [htext]
  refine ⟨by simp, fun c hc => ?_⟩
  rcases List.mem_append.mp hc with hc | hc
  · exact l.isWord_text.2 c hc
  · rw [List.mem_singleton.mp hc]
    decide

theorem Instr.isWord_operandText {i : Instr} {operand : String}
    (h : i.operandText? = some operand) : Text.IsWord operand.toList := by
  cases i with
  | push w => cases h; exact Numeral.isWord_text w
  | pushLabel l => cases h; exact l.isWord_text
  | plain op => cases h
  | jump test l => cases h; exact l.isWord_text

/-- No line has a line break in its text. -/
theorem Line.text_plain (line : Line) : ∀ c ∈ line.text.toList, (c == '\n') = false := by
  intro c hc
  cases line with
  | label l => exact Text.not_break_of_isBlank ((Line.isWord_label l).2 c hc)
  | instr i =>
    simp only [Line.text, Instr.text] at hc
    split at hc
    · rename_i operand hoperand
      simp only [String.toList_append, List.mem_append] at hc
      rcases hc with (hc | hc) | hc
      · exact Text.not_break_of_isBlank (i.operation.isWord_mnemonic.2 c hc)
      · rw [List.mem_singleton.mp (show c ∈ [' '] from hc)]
        decide
      · exact Text.not_break_of_isBlank ((Instr.isWord_operandText hoperand).2 c hc)
    · exact Text.not_break_of_isBlank (i.operation.isWord_mnemonic.2 c hc)

theorem Statement.operand_text (w : Word) :
    Statement.operand (Numeral.text w).toList = .number w := by
  simp [Statement.operand, Numeral.read?_text]

theorem Statement.operand_label (l : Label) :
    Statement.operand l.text.toList = .label l.text := by
  simp [Statement.operand, Label.read?_text]

/-- The operand of an instruction is what its operation takes. -/
theorem Instr.operands?_text (i : Instr) :
    Statement.operands? i.operation.operandKind (i.operandText?.map String.toList).toList =
      some i.operand? := by
  cases i <;>
    simp [Instr.operation, Operation.operandKind, Instr.operandText?, Instr.operand?,
      Statement.operands?, Statement.operand_text, Statement.operand_label]

theorem Instr.tokens_text (i : Instr) :
    Text.tokens i.text.toList =
      i.operation.mnemonic.toList :: (i.operandText?.map String.toList).toList := by
  unfold Instr.text
  split
  · rename_i operand hoperand
    have happend : (i.operation.mnemonic ++ " " ++ operand).toList =
        i.operation.mnemonic.toList ++ ' ' :: operand.toList := by
      simp [String.toList_append]
    rw [happend, Text.tokens_pair i.operation.isWord_mnemonic
      (Instr.isWord_operandText hoperand), hoperand]
    rfl
  · rename_i hoperand
    rw [Text.tokens_of_isWord i.operation.isWord_mnemonic, hoperand]
    rfl

theorem Line.ofTokens_text (n : Nat) (line : Line) :
    Statement.ofTokens n (Text.tokens line.text.toList) = .ok line.statement := by
  cases line with
  | label l =>
    have htext : (Line.label l).text.toList = l.text.toList ++ [':'] := by
      simp [Line.text, String.toList_append]
    rw [Text.tokens_of_isWord (Line.isWord_label l), htext]
    simp [Statement.ofTokens, Statement.splitLabels, Statement.definedLabel?, Line.statement]
  | instr i =>
    simp only [Line.text, Instr.tokens_text]
    simp [Statement.ofTokens, Statement.splitLabels, Operation.definedLabel?_mnemonic,
      Operation.ofMnemonic?_mnemonic, Instr.operands?_text, Line.statement]

/-- The text of a listing has one line for each of its lines, and an empty one
at the end. -/
theorem Listing.lines_text (L : Listing) :
    Text.lines L.text.toList = L.lines.map (fun line => line.text.toList) ++ [[]] := by
  have htext : L.text.toList = L.lines.flatMap fun line => line.text.toList ++ ['\n'] := by
    simp [Listing.text, String.toList_join, List.flatMap_map, String.toList_append]
  rw [htext]
  induction L.lines with
  | nil => rfl
  | cons line lines ih =>
    have hbreak : ('\n' == '\n') = true := by decide
    have hcut := Text.pieces_append (lines.flatMap fun line => line.text.toList ++ ['\n'])
      line.text_plain hbreak
    simp only [List.flatMap_cons, List.append_assoc, List.map_cons, List.cons_append]
    rw [← ih]
    exact hcut

theorem Statement.ofLines_text (n : Nat) (lines : List Line) :
    Statement.ofLines n (lines.map (fun line => line.text.toList) ++ [[]]) =
      .ok (lines.map Line.statement ++ [⟨[], none⟩]) := by
  induction lines generalizing n with
  | nil => rfl
  | cons line lines ih =>
    simp only [List.map_cons, List.cons_append, Statement.ofLines, Line.ofTokens_text, ih]
    rfl

/-! Labels and where they are. -/

theorem Statement.lookup_addresses (start : Nat) (lines : List Line) (l : Label)
    (hl : Line.label l ∈ lines) :
    (Statement.addresses start (lines.map Line.statement ++ [⟨[], none⟩])).lookup l.text =
      some (start + Line.sizes (lines.takeWhile fun line => line != .label l)) := by
  induction lines generalizing start with
  | nil => cases hl
  | cons line lines ih =>
    by_cases hhead : line = .label l
    · subst hhead
      simp [Statement.addresses, Line.statement]
    · have hl' : Line.label l ∈ lines := by
        rcases List.mem_cons.mp hl with h | h
        · exact absurd h.symm hhead
        · exact h
      have hnone : (line.statement.labels.map fun x => (x, start)).lookup l.text = none := by
        cases line with
        | label l' =>
          have hne : l.text ≠ l'.text := fun h => hhead (by rw [Label.text_injective h])
          simp [Line.statement, List.lookup_cons, beq_false_of_ne hne]
        | instr i => rfl
      have hne : (line != Line.label l) = true := by simpa using hhead
      simp only [List.map_cons, List.cons_append, Statement.addresses, List.lookup_append, hnone,
        Option.none_or, ih _ hl', List.takeWhile_cons, hne, if_true, Line.sizes_cons,
        Line.size_statement]
      congr 1
      omega

theorem Statement.encode_statement {table : List (String × Nat)} {address : Label → Nat}
    {line : Line}
    (h : ∀ i, line = .instr i → ∀ l, i.target? = some l → table.lookup l.text = some (address l)) :
    line.statement.encode table = .ok (line.words fun l => Int64.ofNat (address l)) := by
  cases line with
  | label l => rfl
  | instr i =>
    have htarget := h i rfl
    cases i with
    | push w => rfl
    | plain op => rfl
    | pushLabel l =>
      simp only [Line.statement, Instr.operand?, Statement.encode, Statement.operandWord,
        htarget l rfl]
      rfl
    | jump test l =>
      simp only [Line.statement, Instr.operand?, Statement.encode, Statement.operandWord,
        htarget l rfl]
      rfl

theorem Statement.encodeAll_statements {table : List (String × Nat)} {address : Label → Nat}
    {lines : List Line}
    (h : ∀ i, Line.instr i ∈ lines → ∀ l, i.target? = some l →
      table.lookup l.text = some (address l)) :
    Statement.encodeAll table (lines.map Line.statement ++ [⟨[], none⟩]) =
      .ok (lines.flatMap (Line.words fun l => Int64.ofNat (address l))) := by
  induction lines with
  | nil => rfl
  | cons line lines ih =>
    have hline : line.statement.encode table =
        .ok (line.words fun l => Int64.ofNat (address l)) := by
      apply Statement.encode_statement
      rintro i rfl
      exact h i (by simp)
    have hrest := ih fun i hi => h i (by simp [hi])
    simp only [List.map_cons, List.cons_append, Statement.encodeAll, hline, hrest]
    rfl

theorem Listing.mem_instrs {L : Listing} {i : Instr} :
    i ∈ L.instrs ↔ Line.instr i ∈ L.lines := by
  simp only [Listing.instrs, List.mem_filterMap]
  constructor
  · rintro ⟨line, hline, hi⟩
    cases line with
    | label l => cases hi
    | instr i' => cases hi; exact hline
  · intro hi
    exact ⟨_, hi, rfl⟩

theorem Listing.mem_labels {L : Listing} {l : Label} :
    l ∈ L.labels ↔ Line.label l ∈ L.lines := by
  simp only [Listing.labels, List.mem_filterMap]
  constructor
  · rintro ⟨line, hline, hl⟩
    cases line with
    | label l' => cases hl; exact hline
    | instr i => cases hl
  · intro hl
    exact ⟨_, hl, rfl⟩

/-- Assembly of the text of a closed listing gives the code of the listing. -/
theorem Listing.assemble_text (L : Listing) (h : L.Closed) : assemble L.text = .ok L.code := by
  have hencode : Statement.encodeAll
      (Statement.addresses 0 (L.lines.map Line.statement ++ [⟨[], none⟩]))
      (L.lines.map Line.statement ++ [⟨[], none⟩]) = .ok L.code := by
    apply Statement.encodeAll_statements
    intro i hi l hl
    have hlabel := Listing.mem_labels.mp (h i (Listing.mem_instrs.mpr hi) l hl)
    rw [Statement.lookup_addresses 0 L.lines l hlabel, Nat.zero_add]
    rfl
  unfold assemble
  rw [Listing.lines_text, Statement.ofLines_text]
  exact hencode

/-- Without two lines for one label, the address of a label is the number of code
words before its line. -/
theorem Listing.position_eq {L : Listing} {before after : List Line} {l : Label}
    (hn : L.labels.Nodup) (h : L.lines = before ++ .label l :: after) :
    L.position l = Line.sizes before := by
  have hfresh : Line.label l ∉ before := by
    intro hmem
    have hsplit : L.labels = before.filterMap Line.label? ++ l :: after.filterMap Line.label? := by
      simp [Listing.labels, h, Line.label?]
    rw [hsplit, List.nodup_append] at hn
    exact hn.2.2 l (List.mem_filterMap.mpr ⟨_, hmem, rfl⟩) l (by simp) rfl
  have htake : (before ++ Line.label l :: after).takeWhile (fun line => line != .label l) =
      before := by
    rw [List.takeWhile_append_of_pos]
    · simp
    · intro line hline
      have hne : line ≠ .label l := fun heq => hfresh (heq ▸ hline)
      simpa using hne
  rw [Listing.position, h, htake]

/-- The code words at the place of a line. -/
theorem Listing.code_split {L : Listing} {before after : List Line} {line : Line}
    (h : L.lines = before ++ line :: after) :
    L.code = before.flatMap (Line.words L.address) ++ line.words L.address ++
      after.flatMap (Line.words L.address) := by
  rw [Listing.code, h]
  simp

end Classlet
