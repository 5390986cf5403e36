import Classlet.Proofs.Assembly
import Mathlib.Data.List.Forall2

/-!
The texts that assembly accepts. The grammar is one of rows and their tokens: any number of
labels, and then at most one instruction that has an operand exactly if its operation takes
one. All rows are read before any label is looked up. So the first row that is not of the
grammar is reported whatever labels there are, and the first operand without a definition
only if all rows are of the grammar.
-/

namespace Classlet

namespace Text

/-- A row without a carriage return at its end. -/
def dropReturn (w : List Char) : List Char :=
  if w.getLast? = some '\r' then w.dropLast else w

/-- The rows of a text: what ends in a line break, without the break and a carriage return
before it, and what follows the last line break unless it is empty. -/
def rows (cs : List Char) : List (List Char) :=
  (lines cs).dropLast.map dropReturn ++ (lines cs).getLast?.toList.filter fun w => !w.isEmpty

end Text

/-- The tokens of the rows of a text. -/
def rowTokens (source : String) : List (List (List Char)) :=
  (Text.rows source.toList).map Text.tokens

namespace Numeral

/-- A run of decimal digits with its value. -/
structure IsRun (ds : List Char) (n : Nat) : Prop where
  nonempty : ds ≠ []
  digits : ∀ c ∈ ds, c.isDigit = true
  value : n = Nat.ofDigitChars 10 ds 0

/-- The numerals of a word: digits, with or without a sign before them. -/
inductive Denotes : List Char → Word → Prop
  | bare {ds : List Char} {n : Nat} {w : Word} : IsRun ds n → w.toInt = n → Denotes ds w
  | plus {ds : List Char} {n : Nat} {w : Word} : IsRun ds n → w.toInt = n → Denotes ('+' :: ds) w
  | minus {ds : List Char} {n : Nat} {w : Word} :
    IsRun ds n → w.toInt = -(n : Int) → Denotes ('-' :: ds) w

end Numeral

namespace Statement

/-- The statement that the tokens of a row are written for. -/
inductive Written : List (List Char) → Statement → Prop
  | empty : Written [] {}
  | label {tokens : List (List Char)} {s : Statement} (l : List Char) (rest : Written tokens s) :
    Written ((l ++ [':']) :: tokens) { s with labels := String.ofList l :: s.labels }
  | plain (op : PlainOp) :
    Written [(Operation.plain op).mnemonic.toList] { instr := some (.plain op, none) }
  | pushNumber {token : List Char} {w : Word} (numeral : Numeral.Denotes token w) :
    Written [Operation.push.mnemonic.toList, token] { instr := some (.push, some (.number w)) }
  | pushLabel {token : List Char} (noNumeral : ∀ w, ¬ Numeral.Denotes token w) :
    Written [Operation.push.mnemonic.toList, token]
      { instr := some (.push, some (.label (String.ofList token))) }
  | jump (test : JumpTest) {token : List Char} (noNumeral : ∀ w, ¬ Numeral.Denotes token w) :
    Written [(Operation.jump test).mnemonic.toList, token]
      { instr := some (.jump test, some (.label (String.ofList token))) }

/-- The tokens of a row that is of the grammar. -/
def WellFormed (tokens : List (List Char)) : Prop := ∃ s, Written tokens s

/-- The label that a statement refers to. -/
def reference? (s : Statement) : Option String :=
  match s.instr with
  | some (_, some (.label l)) => some l
  | some (_, some (.number _)) | some (_, none) | none => none

/-- The labels that statements refer to, in text order. -/
def references (ss : List Statement) : List String := ss.filterMap reference?

def definitions (ss : List Statement) : List String := ss.flatMap labels

end Statement

/-- The error is one of the given line. -/
def AssemblyError.Blames (e : AssemblyError) (line : Nat) : Prop :=
  ∃ mnemonic, e = .unknownMnemonic mnemonic line ∨ e = .badOperand mnemonic line

/-! Rows and lines have the same tokens. -/

namespace Text

theorem pieces_ne_nil (separator : Char → Bool) (cs : List Char) : pieces separator cs ≠ [] := by
  cases cs with
  | nil => simp [pieces]
  | cons c cs =>
    rw [pieces, List.foldr_cons]
    split
    · simp
    · unfold consHead
      split <;> simp

theorem consHead_append (c : Char) {ws : List (List Char)} (rest : List (List Char))
    (h : ws ≠ []) : consHead c (ws ++ rest) = consHead c ws ++ rest := by
  cases ws with
  | nil => exact absurd rfl h
  | cons w ws => rfl

/-- A separator at the end adds an empty piece. -/
theorem pieces_concat {separator : Char → Bool} {s : Char} (hs : separator s = true)
    (cs : List Char) : pieces separator (cs ++ [s]) = pieces separator cs ++ [[]] := by
  induction cs with
  | nil => simp [pieces, hs]
  | cons c cs ih =>
    have hne := pieces_ne_nil separator cs
    simp only [pieces, List.cons_append, List.foldr_cons] at ih hne ⊢
    rw [ih]
    split
    · rfl
    · exact consHead_append c _ hne

/-- A carriage return is a blank. -/
theorem tokens_dropReturn (w : List Char) : tokens (dropReturn w) = tokens w := by
  unfold dropReturn
  split
  · rename_i h
    have hw : w = w.dropLast ++ ['\r'] := (List.dropLast_append_getLast? _ h).symm
    conv_rhs => rw [hw]
    rw [tokens, tokens, pieces_concat (by decide), List.filter_append]
    exact (List.append_nil _).symm
  · rfl

/-- The lines have one more at most, which is empty. -/
theorem tokens_lines (cs : List Char) :
    (lines cs).map tokens = (rows cs).map tokens ∨
      (lines cs).map tokens = (rows cs).map tokens ++ [[]] := by
  have hne : lines cs ≠ [] := pieces_ne_nil _ cs
  have hlines := List.dropLast_concat_getLast hne
  have hdrop : ((lines cs).dropLast.map dropReturn).map tokens =
      (lines cs).dropLast.map tokens := by
    rw [List.map_map]
    exact List.map_congr_left fun w _ => tokens_dropReturn w
  rw [rows, List.map_append, hdrop, List.getLast?_eq_some_getLast hne]
  generalize (lines cs).getLast hne = last at hlines
  rw [← hlines, List.map_append, List.dropLast_concat]
  cases last with
  | nil => exact Or.inr (by simp [tokens, pieces])
  | cons c w => exact Or.inl (by simp)

end Text

/-! Numerals. -/

namespace Numeral

theorem readNat?_eq_some {ds : List Char} {n : Nat} : readNat? ds = some n ↔ IsRun ds n := by
  unfold readNat?
  constructor
  · intro h
    split at h
    · rename_i hd
      rw [Bool.and_eq_true, List.all_eq_true] at hd
      exact ⟨by simpa using hd.1, hd.2, (Option.some.inj h).symm⟩
    · cases h
  · rintro ⟨hne, hdigits, rfl⟩
    rw [if_pos]
    rw [Bool.and_eq_true, List.all_eq_true]
    exact ⟨by simpa using hne, hdigits⟩

theorem ofInt?_eq_some {n : Int} {w : Word} : Word.ofInt? n = some w ↔ w.toInt = n := by
  constructor
  · intro h
    unfold Word.ofInt? at h
    split at h
    · rename_i hrange
      rw [Int64.toInt_minValue, Int64.toInt_maxValue] at hrange
      rw [← Option.some.inj h]
      exact Int64.toInt_ofInt_of_le hrange.1 (by omega)
    · cases h
  · rintro rfl
    exact ofInt?_toInt w

/-- Reading a numeral finds the word that it is a numeral of. -/
theorem read?_eq_some {cs : List Char} {w : Word} : read? cs = some w ↔ Denotes cs w := by
  have hsplit : read? cs = some w ↔ ∃ k, readInt? cs = some k ∧ w.toInt = k := by
    simp only [read?, Option.bind_eq_some_iff, ofInt?_eq_some]
  rw [hsplit]
  constructor
  · rintro ⟨k, hk, hw⟩
    unfold readInt? at hk
    split at hk <;>
      simp only [Option.map_eq_some_iff, Option.bind_eq_bind, Option.bind_eq_some_iff,
        Option.pure_def, Option.some.injEq] at hk <;>
      obtain ⟨_, ⟨n, hn, rfl⟩, rfl⟩ := hk
    · exact .plus (readNat?_eq_some.mp hn) hw
    · exact .minus (readNat?_eq_some.mp hn) hw
    · exact .bare (readNat?_eq_some.mp hn) hw
  · rintro (⟨hrun, hw⟩ | ⟨hrun, hw⟩ | ⟨hrun, hw⟩)
    · refine ⟨_, ?_, hw⟩
      -- A run of digits has no sign.
      unfold readInt?
      split
      · exact absurd (hrun.digits '+' (by simp)) (by decide)
      · exact absurd (hrun.digits '-' (by simp)) (by decide)
      · rw [readNat?_eq_some.mpr hrun]
        rfl
    · refine ⟨_, ?_, hw⟩
      rw [readInt?, readNat?_eq_some.mpr hrun]
      rfl
    · refine ⟨_, ?_, hw⟩
      rw [readInt?, readNat?_eq_some.mpr hrun]
      rfl

theorem read?_eq_none {cs : List Char} : read? cs = none ↔ ∀ w, ¬ Denotes cs w := by
  simp only [Option.eq_none_iff_forall_ne_some, ne_eq, read?_eq_some]

end Numeral

theorem Operation.ofMnemonic?_eq_some {m : String} {o : Operation} :
    Operation.ofMnemonic? m = some o ↔ o.mnemonic = m := by
  constructor
  · intro h
    have ho := Array.find?_some h
    simpa using ho
  · rintro rfl
    exact o.ofMnemonic?_mnemonic

/-! One row. -/

namespace Statement

theorem definedLabel?_eq_some {token : List Char} {l : String} :
    definedLabel? token = some l ↔ token = l.toList ++ [':'] := by
  unfold definedLabel?
  constructor
  · intro h
    split at h
    · rename_i hlast
      cases h
      rw [String.toList_ofList]
      exact (List.dropLast_append_getLast? _ hlast).symm
    · cases h
  · rintro rfl
    simp

theorem operand_of_denotes {token : List Char} {w : Word} (h : Numeral.Denotes token w) :
    operand token = .number w := by
  rw [operand, Numeral.read?_eq_some.mpr h]

theorem operand_of_not_denotes {token : List Char} (h : ∀ w, ¬ Numeral.Denotes token w) :
    operand token = .label (String.ofList token) := by
  rw [operand, Numeral.read?_eq_none.mpr h]

theorem operand_cases (token : List Char) :
    (∃ w, operand token = .number w ∧ Numeral.Denotes token w) ∨
      operand token = .label (String.ofList token) ∧ ∀ w, ¬ Numeral.Denotes token w := by
  by_cases hw : ∃ w, Numeral.Denotes token w
  · obtain ⟨w, hw⟩ := hw
    exact Or.inl ⟨w, operand_of_denotes hw, hw⟩
  · rw [not_exists] at hw
    exact Or.inr ⟨operand_of_not_denotes hw, hw⟩

/-- A label in front of a row is defined by its statement, and nothing else is changed. -/
theorem ofTokens_label (line : Nat) (l : String) (tokens : List (List Char)) :
    ofTokens line ((l.toList ++ [':']) :: tokens) =
      (ofTokens line tokens).map fun s => { s with labels := l :: s.labels } := by
  unfold ofTokens
  rw [splitLabels, definedLabel?_eq_some.mpr rfl]
  rcases splitLabels tokens with ⟨ls, _ | ⟨word, rest⟩⟩
  · rfl
  · simp only
    cases Operation.ofMnemonic? (String.ofList word) with
    | none => rfl
    | some o =>
      simp only
      cases operands? o.operandKind rest <;> rfl

/-- The row of an operation without labels. -/
theorem ofTokens_mnemonic (line : Nat) (o : Operation) (rest : List (List Char)) :
    ofTokens line (o.mnemonic.toList :: rest) =
      (operands? o.operandKind rest).elim (.error (.badOperand o.mnemonic line))
        fun x => .ok { instr := some (o, x) } := by
  rw [ofTokens, splitLabels, o.definedLabel?_mnemonic]
  simp only [String.ofList_toList, o.ofMnemonic?_mnemonic]
  cases operands? o.operandKind rest <;> rfl

theorem ofTokens_of_written (line : Nat) {tokens : List (List Char)} {s : Statement}
    (h : Written tokens s) : ofTokens line tokens = .ok s := by
  induction h with
  | empty => rfl
  | label l rest ih =>
    have hlabel := ofTokens_label line (String.ofList l)
    rw [String.toList_ofList] at hlabel
    rw [hlabel, ih]
    rfl
  | plain op => rw [ofTokens_mnemonic, Operation.operandKind, operands?, Option.elim_some]
  | pushNumber numeral =>
    rw [ofTokens_mnemonic, Operation.operandKind, operands?, operand_of_denotes numeral,
      Option.elim_some]
  | pushLabel noNumeral =>
    rw [ofTokens_mnemonic, Operation.operandKind, operands?, operand_of_not_denotes noNumeral,
      Option.elim_some]
  | jump test noNumeral =>
    rw [ofTokens_mnemonic, Operation.operandKind, operands?, operand_of_not_denotes noNumeral,
      Option.elim_some]

/-- The tokens after a mnemonic that the operation takes. -/
theorem written_of_operands? {o : Operation} {rest : List (List Char)} {x : Option Operand}
    (h : operands? o.operandKind rest = some x) :
    Written (o.mnemonic.toList :: rest) { instr := some (o, x) } := by
  unfold operands? at h
  cases o with
  | push =>
    rcases rest with _ | ⟨token, _ | _⟩ <;> cases h
    rcases operand_cases token with ⟨w, hop, hw⟩ | ⟨hop, hw⟩
    · rw [hop]
      exact .pushNumber hw
    · rw [hop]
      exact .pushLabel hw
  | plain op =>
    rcases rest with _ | ⟨token, rest⟩ <;> cases h
    exact .plain op
  | jump test =>
    rcases rest with _ | ⟨token, _ | _⟩
    · cases h
    · rcases operand_cases token with ⟨w, hop, hw⟩ | ⟨hop, hw⟩
      · simp [Operation.operandKind, hop] at h
      · simp only [Operation.operandKind, hop, Option.some.injEq] at h
        rw [← h]
        exact .jump test hw
    · cases h

theorem written_of_ofTokens {line : Nat} {tokens : List (List Char)} {s : Statement}
    (h : ofTokens line tokens = .ok s) : Written tokens s := by
  induction tokens generalizing s with
  | nil =>
    cases h
    exact .empty
  | cons t ts ih =>
    cases hl : definedLabel? t with
    | some l =>
      obtain rfl := definedLabel?_eq_some.mp hl
      rw [ofTokens_label] at h
      cases hrest : ofTokens line ts with
      | error e =>
        rw [hrest] at h
        cases h
      | ok s' =>
        rw [hrest] at h
        cases h
        have hw := Written.label l.toList (ih hrest)
        rwa [String.ofList_toList] at hw
    | none =>
      cases hm : Operation.ofMnemonic? (String.ofList t) with
      | none => simp [ofTokens, splitLabels, hl, hm] at h
      | some o =>
        have ht : t = o.mnemonic.toList := by
          rw [Operation.ofMnemonic?_eq_some.mp hm, String.toList_ofList]
        rw [ht, ofTokens_mnemonic] at h
        cases ho : operands? o.operandKind ts with
        | none =>
          rw [ho] at h
          cases h
        | some x =>
          rw [ho] at h
          cases h
          rw [ht]
          exact written_of_operands? ho

/-- Reading a row gives the statement that it is written for, if there is one. -/
theorem ofTokens_eq_ok {line : Nat} {tokens : List (List Char)} {s : Statement} :
    ofTokens line tokens = .ok s ↔ Written tokens s :=
  ⟨written_of_ofTokens, ofTokens_of_written line⟩

theorem blames_of_ofTokens {line : Nat} {tokens : List (List Char)} {e : AssemblyError}
    (h : ofTokens line tokens = .error e) : e.Blames line := by
  unfold ofTokens at h
  split at h
  · cases h
  · simp only at h
    split at h
    · cases h
      exact ⟨_, Or.inl rfl⟩
    · split at h
      · cases h
        exact ⟨_, Or.inr rfl⟩
      · cases h

/-- Whether a row is of the grammar is found out by reading it. -/
instance (tokens : List (List Char)) : Decidable (WellFormed tokens) :=
  decidable_of_iff ((ofTokens 0 tokens).toBool = true) (by
    unfold WellFormed
    cases h : ofTokens 0 tokens with
    | ok s => exact iff_of_true rfl ⟨s, ofTokens_eq_ok.mp h⟩
    | error e =>
      refine iff_of_false (by simp [Except.toBool]) ?_
      rintro ⟨s, hs⟩
      rw [ofTokens_of_written 0 hs] at h
      cases h)

/-! All rows. -/

/-- Reads the tokens of rows that are numbered from `first` on. -/
def ofRows (first : Nat) : List (List (List Char)) → Except AssemblyError (List Statement)
  | [] => .ok []
  | t :: ts => do
    let s ← ofTokens first t
    return s :: (← ofRows (first + 1) ts)

theorem ofLines_eq_ofRows (first : Nat) (ls : List (List Char)) :
    ofLines first ls = ofRows first (ls.map Text.tokens) := by
  induction ls generalizing first with
  | nil => rfl
  | cons l ls ih => rw [ofLines, List.map_cons, ofRows, ih]

theorem ofRows_eq_ok {first : Nat} {ts : List (List (List Char))} {ss : List Statement} :
    ofRows first ts = .ok ss ↔ List.Forall₂ Written ts ss := by
  induction ts generalizing first ss with
  | nil =>
    rw [List.forall₂_nil_left_iff, ofRows]
    exact ⟨fun h => (Except.ok.inj h).symm, fun h => congrArg _ h.symm⟩
  | cons t ts ih =>
    rw [List.forall₂_cons_left_iff, ofRows]
    constructor
    · intro h
      cases hs : ofTokens first t with
      | error e =>
        rw [hs] at h
        cases h
      | ok s =>
        cases hss : ofRows (first + 1) ts with
        | error e =>
          rw [hs, hss] at h
          cases h
        | ok ss' =>
          rw [hs, hss] at h
          cases h
          exact ⟨s, ss', ofTokens_eq_ok.mp hs, ih.mp hss, rfl⟩
    · rintro ⟨s, ss', hs, hss, rfl⟩
      rw [ofTokens_of_written first hs, ih.mpr hss]
      rfl

/-- The first row that is not of the grammar is reported, with its number. -/
theorem ofRows_malformed (first : Nat) {before : List (List (List Char))}
    {row : List (List Char)} (after : List (List (List Char)))
    (hbefore : ∀ t ∈ before, WellFormed t) (hrow : ¬ WellFormed row) :
    ∃ e, ofRows first (before ++ row :: after) = .error e ∧ e.Blames (first + before.length) := by
  induction before generalizing first with
  | nil =>
    cases h : ofTokens first row with
    | ok s => exact absurd ⟨s, ofTokens_eq_ok.mp h⟩ hrow
    | error e =>
      refine ⟨e, ?_, blames_of_ofTokens h⟩
      rw [List.nil_append, ofRows, h]
      rfl
  | cons t before ih =>
    obtain ⟨s, hs⟩ := hbefore t (by simp)
    obtain ⟨e, he, hline⟩ := ih (first + 1) fun x hx => hbefore x (by simp [hx])
    refine ⟨e, ?_, ?_⟩
    · rw [List.cons_append, ofRows, ofTokens_of_written first hs, he]
      rfl
    · rwa [List.length_cons, Nat.add_comm before.length, ← Nat.add_assoc]

/-! An empty row at the end makes no difference. -/

theorem ofRows_concat_nil (first : Nat) (ts : List (List (List Char))) :
    ofRows first (ts ++ [[]]) = (ofRows first ts).map fun ss => ss ++ [{}] := by
  induction ts generalizing first with
  | nil => rfl
  | cons t ts ih =>
    rw [List.cons_append, ofRows, ofRows, ih]
    cases ofTokens first t with
    | error e => rfl
    | ok s => cases ofRows (first + 1) ts <;> rfl

theorem addresses_concat_empty (start : Nat) (ss : List Statement) :
    addresses start (ss ++ [({} : Statement)]) = addresses start ss := by
  induction ss generalizing start with
  | nil => rfl
  | cons s ss ih => rw [List.cons_append, addresses, addresses, ih]

theorem encodeAll_concat_empty (table : List (String × Nat)) (ss : List Statement) :
    encodeAll table (ss ++ [({} : Statement)]) = encodeAll table ss := by
  induction ss with
  | nil => rfl
  | cons s ss ih => rw [List.cons_append, encodeAll, encodeAll, ih]

/-! Labels. -/

theorem addresses_labels (start : Nat) (ss : List Statement) :
    (addresses start ss).map Prod.fst = definitions ss := by
  induction ss generalizing start with
  | nil => rfl
  | cons s ss ih =>
    rw [addresses, List.map_append, ih, List.map_map, definitions, definitions, List.flatMap_cons]
    simp [Function.comp_def]

/-- A label has an address exactly if it is defined. -/
theorem lookup_addresses_isNone_eq (start : Nat) (ss : List Statement) (l : String) :
    ((addresses start ss).lookup l).isNone = decide (l ∉ definitions ss) := by
  rw [← addresses_labels start ss, Bool.eq_iff_iff, Option.isNone_iff_eq_none,
    List.lookup_eq_none_iff, decide_eq_true_iff, List.mem_map, not_exists]
  refine forall_congr' fun q => ?_
  rw [not_and, bne_iff_ne, ne_comm]

variable {table : List (String × Nat)}

theorem encode_eq_error {s : Statement} {l : String} (hs : s.reference? = some l)
    (hl : (table.lookup l).isNone = true) : s.encode table = .error (.undefinedLabel l) := by
  obtain ⟨ls, _ | ⟨o, _ | w | l'⟩⟩ := s
  · cases hs
  · cases hs
  · cases hs
  · cases hs
    simp only [encode, operandWord, Option.isNone_iff_eq_none.mp hl]
    rfl

theorem encode_eq_ok (table : List (String × Nat)) (s : Statement)
    (hs : ∀ l, s.reference? = some l → (table.lookup l).isNone = false) :
    ∃ words, s.encode table = .ok words := by
  obtain ⟨ls, _ | ⟨o, _ | w | l⟩⟩ := s
  · exact ⟨_, rfl⟩
  · exact ⟨_, rfl⟩
  · exact ⟨_, rfl⟩
  · obtain ⟨address, haddress⟩ :=
      Option.isSome_iff_exists.mp (Option.isNone_eq_false_iff.mp (hs l rfl))
    refine ⟨[o.toWord, Int64.ofNat address], ?_⟩
    simp only [encode, operandWord, haddress]
    rfl

theorem encodeAll_eq_ok {ss : List Statement}
    (h : ∀ l ∈ references ss, (table.lookup l).isNone = false) :
    ∃ words, encodeAll table ss = .ok words := by
  induction ss with
  | nil => exact ⟨[], rfl⟩
  | cons s ss ih =>
    obtain ⟨words, hwords⟩ := encode_eq_ok table s fun l hl =>
      h l (List.mem_filterMap.mpr ⟨s, List.mem_cons_self, hl⟩)
    obtain ⟨rest, hrest⟩ := ih fun l hl => by
      obtain ⟨s', hs', hl'⟩ := List.mem_filterMap.mp hl
      exact h l (List.mem_filterMap.mpr ⟨s', List.mem_cons_of_mem _ hs', hl'⟩)
    refine ⟨words ++ rest, ?_⟩
    rw [encodeAll, hwords, hrest]
    rfl

/-- Statements are encoded in their order, so the first label without an address is reported. -/
theorem encodeAll_eq_error {ss : List Statement} {l : String}
    (h : (references ss).find? (fun l => (table.lookup l).isNone) = some l) :
    encodeAll table ss = .error (.undefinedLabel l) := by
  induction ss with
  | nil => cases h
  | cons s ss ih =>
    by_cases hs : ∃ l', s.reference? = some l' ∧ (table.lookup l').isNone = true
    · obtain ⟨l', hs, hl'⟩ := hs
      rw [references, List.filterMap_cons_some hs, List.find?_cons, hl'] at h
      cases h
      rw [encodeAll, encode_eq_error hs hl']
      rfl
    · have hdefined : ∀ l', s.reference? = some l' → (table.lookup l').isNone = false :=
        fun l' hl' => Bool.eq_false_iff.mpr fun hn => hs ⟨l', hl', hn⟩
      have hrest : (references ss).find? (fun l => (table.lookup l).isNone) = some l := by
        cases hr : s.reference? with
        | none =>
          rw [references, List.filterMap_cons_none hr] at h
          exact h
        | some l' =>
          rw [references, List.filterMap_cons_some hr, List.find?_cons, hdefined l' hr] at h
          exact h
      obtain ⟨words, hwords⟩ := encode_eq_ok table s hdefined
      rw [encodeAll, hwords, ih hrest]
      rfl

end Statement

open Statement

/-- A text is assembled row by row. -/
theorem assemble_eq (source : String) :
    assemble source =
      (ofRows 1 (rowTokens source)).bind fun ss => encodeAll (addresses 0 ss) ss := by
  rw [assemble, ofLines_eq_ofRows, rowTokens]
  rcases Text.tokens_lines source.toList with h | h
  · rw [h]
    rfl
  · rw [h, ofRows_concat_nil]
    cases ofRows 1 ((Text.rows source.toList).map Text.tokens) with
    | error e => rfl
    | ok ss =>
      change encodeAll (addresses 0 (ss ++ [({} : Statement)])) (ss ++ [({} : Statement)]) = _
      rw [addresses_concat_empty, encodeAll_concat_empty]
      rfl

/-- If all rows are of the grammar, the labels decide. -/
theorem assemble_of_written {source : String} {ss : List Statement}
    (h : List.Forall₂ Written (rowTokens source) ss) :
    assemble source = encodeAll (addresses 0 ss) ss := by
  rw [assemble_eq, ofRows_eq_ok.mpr h]
  rfl

/-- Assembly accepts a text exactly if all its rows are of the grammar and every label that
an operand refers to is defined in some row. Otherwise the first row that is not of the
grammar is blamed, by its number from one on, and if there is none, the first operand in
the text whose label is not defined. -/
theorem assemble_accepts_grammar (source : String) :
    ((∃ code, assemble source = .ok code) ↔
      ∃ ss, List.Forall₂ Written (rowTokens source) ss ∧
        ∀ l ∈ references ss, l ∈ definitions ss) ∧
    (∀ before row after, rowTokens source = before ++ row :: after →
      (∀ t ∈ before, WellFormed t) → ¬ WellFormed row →
      ∃ e, assemble source = .error e ∧ e.Blames (before.length + 1)) ∧
    ∀ ss l, List.Forall₂ Written (rowTokens source) ss →
      (references ss).find? (fun l => l ∉ definitions ss) = some l →
      assemble source = .error (.undefinedLabel l) := by
  have hundefined : ∀ ss l, List.Forall₂ Written (rowTokens source) ss →
      (references ss).find? (fun l => l ∉ definitions ss) = some l →
      assemble source = .error (.undefinedLabel l) := by
    intro ss l hss hl
    rw [assemble_of_written hss]
    refine encodeAll_eq_error ?_
    simp only [lookup_addresses_isNone_eq]
    exact hl
  refine ⟨⟨?_, ?_⟩, ?_, hundefined⟩
  · rintro ⟨code, hcode⟩
    cases hrows : ofRows 1 (rowTokens source) with
    | error e =>
      rw [assemble_eq, hrows] at hcode
      cases hcode
    | ok ss =>
      have hss := ofRows_eq_ok.mp hrows
      refine ⟨ss, hss, ?_⟩
      cases hfind : (references ss).find? (fun l => l ∉ definitions ss) with
      | none => simpa using List.find?_eq_none.mp hfind
      | some l =>
        rw [hundefined ss l hss hfind] at hcode
        cases hcode
  · rintro ⟨ss, hss, hdefined⟩
    rw [assemble_of_written hss]
    refine encodeAll_eq_ok fun l hl => ?_
    rw [lookup_addresses_isNone_eq]
    simpa using hdefined l hl
  · intro before row after hsplit hbefore hrow
    obtain ⟨e, he, hline⟩ := ofRows_malformed 1 after hbefore hrow
    refine ⟨e, ?_, by rwa [Nat.add_comm]⟩
    rw [assemble_eq, hsplit, he]
    rfl

/-- A text with labels that look like a mnemonic, like a number, like nothing and like a
definition, and with a numeral that is out of range and so the name of a label. -/
def oddText : String :=
  "push: 5: push +5\r\nfoo:: : push foo:\n\nb 9223372036854775808\n9223372036854775808: halt"

def oddStatements : List Statement := [
  { labels := ["push", "5"], instr := some (.push, some (.number 5)) },
  { labels := ["foo:", ""], instr := some (.push, some (.label "foo:")) },
  {},
  { instr := some (.jump .always, some (.label "9223372036854775808")) },
  { labels := ["9223372036854775808"], instr := some (.plain .halt, none) }]

theorem oddText_written : List.Forall₂ Written (rowTokens oddText) oddStatements := by
  have hrows : (ofRows 1 (rowTokens oddText)).toOption = some oddStatements := by decide +kernel
  cases h : ofRows 1 (rowTokens oddText) with
  | error e =>
    rw [h] at hrows
    cases hrows
  | ok ss =>
    rw [h] at hrows
    cases hrows
    exact ofRows_eq_ok.mp h

/-- The text is accepted. A jump to a number is blamed, though the label of the jump before
it has no definition; without the former, the latter is reported. -/
theorem oddText_accepted :
    (∃ code, assemble oddText = .ok code) ∧
    (∃ e, assemble "b nowhere\nb -7\njump" = .error e ∧ e.Blames 2) ∧
    assemble "b nowhere" = .error (.undefinedLabel "nowhere") := by
  obtain ⟨haccepted, -, -⟩ := assemble_accepts_grammar oddText
  obtain ⟨-, hblamed, -⟩ := assemble_accepts_grammar "b nowhere\nb -7\njump"
  obtain ⟨-, -, hundefined⟩ := assemble_accepts_grammar "b nowhere"
  refine ⟨haccepted.mpr ⟨oddStatements, oddText_written, by decide⟩, ?_, ?_⟩
  · exact hblamed [[['b'], "nowhere".toList]] [['b'], ['-', '7']] [["jump".toList]]
      (by decide +kernel) (by decide +kernel) (by decide +kernel)
  · have hrows : rowTokens "b nowhere" =
        [[(Operation.jump .always).mnemonic.toList, "nowhere".toList]] := by
      decide +kernel
    have hjump := Written.jump .always (Numeral.read?_eq_none.mp
      (by decide +kernel : Numeral.read? "nowhere".toList = none))
    rw [String.ofList_toList] at hjump
    rw [hrows] at hundefined
    exact hundefined _ "nowhere" (.cons hjump .nil) (by decide)

end Classlet
