import Classlet.Proofs.AssemblyGrammar

/-!
Assembled code read back as instructions. The code words of a text, read from the first one
on, are the instructions of its rows in their order: no word is left over, and none is
missing. A label stands for the number of code words before the first row that defines it.
These are the words of whole rows, so a label never stands for a place inside an
instruction.
-/

namespace Classlet

/-- An instruction in code: the address of its operation, and the operand word after it. -/
structure CodeInstr where
  start : Nat
  operation : Operation
  operand? : Option Word
deriving DecidableEq

namespace CodeInstr

/-- Reads code words as instructions, from an address on. A word that is no operation and a
missing operand cannot be read. -/
def read? (start : Nat) : List Word → Option (List CodeInstr)
  | [] => some []
  | w :: ws =>
    match Operation.ofWord? w with
    | none => none
    | some o =>
      if o.operandKind = .nothing then
        (read? (start + 1) ws).map fun is => ⟨start, o, none⟩ :: is
      else
        match ws with
        | [] => none
        | x :: ws => (read? (start + 2) ws).map fun is => ⟨start, o, some x⟩ :: is

/-- The instruction of a row, as it is in the code, given where labels are. -/
inductive Renders (address : String → Nat → Prop) : Operation × Option Operand → CodeInstr → Prop
  | plain (o : Operation) (start : Nat) : Renders address (o, none) ⟨start, o, none⟩
  | number (o : Operation) (w : Word) (start : Nat) :
    Renders address (o, some (.number w)) ⟨start, o, some w⟩
  | label (o : Operation) {l : String} {a : Nat} (ha : address l a) (start : Nat) :
    Renders address (o, some (.label l)) ⟨start, o, some (Int64.ofNat a)⟩

theorem Renders.mono {address address' : String → Nat → Prop}
    (h : ∀ l a, address l a → address' l a) {x : Operation × Option Operand} {i : CodeInstr}
    (hx : Renders address x i) : Renders address' x i := by
  cases hx with
  | plain o start => exact .plain o start
  | number o w start => exact .number o w start
  | label o ha start => exact .label o (h _ _ ha) start

/-- Reading goes on where it has come to an end. -/
theorem read?_append {start : Nat} {front back : List Word} {is js : List CodeInstr}
    (hfront : read? start front = some is) (hback : read? (start + front.length) back = some js) :
    read? start (front ++ back) = some (is ++ js) := by
  fun_induction read? start front generalizing is with
  | case1 start =>
    cases hfront
    exact hback
  | case2 start w ws ho => cases hfront
  | case3 start w ws o ho hkind ih =>
    obtain ⟨rest, hrest, rfl⟩ := Option.map_eq_some_iff.mp hfront
    have hlength : start + 1 + ws.length = start + (w :: ws).length := by
      rw [List.length_cons]
      omega
    rw [← hlength] at hback
    simp only [List.cons_append, read?, ho, hkind, if_true, ih hrest hback, Option.map_some]
  | case4 start w o ho hkind => cases hfront
  | case5 start w o ho hkind x ws ih =>
    obtain ⟨rest, hrest, rfl⟩ := Option.map_eq_some_iff.mp hfront
    have hlength : start + 2 + ws.length = start + (w :: x :: ws).length := by
      rw [List.length_cons, List.length_cons]
      omega
    rw [← hlength] at hback
    simp only [List.cons_append, read?, ho, hkind, if_false, ih hrest hback, Option.map_some]

/-- The address at which reading begins is the start of an instruction, unless there is
nothing to read. -/
theorem start_mem_of_read? {start : Nat} {ws : List Word} {is : List CodeInstr}
    (h : read? start ws = some is) : start ∈ is.map CodeInstr.start ∨ ws = [] := by
  fun_cases read? start ws with
  | case1 => exact Or.inr rfl
  | case2 w ws ho => simp [read?, ho] at h
  | case3 w ws o ho hkind =>
    simp only [read?, ho, hkind, if_true] at h
    obtain ⟨rest, -, rfl⟩ := Option.map_eq_some_iff.mp h
    exact Or.inl (by simp)
  | case4 w o ho hkind => simp [read?, ho, hkind] at h
  | case5 w o ho hkind x ws =>
    simp only [read?, ho, hkind, if_false] at h
    obtain ⟨rest, -, rfl⟩ := Option.map_eq_some_iff.mp h
    exact Or.inl (by simp)

end CodeInstr

namespace Statement

/-- The number of code words of statements. -/
def sizes : List Statement → Nat
  | [] => 0
  | s :: ss => s.size + sizes ss

/-- The instructions of statements, in text order. -/
def instrs (ss : List Statement) : List (Operation × Option Operand) := ss.filterMap instr

/-- The address of a label: the number of code words before the first statement that
defines it. -/
def FirstDefined (ss : List Statement) (l : String) (address : Nat) : Prop :=
  ∃ before s after, ss = before ++ s :: after ∧ l ∈ s.labels ∧ (∀ t ∈ before, l ∉ t.labels) ∧
    address = sizes before

/-- The instruction has an operand exactly if its operation takes one. -/
def Complete (s : Statement) : Prop :=
  ∀ o x, s.instr = some (o, x) → (x = none ↔ o.operandKind = .nothing)

theorem Written.complete {tokens : List (List Char)} {s : Statement} (h : Written tokens s) :
    s.Complete := by
  induction h with
  | empty =>
    intro o x hx
    cases hx
  | label l rest ih => exact ih
  | plain op =>
    intro o x hx
    cases hx
    exact iff_of_true rfl rfl
  | pushNumber numeral =>
    intro o x hx
    cases hx
    exact iff_of_false (by simp) (by simp [Operation.operandKind])
  | pushLabel noNumeral =>
    intro o x hx
    cases hx
    exact iff_of_false (by simp) (by simp [Operation.operandKind])
  | jump test noNumeral =>
    intro o x hx
    cases hx
    exact iff_of_false (by simp) (by simp [Operation.operandKind])

theorem complete_of_written {rows : List (List (List Char))} {ss : List Statement}
    (h : List.Forall₂ Written rows ss) : ∀ s ∈ ss, s.Complete := by
  induction h with
  | nil => simp
  | cons hs _ ih =>
    intro t ht
    rcases List.mem_cons.mp ht with rfl | ht
    · exact hs.complete
    · exact ih t ht

theorem lookup_labels (start : Nat) (ls : List String) (l : String) :
    (ls.map fun x => (x, start)).lookup l = if l ∈ ls then some start else none := by
  induction ls with
  | nil => rfl
  | cons x ls ih =>
    rw [List.map_cons, List.lookup_cons, ih]
    by_cases hx : l = x
    · simp [hx]
    · simp [hx, beq_false_of_ne hx]

/-- A label that is looked up has the address of its first definition. -/
theorem firstDefined_of_lookup {start a : Nat} {ss : List Statement} {l : String}
    (h : (addresses start ss).lookup l = some a) :
    ∃ k, FirstDefined ss l k ∧ a = start + k := by
  induction ss generalizing start with
  | nil => cases h
  | cons s ss ih =>
    rw [addresses, List.lookup_append, lookup_labels] at h
    by_cases hl : l ∈ s.labels
    · rw [if_pos hl] at h
      cases h
      exact ⟨0, ⟨[], s, ss, rfl, hl, by simp, rfl⟩, rfl⟩
    · rw [if_neg hl, Option.none_or] at h
      obtain ⟨_, ⟨before, t, after, rfl, ht, hbefore, rfl⟩, rfl⟩ := ih h
      refine ⟨_, ⟨s :: before, t, after, rfl, ht, ?_, rfl⟩, ?_⟩
      · simpa [hl] using hbefore
      · rw [sizes, Nat.add_assoc]

section

variable {table : List (String × Nat)}

theorem encodeAll_cons {s : Statement} {ss : List Statement} {code : List Word}
    (h : encodeAll table (s :: ss) = .ok code) :
    ∃ words rest, s.encode table = .ok words ∧ encodeAll table ss = .ok rest ∧
      code = words ++ rest := by
  rw [encodeAll] at h
  cases hs : s.encode table with
  | error e =>
    rw [hs] at h
    cases h
  | ok words =>
    cases hss : encodeAll table ss with
    | error e =>
      rw [hs, hss] at h
      cases h
    | ok rest =>
      rw [hs, hss] at h
      cases h
      exact ⟨words, rest, rfl, rfl, rfl⟩

/-- The three kinds of a statement that is encoded: one without an instruction, one whose
instruction has no operand, and one whose operand has a value. -/
theorem encode_cases {s : Statement} {words : List Word} (h : s.encode table = .ok words) :
    (s.instr = none ∧ words = []) ∨ (∃ o, s.instr = some (o, none) ∧ words = [o.toWord]) ∨
      ∃ o x w, s.instr = some (o, some x) ∧ operandWord table x = .ok w ∧
        words = [o.toWord, w] := by
  obtain ⟨ls, _ | ⟨o, _ | x⟩⟩ := s
  · cases h
    exact Or.inl ⟨rfl, rfl⟩
  · cases h
    exact Or.inr (Or.inl ⟨o, rfl, rfl⟩)
  · simp only [encode] at h
    cases hx : operandWord table x with
    | error e =>
      rw [hx] at h
      cases h
    | ok w =>
      rw [hx] at h
      cases h
      exact Or.inr (Or.inr ⟨o, x, w, rfl, hx, rfl⟩)

theorem length_encode {s : Statement} {words : List Word} (h : s.encode table = .ok words) :
    words.length = s.size := by
  rw [size]
  rcases encode_cases h with ⟨hi, rfl⟩ | ⟨o, hi, rfl⟩ | ⟨o, x, w, hi, -, rfl⟩ <;> rw [hi] <;> rfl

theorem length_encodeAll {ss : List Statement} {code : List Word}
    (h : encodeAll table ss = .ok code) : code.length = sizes ss := by
  induction ss generalizing code with
  | nil =>
    cases h
    rfl
  | cons s ss ih =>
    obtain ⟨words, rest, hwords, hrest, rfl⟩ := encodeAll_cons h
    rw [List.length_append, length_encode hwords, ih hrest, sizes]

theorem encodeAll_append {before after : List Statement} {code : List Word}
    (h : encodeAll table (before ++ after) = .ok code) :
    ∃ front back, encodeAll table before = .ok front ∧ encodeAll table after = .ok back ∧
      code = front ++ back := by
  induction before generalizing code with
  | nil => exact ⟨[], code, rfl, h, rfl⟩
  | cons s before ih =>
    obtain ⟨words, rest, hwords, hrest, rfl⟩ := encodeAll_cons h
    obtain ⟨front, back, hfront, hback, rfl⟩ := ih hrest
    refine ⟨words ++ front, back, ?_, hback, (List.append_assoc ..).symm⟩
    rw [encodeAll, hwords, hfront]
    rfl

theorem renders_of_operandWord {o : Operation} {x : Operand} {w : Word}
    (h : operandWord table x = .ok w) (start : Nat) :
    CodeInstr.Renders (fun l a => table.lookup l = some a) (o, some x) ⟨start, o, some w⟩ := by
  cases x with
  | number v =>
    obtain rfl : v = w := Except.ok.inj h
    exact .number o v start
  | label l =>
    simp only [operandWord] at h
    cases ha : table.lookup l with
    | none =>
      rw [ha] at h
      cases h
    | some a =>
      rw [ha] at h
      cases h
      exact .label o ha start

/-- The code words of a statement are read as its instruction. -/
theorem read?_encode {s : Statement} (hs : s.Complete) {words : List Word}
    (h : s.encode table = .ok words) (start : Nat) :
    ∃ is, CodeInstr.read? start words = some is ∧
      List.Forall₂ (CodeInstr.Renders fun l a => table.lookup l = some a) s.instr.toList is := by
  rcases encode_cases h with ⟨hi, rfl⟩ | ⟨o, hi, rfl⟩ | ⟨o, x, w, hi, hx, rfl⟩
  · rw [hi]
    exact ⟨[], rfl, .nil⟩
  · have hkind : o.operandKind = .nothing := (hs o none hi).mp rfl
    rw [hi]
    refine ⟨[⟨start, o, none⟩], ?_, .cons (.plain o start) .nil⟩
    simp [CodeInstr.read?, o.ofWord?_toWord, hkind]
  · have hkind : o.operandKind ≠ .nothing := fun hnothing => by
      cases (hs o (some x) hi).mpr hnothing
    rw [hi]
    refine ⟨[⟨start, o, some w⟩], ?_, .cons (renders_of_operandWord hx start) .nil⟩
    simp [CodeInstr.read?, o.ofWord?_toWord, hkind]

/-- The code words of statements are read as their instructions. -/
theorem read?_encodeAll {ss : List Statement} (hss : ∀ s ∈ ss, s.Complete) {code : List Word}
    (h : encodeAll table ss = .ok code) (start : Nat) :
    ∃ is, CodeInstr.read? start code = some is ∧
      List.Forall₂ (CodeInstr.Renders fun l a => table.lookup l = some a) (instrs ss) is := by
  induction ss generalizing code start with
  | nil =>
    cases h
    exact ⟨[], rfl, .nil⟩
  | cons s ss ih =>
    obtain ⟨words, rest, hwords, hrest, rfl⟩ := encodeAll_cons h
    obtain ⟨is, his, hrenders⟩ := read?_encode (hss s (by simp)) hwords start
    obtain ⟨js, hjs, hrenders'⟩ :=
      ih (fun t ht => hss t (by simp [ht])) hrest (start + words.length)
    refine ⟨is ++ js, CodeInstr.read?_append his hjs, ?_⟩
    have hinstrs : instrs (s :: ss) = s.instr.toList ++ instrs ss := by
      rw [instrs, instrs, List.filterMap_cons]
      cases s.instr <;> rfl
    rw [hinstrs]
    exact List.rel_append hrenders hrenders'

/-- The code words of the first statements end where an instruction starts, or at the end of
the code. -/
theorem sizes_mem_starts {before after : List Statement}
    (hss : ∀ s ∈ before ++ after, s.Complete) {code : List Word}
    (h : encodeAll table (before ++ after) = .ok code) {is : List CodeInstr}
    (his : CodeInstr.read? 0 code = some is) :
    sizes before ∈ is.map CodeInstr.start ∨ sizes before = code.length := by
  -- The code is cut behind the first statements, and each part is read by itself.
  obtain ⟨front, back, hfront, hback, rfl⟩ := encodeAll_append h
  have hlength := length_encodeAll hfront
  obtain ⟨is₁, his₁, -⟩ := read?_encodeAll (fun s hs => hss s (by simp [hs])) hfront 0
  obtain ⟨is₂, his₂, -⟩ :=
    read?_encodeAll (fun s hs => hss s (by simp [hs])) hback (0 + front.length)
  rw [CodeInstr.read?_append his₁ his₂] at his
  cases his
  rcases CodeInstr.start_mem_of_read? his₂ with hmem | rfl
  · rw [Nat.zero_add, hlength] at hmem
    exact Or.inl (by simp [List.mem_append.mpr (Or.inr hmem)])
  · exact Or.inr (by rw [List.append_nil, hlength])

end

end Statement

open Statement

/-- The code of a text is read from its first word to its last as the instructions of its
rows. An operand that is a label has become the address of its first definition, and every
label is at the start of an instruction or at the end of the code. -/
theorem assemble_read_back {source : String} {code : List Word}
    (h : assemble source = .ok code) :
    ∃ ss is, List.Forall₂ Written (rowTokens source) ss ∧ CodeInstr.read? 0 code = some is ∧
      List.Forall₂ (CodeInstr.Renders (FirstDefined ss)) (instrs ss) is ∧
      ∀ l a, FirstDefined ss l a → a ∈ is.map CodeInstr.start ∨ a = code.length := by
  rw [assemble_eq] at h
  cases hrows : ofRows 1 (rowTokens source) with
  | error e =>
    rw [hrows] at h
    cases h
  | ok ss =>
    rw [hrows] at h
    replace h : encodeAll (addresses 0 ss) ss = .ok code := h
    have hwritten := ofRows_eq_ok.mp hrows
    have hcomplete := complete_of_written hwritten
    obtain ⟨is, his, hrenders⟩ := read?_encodeAll hcomplete h 0
    refine ⟨ss, is, hwritten, his, ?_, ?_⟩
    · refine hrenders.imp fun x i hx => hx.mono fun l a ha => ?_
      obtain ⟨k, hk, rfl⟩ := firstDefined_of_lookup ha
      rwa [Nat.zero_add]
    · rintro l a ⟨before, s, after, rfl, -, -, rfl⟩
      exact sizes_mem_starts hcomplete h his

/-- A text that refers to labels before and after their definition. Two of them are defined
again, and one is defined at the end. -/
def labelText : String := "top: again:\npush 1\nagain: b end\npush again\nbeq top\nend: top:"

theorem labelText_read_back :
    assemble labelText = .ok [0, 1, 8, 8, 0, 0, 9, 0] ∧
    ∃ ss is, List.Forall₂ Written (rowTokens labelText) ss ∧
      CodeInstr.read? 0 [0, 1, 8, 8, 0, 0, 9, 0] = some is ∧
      List.Forall₂ (CodeInstr.Renders (FirstDefined ss)) (instrs ss) is ∧
      ∀ l a, FirstDefined ss l a → a ∈ is.map CodeInstr.start ∨ a = 8 := by
  have h : assemble labelText = .ok [0, 1, 8, 8, 0, 0, 9, 0] := by decide +kernel
  exact ⟨h, assemble_read_back h⟩

end Classlet
