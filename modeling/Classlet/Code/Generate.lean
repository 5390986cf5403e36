import Classlet.Ancestry
import Classlet.Code.Draft
import Classlet.Code.Expression
import Classlet.Tree.Program

/-!
Code for declarations, classes and programs. A variable is its value on the
stack and a function the address of its code. A class is the address of its
dispatch table, which is laid out on the heap before the program runs: the
code addresses of its methods in the order of their slots.
-/

namespace Classlet

/-- Generation of declarations, which writes to a draft. -/
abbrev Emit := StateT Draft (Except GenerationError)

namespace Emit

/-- Writes the code of an expression. -/
def code (g : Gen (List Line)) : Emit Unit := do
  let d ← get
  let (lines, labels) ← g.run d.labels
  set ({ d with labels }.write lines)

def instrs (is : List Instr) : Emit Unit := modify fun d => d.writeInstrs is

/-- What a function does on return: it keeps the result aside, drops its locals,
takes up the return address, drops the access link and the parameters, and
takes up the frame of its caller. -/
def returnCode (params locals : Nat) : List Instr :=
  [.plain (.popReg .tm)] ++ List.replicate locals (.plain .pop) ++
    [.plain (.popReg .ra), .plain .pop] ++ List.replicate params (.plain .pop) ++
    [.plain (.popReg .fp), .plain (.pushReg .tm), .plain (.pushReg .ra), .plain .call]

/-- Writes a block of its own for a function or method, from the code of its
local declarations and of its body. -/
def routine (params locals : Nat) (decls : Emit Unit) (body : Gen (List Line)) : Emit Label := do
  modify Draft.openBlock
  instrs [.plain .setFrame, .plain (.pushReg .ra)]
  decls
  let label ← modifyGet Draft.takeFunction
  code body
  instrs (returnCode params locals)
  modify fun d => d.closeBlock label
  return label

mutual

def decl (t : Target) : Decl → Emit Unit
  | .var _ _ _ init _ => code (Code.ofExpr t init)
  | .fn _ _ params _ ds body _ => do
    let label ← routine params.length ds.length (decls t ds) (Code.ofExpr t body)
    instrs [.pushLabel label]
termination_by structural d => d

def decls (t : Target) : List Decl → Emit Unit
  | [] => return
  | d :: ds => do
    decl t d
    decls t ds
termination_by structural ds => ds

end

/-- Generates methods in order; each is the slot it goes to and the label of its
code. -/
def methods (t : Target) : List MethodDecl → Emit (List (Nat × Label))
  | [] => return []
  | m :: ms => do
    match t.bindings.slots[m.id]? with
    | none => throw ⟨m.pos, .unbound m.name⟩
    | some slot =>
      let label ← routine m.params.length m.decls.length (decls t m.decls)
        (Code.ofExpr t m.body)
      return (slot.index, label) :: (← methods t ms)

end Emit

/-- What is generated for a class: the slot and the label of each method that it
declares, and the dispatch table in which these replace the inherited ones. -/
structure ClassCode where
  methods : List (Nat × Label) := []
  table : List Label := []

namespace ClassCode

/-- Puts a label into a slot; a slot that the table does not have is added at
its end. -/
def fill (table : List Label) : Nat × Label → List Label
  | (slot, label) => if slot < table.length then table.set slot label else table ++ [label]

def ofMethods (inherited : List Label) (methods : List (Nat × Label)) : ClassCode :=
  { methods, table := methods.foldl fill inherited }

/-- Lays the dispatch table out on the heap and leaves its address. -/
def layout (c : ClassCode) : List Instr :=
  .plain (.pushReg .hp) :: c.table.flatMap fun l => .pushLabel l :: Code.moveToHeap

end ClassCode

namespace Emit

/-- What has been generated for the classes so far. -/
abbrev Classes := Std.TreeMap String ClassCode

/-- The table that a class starts from, that of its superclass. -/
def inheritedTable (h : Ancestry) (done : Classes) (c : ClassDecl) : Emit (List Label) :=
  match h.parent? c.name with
  | none => return []
  | some parent =>
    match done[parent]? with
    | some code => return code.table
    | none => throw ⟨c.pos, .noDispatchTable parent⟩

/-- Generates classes in order. Of several classes of one name the first keeps
the name. -/
def classes (t : Target) (h : Ancestry) : List ClassDecl → Classes → Emit Classes
  | [], done => return done
  | c :: cs, done => do
    let inherited ← inheritedTable h done c
    let code := ClassCode.ofMethods inherited (← methods t c.methods)
    instrs code.layout
    classes t h cs (done.insertIfNew c.name code)

/-- Generates a program. With declarations the outermost frame has a word in
the place where a function keeps its return address. -/
def program (t : Target) (h : Ancestry) (p : Program) : Emit Unit := do
  if p.declaresAny then
    instrs [.push 0]
    let _ ← classes t h p.classes ∅
    decls t p.decls
  code (Code.ofExpr t p.body)
  instrs [.plain .halt]

end Emit

/-- The code of a program. -/
def Program.generate (p : Program) (t : Target) (h : Ancestry) :
    Except GenerationError Listing := do
  let (_, d) ← (Emit.program t h p).run {}
  return d.finish

end Classlet
