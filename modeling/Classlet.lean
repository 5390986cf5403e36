import Classlet.Ancestry
import Classlet.Assembly.Assemble
import Classlet.Assembly.Error
import Classlet.Assembly.Statement
import Classlet.Binding.Declaration
import Classlet.Binding.Error
import Classlet.Binding.Frame
import Classlet.Binding.Header
import Classlet.Binding.Occurrence
import Classlet.Binding.Resolution
import Classlet.Binding.Table
import Classlet.Code.Draft
import Classlet.Code.Error
import Classlet.Code.Expression
import Classlet.Code.Generate
import Classlet.Code.Label
import Classlet.Code.Listing
import Classlet.Code.Operation
import Classlet.Compile
import Classlet.Execute
import Classlet.Machine.Basic
import Classlet.Machine.Fault
import Classlet.Machine.Run
import Classlet.Machine.Step
import Classlet.NameKind
import Classlet.Numeral
import Classlet.Position
import Classlet.Proofs.Acceptance
import Classlet.Proofs.Actions
import Classlet.Proofs.Activations
import Classlet.Proofs.Ancestors
import Classlet.Proofs.Assembly
import Classlet.Proofs.AssemblyGrammar
import Classlet.Proofs.Blocks
import Classlet.Proofs.CallStack
import Classlet.Proofs.Calls
import Classlet.Proofs.Checking
import Classlet.Proofs.Classes
import Classlet.Proofs.Completeness
import Classlet.Proofs.Conformance
import Classlet.Proofs.ControlFlow
import Classlet.Proofs.Correctness
import Classlet.Proofs.Correspondence
import Classlet.Proofs.DeclarationPlaces
import Classlet.Proofs.Declarations
import Classlet.Proofs.Decoding
import Classlet.Proofs.Depth
import Classlet.Proofs.Descent
import Classlet.Proofs.Dispatch
import Classlet.Proofs.Division
import Classlet.Proofs.Drafts
import Classlet.Proofs.Encoding
import Classlet.Proofs.Endings
import Classlet.Proofs.Evaluation
import Classlet.Proofs.Following
import Classlet.Proofs.FunctionValues
import Classlet.Proofs.Growth
import Classlet.Proofs.Headers
import Classlet.Proofs.Hierarchy
import Classlet.Proofs.Incompleteness
import Classlet.Proofs.Joins
import Classlet.Proofs.Jumps
import Classlet.Proofs.Kinds
import Classlet.Proofs.Labels
import Classlet.Proofs.Layout
import Classlet.Proofs.Lexical
import Classlet.Proofs.Limits
import Classlet.Proofs.Locations
import Classlet.Proofs.MachineSafety
import Classlet.Proofs.MemberNames
import Classlet.Proofs.MemberPlaces
import Classlet.Proofs.MemorySize
import Classlet.Proofs.Nest
import Classlet.Proofs.NodeNumbers
import Classlet.Proofs.Numbering
import Classlet.Proofs.Numerals
import Classlet.Proofs.ObjectLayout
import Classlet.Proofs.Occurrences
import Classlet.Proofs.OperandOrder
import Classlet.Proofs.Operators
import Classlet.Proofs.QualifiedCalls
import Classlet.Proofs.Refinement
import Classlet.Proofs.Relocation
import Classlet.Proofs.RenamedBinding
import Classlet.Proofs.RenamedCode
import Classlet.Proofs.RenamedTyping
import Classlet.Proofs.Renaming
import Classlet.Proofs.RepeatedMembers
import Classlet.Proofs.Resolved
import Classlet.Proofs.Restarts
import Classlet.Proofs.Results
import Classlet.Proofs.Routines
import Classlet.Proofs.Run
import Classlet.Proofs.Scoping
import Classlet.Proofs.Sequences
import Classlet.Proofs.Shape
import Classlet.Proofs.Simulation
import Classlet.Proofs.Sites
import Classlet.Proofs.Snapshot
import Classlet.Proofs.Soundness
import Classlet.Proofs.Spans
import Classlet.Proofs.StackWrites
import Classlet.Proofs.Startup
import Classlet.Proofs.Static
import Classlet.Proofs.StaticChain
import Classlet.Proofs.Stretches
import Classlet.Proofs.SubtypeOrder
import Classlet.Proofs.Subtyping
import Classlet.Proofs.Superclasses
import Classlet.Proofs.Tables
import Classlet.Proofs.TextualFaults
import Classlet.Proofs.Tree
import Classlet.Proofs.Typing
import Classlet.Proofs.TypingRules
import Classlet.Proofs.Uninhabited
import Classlet.Proofs.UseLevels
import Classlet.Proofs.Values
import Classlet.Proofs.Words
import Classlet.Proofs.WriteOnce
import Classlet.Text
import Classlet.Tree.Expression
import Classlet.Tree.Node
import Classlet.Tree.Program
import Classlet.Tree.Supply
import Classlet.Ty.Basic
import Classlet.Ty.Join
import Classlet.Ty.Subtype
import Classlet.Typing.Check
import Classlet.Typing.Error
import Classlet.Typing.Operator
import Classlet.Word
import Classlet.WrittenType
