import Classlet.Numeral

/-!
Labels name places in generated code. Branch targets and function entries are
numbered apart, so a label of one sort never meets one of the other.

The numbers have no upper bound. With fewer than 2^32 labels of each sort all of
them fit in 32 bits, and so do the next ones.
-/

namespace Classlet

inductive Label where
  | branch (n : Nat)
  | function (n : Nat)
deriving DecidableEq

namespace Label

def text : Label → String
  | .branch n => "label" ++ String.ofList (Numeral.ofNat n)
  | .function n => "function" ++ String.ofList (Numeral.ofNat n)

/-- Reads the word of a sort and then the digits of a number. -/
def read? (cs : List Char) : Option Label :=
  match cs with
  | 'l' :: 'a' :: 'b' :: 'e' :: 'l' :: ds => (Numeral.readNat? ds).map .branch
  | 'f' :: 'u' :: 'n' :: 'c' :: 't' :: 'i' :: 'o' :: 'n' :: ds =>
    (Numeral.readNat? ds).map .function
  | _ => none

end Label

/-- How many labels of each sort have been handed out. -/
structure LabelSupply where
  branches : Nat := 0
  functions : Nat := 0

namespace LabelSupply

def takeBranch (s : LabelSupply) : Label × LabelSupply :=
  (.branch s.branches, { s with branches := s.branches + 1 })

def takeFunction (s : LabelSupply) : Label × LabelSupply :=
  (.function s.functions, { s with functions := s.functions + 1 })

end LabelSupply

end Classlet
