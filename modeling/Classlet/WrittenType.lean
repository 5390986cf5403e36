import Classlet.Position
import Classlet.Ty.Basic

/-!
Types as they are written in a program. A written type may name a class; it
always lowers to a type, whether or not the class exists, and the first class
that does not exist can be asked for.
-/

namespace Classlet

inductive WrittenType where
  | int (pos : Position)
  | bool (pos : Position)
  | named (cls : String) (pos : Position)
  | arrow (sig : Signature WrittenType) (pos : Position)

namespace WrittenType

def pos : WrittenType → Position
  | .int p | .bool p | .named _ p | .arrow _ p => p

mutual

def lower : WrittenType → Ty
  | .int _ => .int
  | .bool _ => .bool
  | .named c _ => .ref c
  | .arrow s _ => .arrow (lowerSignature s)
termination_by structural a => a

def lowerSignature : Signature WrittenType → Signature Ty
  | ⟨ps, r⟩ => ⟨lowerList ps, lower r⟩
termination_by structural s => s

def lowerList : List WrittenType → List Ty
  | [] => []
  | a :: as => lower a :: lowerList as
termination_by structural as => as

end

mutual

/-- The first class name in reading order that `known` does not have, with its
position. -/
def unknownClass? (known : String → Bool) : WrittenType → Option (Located String)
  | .int _ | .bool _ => none
  | .named c p => if known c then none else some ⟨p, c⟩
  | .arrow s _ => unknownInSignature? known s
termination_by structural a => a

def unknownInSignature? (known : String → Bool) : Signature WrittenType → Option (Located String)
  | ⟨ps, r⟩ => (unknownInList? known ps).or (unknownClass? known r)
termination_by structural s => s

def unknownInList? (known : String → Bool) : List WrittenType → Option (Located String)
  | [] => none
  | a :: as => (unknownClass? known a).or (unknownInList? known as)
termination_by structural as => as

end

end WrittenType

end Classlet
