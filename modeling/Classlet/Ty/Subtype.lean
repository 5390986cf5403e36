import Classlet.Ancestry
import Classlet.Ty.Basic

/-!
Subtyping over a class ancestry. A boolean is an integer, null is a reference
to every class, and a reference follows its class upwards. Signatures have the
same number of parameters, vary against their parameters and with their result;
a class has at least the fields and methods of the other one, and those vary
with it.

Parameters turn the direction around, so the comparison carries the direction
along and always descends into its first type.
-/

namespace Classlet

/-- The direction in which a position of a type varies. -/
inductive Variance where
  | co
  | contra
deriving DecidableEq

namespace Variance

def flip : Variance → Variance
  | .co => .contra
  | .contra => .co

/-- A relation read in the given direction. -/
def along {α : Type} (v : Variance) (r : α → α → Bool) (a b : α) : Bool :=
  match v with
  | .co => r a b
  | .contra => r b a

end Variance

namespace Ty

mutual

/-- With `co` whether the first type can stand for the second one, with
`contra` whether the second can stand for the first. -/
def compare (h : Ancestry) (v : Variance) : Ty → Ty → Bool
  | .int, .int | .bool, .bool | .null, .null => true
  | .bool, .int | .null, .ref _ => v = .co
  | .int, .bool | .ref _, .null => v = .contra
  | .ref c, .ref d => v.along h.descends c d
  | .arrow s, .arrow t => compareSignature h v s t
  | .method s, .method t => compareSignature h v s t
  | .cls fs ms, .cls gs ns =>
    v.along (fun m n => decide (n ≤ m)) fs.length gs.length &&
      v.along (fun m n => decide (n ≤ m)) ms.length ns.length &&
      compareList h v fs gs && compareSignatures h v ms ns
  | _, _ => false
termination_by structural a => a

def compareSignature (h : Ancestry) (v : Variance) : Signature Ty → Signature Ty → Bool
  | ⟨ps, r⟩, ⟨qs, u⟩ =>
    ps.length == qs.length && compare h v r u && compareList h v.flip ps qs
termination_by structural s => s

/-- Compares position by position, as far as both lists go. -/
def compareList (h : Ancestry) (v : Variance) : List Ty → List Ty → Bool
  | a :: as, b :: bs => compare h v a b && compareList h v as bs
  | _, _ => true
termination_by structural as => as

def compareSignatures (h : Ancestry) (v : Variance) :
    List (Signature Ty) → List (Signature Ty) → Bool
  | s :: ss, t :: ts => compareSignature h v s t && compareSignatures h v ss ts
  | _, _ => true
termination_by structural ss => ss

end

def subtypeOf (h : Ancestry) (a b : Ty) : Bool := a.compare h .co b

end Ty

def Signature.subtypeOf (h : Ancestry) (s t : Signature Ty) : Bool :=
  Ty.compareSignature h .co s t

end Classlet
