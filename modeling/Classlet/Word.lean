/-!
The machine word is a 64-bit integer in two's complement. Sums, differences
and products wrap around; a quotient is taken towards zero and is missing
where no word holds it.
-/

namespace Classlet

abbrev Word := Int64

namespace Word

/-- The word of an integer that lies in the range of words. -/
def ofInt? (n : Int) : Option Word :=
  if Int64.minValue.toInt ≤ n ∧ n ≤ Int64.maxValue.toInt then some (Int64.ofInt n) else none

/-- A word that is not negative, read as an index. -/
def index? (w : Word) : Option Nat :=
  if 0 ≤ w then some w.toNatClampNeg else none

/-- The quotient towards zero. It is missing for the divisor zero, and for the
least word divided by minus one, whose quotient is one past the greatest word. -/
def quotient? (a b : Word) : Option Word :=
  if b = 0 ∨ (a = Int64.minValue ∧ b = -1) then none else some (a / b)

end Word

end Classlet
