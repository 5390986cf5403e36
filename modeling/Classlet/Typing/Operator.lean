import Classlet.Tree.Expression
import Classlet.Ty.Subtype
import Classlet.Typing.Error

/-!
Types of literals and of binary operations. Equality compares any two types of
which one is a subtype of the other, functions excepted; every other operator
takes two operands of one type.
-/

namespace Classlet

def Literal.type : Literal → Ty
  | .int _ => .int
  | .bool _ => .bool
  | .null => .null

namespace BinOp

/-- The type of the operands and of the result, for all but equality. -/
def signature? : BinOp → Option (Ty × Ty)
  | .equal => none
  | .lessEqual | .greaterEqual => some (.int, .bool)
  | .and | .or => some (.bool, .bool)
  | .add | .sub | .mul | .div => some (.int, .int)

/-- The type of an operation on operands of the given types. -/
def resultType (h : Ancestry) (op : BinOp) (left right : Ty) : Except TypingFault Ty :=
  match op.signature? with
  | some (operand, result) =>
    if left.subtypeOf h operand && right.subtypeOf h operand then .ok result
    else .error (.operandTypes op.text left right)
  | none =>
    if left.hasSignature || right.hasSignature then .error .functionEquality
    else if left.subtypeOf h right || right.subtypeOf h left then .ok .bool
    else .error (.operandTypes op.text left right)

end BinOp

/-- What a name of the given type is declared as, if the name alone is no
value. -/
def Ty.nameKind? : Ty → Option NameKind
  | .arrow _ => some .function
  | .method _ => some .method
  | .cls _ _ => some .cls
  | _ => none

end Classlet
