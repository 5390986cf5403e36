import Classlet.Numeral
import Classlet.Position

/-!
Expressions. Every node has a position; a node that refers to a declaration has
a number as well, under which what is known about it can be filed.
-/

namespace Classlet

abbrev NodeId := Nat

inductive Literal where
  | int (value : Word)
  | bool (value : Bool)
  | null
deriving DecidableEq

def Literal.text : Literal → String
  | .int w => Numeral.text w
  | .bool true => "true"
  | .bool false => "false"
  | .null => "null"

inductive BinOp where
  | equal
  | lessEqual
  | greaterEqual
  | and
  | or
  | add
  | sub
  | mul
  | div
deriving DecidableEq

namespace BinOp

def text : BinOp → String
  | .equal => "=="
  | .lessEqual => "<="
  | .greaterEqual => ">="
  | .and => "&&"
  | .or => "||"
  | .add => "+"
  | .sub => "-"
  | .mul => "*"
  | .div => "/"

def all : List BinOp :=
  [.equal, .lessEqual, .greaterEqual, .and, .or, .add, .sub, .mul, .div]

def ofText? (s : String) : Option BinOp := all.find? fun o => o.text == s

end BinOp

inductive Expr where
  | lit (value : Literal) (pos : Position)
  | name (id : NodeId) (name : String) (pos : Position)
  | binary (op : BinOp) (left right : Expr) (pos : Position)
  | not (operand : Expr) (pos : Position)
  | cond (test yes no : Expr) (pos : Position)
  | print (operand : Expr) (pos : Position)
  | call (id : NodeId) (callee : String) (args : List Expr) (pos : Position)
  | send (id : NodeId) (receiver method : String) (args : List Expr) (pos : Position)
  | new (id : NodeId) (cls : String) (args : List Expr) (pos : Position)

namespace Expr

def pos : Expr → Position
  | .lit _ p | .name _ _ p | .binary _ _ _ p | .not _ p | .cond _ _ _ p | .print _ p
  | .call _ _ _ p | .send _ _ _ _ p | .new _ _ _ p => p

def id? : Expr → Option NodeId
  | .name id _ _ | .call id _ _ _ | .send id _ _ _ _ | .new id _ _ _ => some id
  | .lit _ _ | .binary _ _ _ _ | .not _ _ | .cond _ _ _ _ | .print _ _ => none

end Expr

end Classlet
