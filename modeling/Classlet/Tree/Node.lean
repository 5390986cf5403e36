import Classlet.Tree.Supply

/-!
How each kind of node is built from the nodes below it. A node that uses a name
or declares one has a number; the others have a position only.
-/

namespace Classlet.Build

def lit (value : Literal) : Build Expr := stamped (.lit value)

def name (x : String) : Build Expr := numbered fun id pos => .name id x pos

def binary (op : BinOp) (left right : Expr) : Build Expr := stamped (.binary op left right)

def not (operand : Expr) : Build Expr := stamped (.not operand)

def cond (test yes no : Expr) : Build Expr := stamped (.cond test yes no)

def print (operand : Expr) : Build Expr := stamped (.print operand)

def call (callee : String) (args : List Expr) : Build Expr :=
  numbered fun id pos => .call id callee args pos

def send (receiver method : String) (args : List Expr) : Build Expr :=
  numbered fun id pos => .send id receiver method args pos

def new (cls : String) (args : List Expr) : Build Expr :=
  numbered fun id pos => .new id cls args pos

/-- A parameter or a field. -/
def binder (name : String) (type : WrittenType) : Build Binder :=
  numbered fun id pos => { id, name, type, pos }

def var (name : String) (type : WrittenType) (init : Expr) : Build Decl :=
  numbered fun id pos => .var id name type init pos

def fn (name : String) (ret : WrittenType) (params : List Binder) (decls : List Decl)
    (body : Expr) : Build Decl :=
  numbered fun id pos => .fn id name params ret decls body pos

def method (name : String) (ret : WrittenType) (params : List Binder) (decls : List Decl)
    (body : Expr) : Build MethodDecl :=
  numbered fun id pos => { id, name, params, ret, decls, body, pos }

def cls (name : String) (parent? : Option String) (fields : List Binder)
    (methods : List MethodDecl) : Build ClassDecl :=
  numbered fun id pos => { id, name, parent?, fields, methods, pos }

def program (classes : List ClassDecl) (decls : List Decl) (body : Expr) : Build Program :=
  stamped fun pos => { classes, decls, body, pos }

end Classlet.Build
