import Classlet.Binding.Header
import Classlet.Binding.Occurrence

/-!
Binding of a whole program. The headers of all classes come first, so a method
sees every class and all members of its own class; then the methods, each in a
frame of its own inside the frame of its class's members; then the declarations
and the body of the program in the outermost frame.
-/

namespace Classlet

namespace Resolution

mutual

/-- Binds a declaration. A variable is not yet visible in its own value, while
a function is visible in its own body. -/
def bindDecl : Decl → Resolution → Resolution
  | .var id name type init pos, r =>
    ((r.bindExpr init).checkType type).declareLocal id name .variable type.lower pos
  | .fn id name params ret decls body pos, r =>
    let r := (r.checkSignature params ret).declareLocal id name .function
      (.arrow (signatureOf params ret)) pos
    let r := bindDecls decls (params.foldl declareParam r.enter)
    (r.bindExpr body).leave
termination_by structural d => d

def bindDecls : List Decl → Resolution → Resolution
  | [], r => r
  | d :: ds, r => bindDecls ds (bindDecl d r)
termination_by structural ds => ds

end

/-- Binds the inside of a method, whose signature belongs to the class header. -/
def bindMethod (r : Resolution) (m : MethodDecl) : Resolution :=
  let r := bindDecls m.decls (m.params.foldl declareParam r.enter)
  (r.bindExpr m.body).leave

/-- Binds the methods of a class inside a frame of its members. -/
def bindClass (r : Resolution) (c : ClassDecl) (members : Names) : Resolution :=
  (c.methods.foldl bindMethod (r.enter members)).leave

end Resolution

/-- Binds every name of a program. -/
def Program.resolve (p : Program) : Resolution :=
  let r : Resolution := { classNames := p.classes.map ClassDecl.name }
  let (r, members) := Resolution.layClasses p.classes r.enter
  let r := (p.classes.zip members).foldl (fun r (c, ms) => r.bindClass c ms) r
  ((Resolution.bindDecls p.decls r).bindExpr p.body).leave

end Classlet
