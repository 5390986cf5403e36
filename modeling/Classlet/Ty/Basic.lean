/-!
Types of values and of declared names. The four data types are the integers,
the booleans, the type of null and the references to a class. Functions and
methods have a signature; a class is the list of its field types followed by
the list of its method signatures, both in layout order.
-/

namespace Classlet

/-- Parameter types and a result type, over any kind of type. -/
structure Signature (τ : Type) where
  params : List τ
  ret : τ
deriving DecidableEq

inductive Ty where
  | int
  | bool
  | null
  | ref (cls : String)
  | arrow (sig : Signature Ty)
  | method (sig : Signature Ty)
  | cls (fields : List Ty) (methods : List (Signature Ty))

/-- The fields and methods of a class, each list in layout order. -/
structure ClassShape where
  fields : List Ty := []
  methods : List (Signature Ty) := []

namespace Ty

/-! Equality of types is decided by walking both at once. -/

mutual

def decEq : (a b : Ty) → Decidable (a = b)
  | .int, .int | .bool, .bool | .null, .null => isTrue rfl
  | .ref c, .ref d =>
    if h : c = d then isTrue (h ▸ rfl) else isFalse fun e => h (Ty.ref.inj e)
  | .arrow s, .arrow t =>
    match decEqSignature s t with
    | isTrue h => isTrue (h ▸ rfl)
    | isFalse h => isFalse fun e => h (Ty.arrow.inj e)
  | .method s, .method t =>
    match decEqSignature s t with
    | isTrue h => isTrue (h ▸ rfl)
    | isFalse h => isFalse fun e => h (Ty.method.inj e)
  | .cls fs ms, .cls gs ns =>
    match decEqList fs gs, decEqSignatures ms ns with
    | isTrue h, isTrue k => isTrue (h ▸ k ▸ rfl)
    | isFalse h, _ => isFalse fun e => h (Ty.cls.inj e).1
    | _, isFalse k => isFalse fun e => k (Ty.cls.inj e).2
  | .int, .bool | .int, .null | .int, .ref _ | .int, .arrow _ | .int, .method _ | .int, .cls _ _
  | .bool, .int | .bool, .null | .bool, .ref _ | .bool, .arrow _ | .bool, .method _
  | .bool, .cls _ _
  | .null, .int | .null, .bool | .null, .ref _ | .null, .arrow _ | .null, .method _
  | .null, .cls _ _
  | .ref _, .int | .ref _, .bool | .ref _, .null | .ref _, .arrow _ | .ref _, .method _
  | .ref _, .cls _ _
  | .arrow _, .int | .arrow _, .bool | .arrow _, .null | .arrow _, .ref _ | .arrow _, .method _
  | .arrow _, .cls _ _
  | .method _, .int | .method _, .bool | .method _, .null | .method _, .ref _
  | .method _, .arrow _ | .method _, .cls _ _
  | .cls _ _, .int | .cls _ _, .bool | .cls _ _, .null | .cls _ _, .ref _
  | .cls _ _, .arrow _ | .cls _ _, .method _ => isFalse nofun
termination_by structural a => a

def decEqSignature : (s t : Signature Ty) → Decidable (s = t)
  | ⟨ps, r⟩, ⟨qs, u⟩ =>
    match decEqList ps qs, decEq r u with
    | isTrue h, isTrue k => isTrue (h ▸ k ▸ rfl)
    | isFalse h, _ => isFalse fun e => h (Signature.mk.inj e).1
    | _, isFalse k => isFalse fun e => k (Signature.mk.inj e).2
termination_by structural s => s

def decEqList : (as bs : List Ty) → Decidable (as = bs)
  | [], [] => isTrue rfl
  | [], _ :: _ => isFalse nofun
  | _ :: _, [] => isFalse nofun
  | a :: as, b :: bs =>
    match decEq a b, decEqList as bs with
    | isTrue h, isTrue k => isTrue (h ▸ k ▸ rfl)
    | isFalse h, _ => isFalse fun e => h (List.cons.inj e).1
    | _, isFalse k => isFalse fun e => k (List.cons.inj e).2
termination_by structural as => as

def decEqSignatures : (ss ts : List (Signature Ty)) → Decidable (ss = ts)
  | [], [] => isTrue rfl
  | [], _ :: _ => isFalse nofun
  | _ :: _, [] => isFalse nofun
  | s :: ss, t :: ts =>
    match decEqSignature s t, decEqSignatures ss ts with
    | isTrue h, isTrue k => isTrue (h ▸ k ▸ rfl)
    | isFalse h, _ => isFalse fun e => h (List.cons.inj e).1
    | _, isFalse k => isFalse fun e => k (List.cons.inj e).2
termination_by structural ss => ss

end

instance : DecidableEq Ty := decEq

/-- The signature of what can be called. -/
def signature? : Ty → Option (Signature Ty)
  | .arrow s | .method s => some s
  | _ => none

def hasSignature (t : Ty) : Bool := t.signature?.isSome

def isMethod : Ty → Bool
  | .method _ => true
  | _ => false

/-- The class that a reference refers to. -/
def referent? : Ty → Option String
  | .ref c => some c
  | _ => none

/-- The two lists of a class type. -/
def shape? : Ty → Option ClassShape
  | .cls fields methods => some { fields, methods }
  | _ => none

/-! A signature is written as an arrow. A class is written by the lengths of its
two lists, since its name is not part of its type. -/

mutual

def text : Ty → String
  | .int => "int"
  | .bool => "bool"
  | .null => "null"
  | .ref c => c
  | .arrow s => signatureText s
  | .method s => "method " ++ signatureText s
  | .cls fs ms => s!"class({fs.length} fields, {ms.length} methods)"
termination_by structural t => t

def signatureText : Signature Ty → String
  | ⟨ps, r⟩ => "(" ++ ", ".intercalate (texts ps) ++ ") -> " ++ text r
termination_by structural s => s

def texts : List Ty → List String
  | [] => []
  | t :: ts => text t :: texts ts
termination_by structural ts => ts

end

end Ty

def ClassShape.toTy (s : ClassShape) : Ty := .cls s.fields s.methods

def Signature.text (s : Signature Ty) : String := Ty.signatureText s

end Classlet
