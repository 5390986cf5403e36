import Classlet.Ty.Subtype

/-!
The join of two types: the type of a conditional whose branches have them. Of
two comparable types it is the greater one, and two references also meet at
the nearest ancestor of the first that is above the second.
-/

namespace Classlet.Ty

def join? (h : Ancestry) (a b : Ty) : Option Ty :=
  if a.subtypeOf h b then some b
  else if b.subtypeOf h a then some a
  else
    match a with
    | .ref c => ((h.ancestors c).map Ty.ref).find? fun t => b.subtypeOf h t
    | _ => none

end Classlet.Ty
