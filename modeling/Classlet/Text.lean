/-!
Texts as lists of characters, cut into lines and into the words between blanks.
The blanks are the characters with the `White_Space` property.
-/

namespace Classlet.Text

/-- The ranges of code points that are blank, both ends included. -/
def blankRanges : List (Nat × Nat) :=
  [(0x9, 0xD), (0x20, 0x20), (0x85, 0x85), (0xA0, 0xA0), (0x1680, 0x1680), (0x2000, 0x200A),
    (0x2028, 0x2029), (0x202F, 0x202F), (0x205F, 0x205F), (0x3000, 0x3000)]

def isBlank (c : Char) : Bool :=
  blankRanges.any fun (first, last) => first ≤ c.toNat && c.toNat ≤ last

/-- Puts a character in front of the first piece. -/
def consHead (c : Char) : List (List Char) → List (List Char)
  | [] => [[c]]
  | w :: ws => (c :: w) :: ws

/-- Cuts a text at every separator; pieces may be empty. -/
def pieces (separator : Char → Bool) (cs : List Char) : List (List Char) :=
  cs.foldr (fun c ws => if separator c then [] :: ws else consHead c ws) [[]]

def lines (cs : List Char) : List (List Char) := pieces (· == '\n') cs

/-- The words between blanks. -/
def tokens (cs : List Char) : List (List Char) := (pieces isBlank cs).filter fun w => !w.isEmpty

end Classlet.Text
