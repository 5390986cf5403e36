import Classlet.Word

/-!
Words as signed decimal numerals. A word is written with its fewest digits and
a minus sign where it is negative. Reading also takes a plus sign and leading
zeros, and refuses whatever is not the numeral of a word.
-/

namespace Classlet.Numeral

def ofNat (n : Nat) : List Char := Nat.toDigits 10 n

def ofInt : Int → List Char
  | .ofNat n => ofNat n
  | .negSucc n => '-' :: ofNat (n + 1)

def text (w : Word) : String := String.ofList (ofInt w.toInt)

/-- The value of a run of decimal digits, which must not be empty. -/
def readNat? (cs : List Char) : Option Nat :=
  if !cs.isEmpty && cs.all Char.isDigit then some (Nat.ofDigitChars 10 cs 0) else none

def readInt? : List Char → Option Int
  | '+' :: cs => (readNat? cs).map fun n => (n : Int)
  | '-' :: cs => (readNat? cs).map fun n => -(n : Int)
  | cs => (readNat? cs).map fun n => (n : Int)

/-- Reads the numeral of a word; a numeral out of range is no word's. -/
def read? (cs : List Char) : Option Word := (readInt? cs).bind Word.ofInt?

end Classlet.Numeral
