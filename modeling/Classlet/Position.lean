/-!
Positions in a source text. A position knows its line and sometimes its
column, both counted from one; zero stands for what is not known. Anything
that is reported about a program is located at a position.
-/

namespace Classlet

structure Position where
  line : Nat := 0
  col : Nat := 0
deriving DecidableEq

namespace Position

/-- A position of which only the line is known. -/
def ofLine (line : Nat) : Position := { line }

def isKnown (p : Position) : Bool := p.line != 0

/-- Earlier lines come first, and on one line earlier columns. -/
def order (p q : Position) : Ordering :=
  (compare p.line q.line).then (compare p.col q.col)

/-- The earlier of two positions, where an unknown one gives way. -/
def merge (p q : Position) : Position :=
  if !p.isKnown then q
  else if !q.isKnown then p
  else if q.order p = .lt then q else p

/-- Line and column around a colon. -/
def brief (p : Position) : String := s!"{p.line}:{p.col}"

/-- The position in words; an unknown column is left out. -/
def text (p : Position) : String :=
  if p.col = 0 then s!"line {p.line}" else s!"line {p.brief}"

end Position

/-- What a report says, and where. -/
structure Located (α : Type) where
  pos : Position
  cause : α
deriving DecidableEq

/-- The wording of a located report, from the wording of its cause. -/
def Located.text {α : Type} (causeText : α → String) (r : Located α) : String :=
  s!"at {r.pos.text}: {causeText r.cause}"

end Classlet
