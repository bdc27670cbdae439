/-! # Positions in a text

A position is a line and a column, both counted from 1 in numbers of 32 bits,
which wrap around. Every character takes one column, tabs and carriage returns
included; only a newline starts a line.
`Position.locate` pairs each character of a text with its own position, and
`Located` carries a position beside any other value. -/

namespace BlockLang

structure Position where
  line : UInt32
  column : UInt32
deriving DecidableEq, Repr

/-- A value together with the position at which it begins. -/
structure Located (α : Type) where
  position : Position
  value : α
deriving DecidableEq, Repr

namespace Position

/-- The position of the first character of a text. -/
def start : Position := ⟨1, 1⟩

/-- The next column of the same line. -/
def advance (p : Position) : Position := ⟨p.line, p.column + 1⟩

/-- The first column of the next line. -/
def newline (p : Position) : Position := ⟨p.line + 1, 1⟩

/-- The position that follows a character standing at `p`. -/
def after (p : Position) (c : Char) : Position :=
  if c = '\n' then p.newline else p.advance

/-- A position as it is shown to the user, `(line,column)`. -/
def text (p : Position) : String :=
  "(" ++ toString p.line.toNat ++ "," ++ toString p.column.toNat ++ ")"

/-- Pair each character with its position, the first one standing at `p`. -/
def locate (p : Position) : List Char → List (Located Char)
  | [] => []
  | c :: rest => ⟨p, c⟩ :: locate (p.after c) rest

end Position

def locatedChars (source : String) : List (Located Char) :=
  Position.start.locate source.toList

def Located.following (c : Located Char) : Position :=
  c.position.after c.value

def plainChars (cs : List (Located Char)) : List Char :=
  cs.map Located.value

@[simp] theorem plainChars_locate (p : Position) (cs : List Char) :
    plainChars (p.locate cs) = cs := by
  induction cs generalizing p with
  | nil => rfl
  | cons c rest ih => simpa [Position.locate, plainChars] using ih (p.after c)

end BlockLang
