/-!
# Widths of numbers

A scalar takes one, two or four cells.  Widths are ordered by size; `Width.fit` is the
narrowest width that holds a number, and `Width.limit` the least number that a width cannot
hold.
-/

namespace NibblePascal

/-- The width of a scalar. -/
inductive Width
  | nibble
  | byte
  | word
  deriving DecidableEq, Repr, Inhabited

namespace Width

/-- The number of cells. -/
def cells : Width → Nat
  | nibble => 1
  | byte => 2
  | word => 4

/-- The least number that does not fit. -/
def limit (w : Width) : Nat := Nat.pow 16 w.cells

/-- The narrowest width of a sixteen-bit number. -/
def fit (value : Nat) : Width :=
  if value < 0x10 then nibble else if value < 0x100 then byte else word

/-- The name of a width in a declaration. -/
def keyword : Width → String
  | nibble => "nibble"
  | byte => "byte"
  | word => "word"

/-- The name of a width in messages and tables. -/
def title : Width → String
  | nibble => "Nibble"
  | byte => "Byte"
  | word => "Word"

/-- Every width, the narrowest first. -/
def all : List Width := [nibble, byte, word]

/-- The width of a name in a declaration, spelled exactly. -/
def ofKeyword? (name : String) : Option Width := all.find? (·.keyword == name)

/-- The first width is the narrower one. -/
def isBelow (v w : Width) : Bool := decide (v.cells < w.cells)

/-- The cells of a number at a width, the lowest first. -/
def split (w : Width) (value : Nat) : List Nat :=
  (List.range w.cells).map fun i => value / Nat.pow 16 i % 16

end Width

end NibblePascal
