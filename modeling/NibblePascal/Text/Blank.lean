/-!
# Blank characters

* `blankRanges` lists the code points with the property White_Space;
* `isBlank` tests for it;
* `trim`, `trimStart`, `trimEnd` and `isBlankText` work on lists of characters.
-/

namespace NibblePascal

/-- The code points with the property White_Space, as closed ranges in ascending order. -/
def blankRanges : List (Nat × Nat) :=
  [(0x9, 0xD), (0x20, 0x20), (0x85, 0x85), (0xA0, 0xA0), (0x1680, 0x1680), (0x2000, 0x200A),
   (0x2028, 0x2029), (0x202F, 0x202F), (0x205F, 0x205F), (0x3000, 0x3000)]

/-- `n` lies in one of the ranges, which are closed and in ascending order: the search ends
at the first range that does not lie below `n`. -/
def inRanges (n : Nat) : List (Nat × Nat) → Bool
  | [] => false
  | (lo, hi) :: rest => if hi < n then inRanges n rest else decide (lo ≤ n)

/-- A character with the property White_Space. -/
def isBlank (c : Char) : Bool := inRanges c.toNat blankRanges

/-- A text of blanks only. -/
def isBlankText (cs : List Char) : Bool := cs.all isBlank

/-- The text without its leading blanks. -/
def trimStart (cs : List Char) : List Char := cs.dropWhile isBlank

/-- The text without its trailing blanks. -/
def trimEnd (cs : List Char) : List Char := (cs.reverse.dropWhile isBlank).reverse

/-- The text without the blanks at either end. -/
def trim (cs : List Char) : List Char := trimEnd (trimStart cs)

end NibblePascal
