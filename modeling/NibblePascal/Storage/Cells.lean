import NibblePascal.Storage.Width

/-!
# Contents of cells

The cells of texts and of lists of numbers, as they are stored in arrays.
-/

namespace NibblePascal

/-- The cells of a text, two for each character and the low half first; or the first
character that does not fit in a byte. -/
def textCells : List Char → Except Char (List Nat)
  | [] => .ok []
  | c :: cs =>
      if c.toNat < 0x100 then
        match textCells cs with
        | .ok cells => .ok (c.toNat % 16 :: c.toNat / 16 :: cells)
        | .error c => .error c
      else .error c

/-- The cells of numbers at a width. -/
def valueCells (width : Width) (values : List Nat) : List Nat := values.flatMap width.split

end NibblePascal
