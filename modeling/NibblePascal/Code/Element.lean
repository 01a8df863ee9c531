import NibblePascal.Code.Scalar

/-!
# Code for arrays

An element is reached through the pair `B`: its cell offset within the slot of the array is
computed in a byte, and the bank of the array is selected for the access only.
-/

namespace NibblePascal.Code

/-- `offset := ` the cell offset of the element with the given index.  Of a wide index the
lowest two cells count. -/
def elementOffset (arr : ArrayVar) (index offset : Var) : List Line :=
  [load (index.cell 0), store (offset.cell 0),
   if index.width == .nibble then loadImm 0 else load (index.cell 1),
   store (offset.cell 1)]
    ++ match arr.width with
      | .nibble => []
      | .byte => shiftLeft offset
      | .word => shiftLeft offset ++ shiftLeft offset

/-- Point `B` at an offset. -/
def point (offset : Var) : List Line :=
  [load (offset.cell 0), toLow, load (offset.cell 1), toHigh]

/-- `dst := arr[index]`, with the help of the byte `offset`. -/
def readElement (arr : ArrayVar) (index dst offset : Var) : List Line :=
  elementOffset arr index offset
    ++ (List.range arr.width.cells).flatMap fun i =>
      point offset
        ++ [bank arr.bank, .inst (.lda (.banked arr.addr)), bank 0, store (dst.cell i)]
        ++ if i + 1 < arr.width.cells then increment offset else []

/-- `arr[index] := src`, with the help of the byte `offset`. -/
def writeElement (arr : ArrayVar) (index src offset : Var) : List Line :=
  elementOffset arr index offset
    ++ (List.range arr.width.cells).flatMap fun i =>
      point offset
        ++ [load (src.cell i), bank arr.bank, .inst (.sta (.banked arr.addr)), bank 0]
        ++ if i + 1 < arr.width.cells then increment offset else []

/-- Whether the offset of a cell has another high half than that of the cell before. -/
def opensRow : Nat → Bool
  | 0 => true
  | i + 1 => (i + 1) / 16 % 16 != i / 16 % 16

/-- Point `B` at a cell of a slot; the high half is loaded only where it changes. -/
def pointCell (i : Nat) : List Line :=
  [loadImm (i % 16), toLow] ++ if opensRow i then [loadImm (i / 16 % 16), toHigh] else []

/-- Store constants into an array from its first cell on. -/
def fillArray (arr : ArrayVar) (cells : List Nat) : List Line :=
  [bank arr.bank]
    ++ (cells.zipIdx.flatMap fun (value, i) =>
      pointCell i ++ [loadImm value, .inst (.sta (.banked arr.addr))])
    ++ [bank 0]

/-- Copy the cells of `src` into `dst`. -/
def copyArray (src dst : ArrayVar) : List Line :=
  ((List.range src.size).flatMap fun i =>
    pointCell i
      ++ [bank src.bank, .inst (.lda (.banked src.addr)),
          bank dst.bank, .inst (.sta (.banked dst.addr))])
    ++ [bank 0]

end NibblePascal.Code
