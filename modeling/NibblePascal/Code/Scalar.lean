import NibblePascal.Assembly.Line
import NibblePascal.Storage.Variable

/-!
# Code for scalars

Lines of assembly that copy scalars, change their widths, combine them and exchange them with
the ports.  Every fragment works from the lowest cell up, except the shift to the right and
the comparison, which work from the highest cell down.
-/

namespace NibblePascal.Code

/-! ### Single lines -/

/-- Load the accumulator from a cell of bank 0. -/
def load (addr : Nat) : Line := .inst (.lda (.mem addr))

/-- Load the low four bits of a constant. -/
def loadImm (value : Nat) : Line := .inst (.lda (.imm (value % 16)))

/-- Store the accumulator into a cell of bank 0. -/
def store (addr : Nat) : Line := .inst (.sta (.mem addr))

/-- Apply an operation to the accumulator. -/
def alu (op : AluOp) : Line := .inst (.alu op)

/-- Set the carry. -/
def carry (value : Nat) : Line := .inst (.stc value)

/-- Copy the accumulator to the low half of `B`. -/
def toLow : Line := .inst .ldbl

/-- Copy the accumulator to the high half of `B`. -/
def toHigh : Line := .inst .ldbh

/-- Compare the accumulator with the low half of `B`. -/
def cmp : Line := .inst .cmp

/-- Select a bank. -/
def bank (value : Nat) : Line := .inst (.bnk value)

/-- Jump to a label. -/
def jump (kind : JumpKind) (target : String) : Line := .inst (.jump kind target)

/-- A comment. -/
def comment (text : String) : Line := .comment ("; " ++ text)

/-- The name of the label with the given number. -/
def labelName (n : Nat) : String := "@label" ++ toString n

/-- The line of the label with the given number. -/
def label (n : Nat) : Line := .label (labelName n)

/-! ### Copies -/

/-- Copy the lowest `count` cells, each through an operation if one is given. -/
def copyCells (src dst : Var) (op : Option AluOp) (count : Nat) : List Line :=
  (List.range count).flatMap fun i =>
    [load (src.cell i)] ++ op.toList.map alu ++ [store (dst.cell i)]

/-- `dst := src`, each cell through an operation if one is given. -/
def assign (src dst : Var) (op : Option AluOp) : List Line := copyCells src dst op src.cells

/-- Clear the cells from number `start` on. -/
def clearFrom (v : Var) (start : Nat) : List Line :=
  loadImm 0 :: (v.cellList.drop start).map store

/-- `v := 0`. -/
def clear (v : Var) : List Line := clearFrom v 0

/-- `dst := value`. -/
def constant (value : Nat) (dst : Var) : List Line :=
  (List.range dst.cells).flatMap fun i => [loadImm (value / Nat.pow 16 i), store (dst.cell i)]

/-- `dst := src` between different widths: cells that `dst` does not have are dropped, and
cells that `src` does not have are cleared. -/
def resize (src dst : Var) : List Line :=
  copyCells src dst none (min src.cells dst.cells)
    ++ if src.cells < dst.cells then clearFrom dst src.cells else []

/-- `dst := ` the cells of `src` from number `start` on. -/
def extract (src : Var) (start : Nat) (dst : Var) : List Line :=
  (List.range dst.cells).flatMap fun i => [load (src.cell (start + i)), store (dst.cell i)]

/-! ### Arithmetic -/

/-- Whether an operation hands a carry on from cell to cell. -/
def chains : AluOp → Bool
  | .add | .sub => true
  | _ => false

/-- `dst := a op b` for operands of one width. -/
def combine (op : AluOp) (a b dst : Var) : List Line :=
  comment (dst.name ++ " = " ++ a.name ++ " " ++ op.mnemonic ++ " " ++ b.name) ::
    (List.range a.cells).flatMap fun i =>
      [load (b.cell i), toLow, load (a.cell i)]
        ++ (if chains op && i == 0 then [carry 0] else [])
        ++ [alu op, store (dst.cell i)]

/-- Add the carry to `v`, or subtract it, with the carry set. -/
def step (v : Var) (op : AluOp) : List Line :=
  [carry 1, loadImm 0, toLow] ++ assign v v (some op)

/-- `v := v + 1`. -/
def increment (v : Var) : List Line := step v .add

/-- `v := v - 1`. -/
def decrement (v : Var) : List Line := step v .sub

/-- `v := 2 * v`. -/
def shiftLeft (v : Var) : List Line := carry 0 :: assign v v (some .shl)

/-- `v := v / 2`. -/
def shiftRight (v : Var) : List Line :=
  carry 0 :: v.cellList.reverse.flatMap fun addr => [load addr, alu .shr, store addr]

/-! ### Ports -/

/-- Write the lowest cell to a port. -/
def output (port : Nat) (v : Var) : List Line := [load (v.cell 0), .inst (.out port)]

/-- Read the lowest cell from a port and clear the others. -/
def input (port : Nat) (v : Var) : List Line :=
  [.inst (.inp port), store (v.cell 0)] ++ if 1 < v.cells then clearFrom v 1 else []

/-- Select bank 0, reset the output ports and enter the main block. -/
def prologue : List Line :=
  [bank 0, loadImm 0] ++ (List.range 4).map (.inst <| .out ·)
    ++ [loadImm 2, .inst (.out 4), jump .jmp "@main"]

/-! ### Comparison -/

/-- Load a cell of each operand and compare them. -/
def compareCell (a b : Var) (i : Nat) : List Line :=
  [load (b.cell i), toLow, load (a.cell i), cmp]

/-- Jump to `above` if `a > b`, to `below` if `a < b`, and go on if they are equal. -/
def compare (a b : Var) (above below : String) : List Line :=
  carry 0 :: (List.range a.cells).reverse.flatMap fun i =>
    compareCell a b i ++ [jump .ja above, jump .jb below]

end NibblePascal.Code
