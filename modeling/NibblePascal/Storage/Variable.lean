import NibblePascal.Storage.Width

/-!
# Variables and arrays

A scalar lies in bank 0, its lowest cell first.  An array has a slot of 256 cells in one of
the higher banks, its first element first.
-/

namespace NibblePascal

/-- A scalar variable; `temp` marks a temporary of the compiler. -/
structure Var where
  name : String
  width : Width
  addr : Nat
  block : String := ""
  temp : Bool := false
  deriving DecidableEq, Repr, Inhabited

namespace Var

/-- The number of cells. -/
def cells (v : Var) : Nat := v.width.cells

/-- The address of a cell, counted from the lowest. -/
def cell (v : Var) (i : Nat) : Nat := v.addr + i

/-- The address of the highest cell. -/
def top (v : Var) : Nat := v.addr + v.cells - 1

/-- The addresses of all cells, the lowest first. -/
def cellList (v : Var) : List Nat := (List.range v.cells).map v.cell

end Var

/-- An array: `addr` is the first cell of its slot within its bank. -/
structure ArrayVar where
  name : String
  width : Width
  addr : Nat
  len : Nat
  bank : Nat
  block : String := ""
  deriving DecidableEq, Repr, Inhabited

/-- The number of cells that the elements take. -/
def ArrayVar.size (a : ArrayVar) : Nat := a.len * a.width.cells

/-- What a name of a program stands for. -/
inductive Symbol
  | scalar (v : Var)
  | array (a : ArrayVar)
  deriving DecidableEq, Repr, Inhabited

namespace Symbol

/-- The name of a symbol. -/
def name : Symbol → String
  | scalar v => v.name
  | array a => a.name

/-- The address of the first cell, within its bank. -/
def addr : Symbol → Nat
  | scalar v => v.addr
  | array a => a.addr

end Symbol

end NibblePascal
