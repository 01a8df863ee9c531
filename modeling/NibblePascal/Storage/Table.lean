import NibblePascal.Defect
import NibblePascal.Storage.Allocator
import NibblePascal.Text.Colour
import NibblePascal.Text.Hex

/-!
# The symbol table

* `Allocator.table` lists the memory in use, the scalars and the arrays, one text line each;
* `Allocator.usage` is the summary line of a listing.

Addresses are sixteen bits wide, so the last cell of a scalar or of an array has to lie below
`0x10000`.
-/

namespace NibblePascal

/-- The number of cells of an array as a sixteen-bit number. -/
def ArrayVar.checkedSize (a : ArrayVar) : Except Defect Nat :=
  if a.size < 0x10000 then .ok a.size else .error .overflow

/-- The last cell of a scalar, if the address behind it has sixteen bits too. -/
def Var.checkedTop (v : Var) : Except Defect Nat :=
  if v.top + 1 < 0x10000 then .ok v.top else .error .overflow

/-- The line of a scalar: its cells, its width and its name. -/
def Var.tableLine (v : Var) : Except Defect String := do
  let last ← match v.width with
    | .nibble => pure "\t"
    | _ => v.checkedTop.map ("-$" ++ hex 3 ·)
  return "$" ++ hex 3 v.addr ++ last ++ "\t" ++ v.width.title ++ "\t" ++ v.name

/-- The line of an array: its cells, its element width and length, and its name. -/
def ArrayVar.tableLine (a : ArrayVar) : Except Defect String := do
  let size ← a.checkedSize
  let past := a.addr + max size 1
  if 0x10000 ≤ past then throw .overflow
  let bank := "$" ++ toString a.bank ++ ":"
  return bank ++ hex 3 a.addr ++ "-" ++ bank ++ hex 3 (past - 1) ++ "\t" ++ a.width.title
    ++ "[" ++ toString a.len ++ "]\t" ++ a.name

namespace Allocator

/-- The symbol table, line by line. -/
def table (a : Allocator) : Except Defect (List String) := do
  if scalarSpace < a.free then throw .overflow
  let vars ← a.vars.toList.mapM Var.tableLine
  let arrays ← a.arrays.toList.mapM ArrayVar.tableLine
  return [toString a.free ++ " bytes used.", toString (scalarSpace - a.free) ++ " bytes free.", ""]
    ++ vars ++ [""] ++ arrays

/-- The blocks that declare scalars, each once, in the order of their first scalar. -/
def blocks (a : Allocator) : List String :=
  (((a.vars.toList.filter (!·.temp)).map (·.block)).filter (!·.isEmpty)).eraseDups

/-- The summary line of the memory in use. -/
def usage (a : Allocator) : String :=
  Style.bold.paint (toString a.free) ++ "/" ++ toString scalarSpace ++ " cells, "
    ++ toString a.arrays.size ++ " arrays, blocks: " ++ String.intercalate ", " a.blocks

end Allocator

end NibblePascal
