import NibblePascal.Assembly.Line
import NibblePascal.Source.Lines
import NibblePascal.Storage.Table

/-!
# Listings

A coloured listing of the code with the number of each instruction, followed by the map of
the memory and its summary line.
-/

namespace NibblePascal

/-- A ruler of the listing: its head, filled up with dashes. -/
def ruler (head : String) : String := head ++ String.ofList (List.replicate 72 '-')

/-- The number of an instruction in the margin. -/
def margin (n : Nat) : String := "| " ++ padLeft 6 (toString n) ++ " : "

/-- The listing of lines whose first instruction has number `n`. -/
def codeListing (n : Nat) : List Line → List String
  | [] => []
  | .inst i :: rest => (margin n ++ i.coloured) :: codeListing (n + 1) rest
  | .raw command param :: rest =>
      (margin n ++ Style.yellow.paint command ++ " " ++ param.getD "") ::
        codeListing (n + 1) rest
  | .label name :: rest => ("| " ++ Style.magenta.paint name ++ ":") :: codeListing n rest
  | l :: rest => ("|        " ++ Style.dim.paint l.text) :: codeListing n rest

/-- The line of a scalar in the memory map. -/
def Var.mapLine (v : Var) : String :=
  let style := if v.temp then Style.yellow else Style.cyan
  "| 0x" ++ hex 3 v.addr ++ " : 0x" ++ hex 3 v.top ++ " | " ++ style.paint v.name ++ " : "
    ++ v.width.keyword

/-- The line of an array in the memory map. -/
def ArrayVar.mapLine (a : ArrayVar) : String :=
  "| " ++ toString a.bank ++ ":0x" ++ hex 3 a.addr ++ " | " ++ Style.green.paint a.name ++ " : "
    ++ a.width.keyword ++ "[" ++ toString a.len ++ "]"

/-- The listing of code and memory. -/
def listing (lines : List Line) (memory : Allocator) : String :=
  joinLines <|
    [ruler "+-[Code]-+"] ++ codeListing 0 lines
      ++ [ruler "+-[Data]-+"] ++ memory.vars.toList.map Var.mapLine
      ++ memory.arrays.toList.map ArrayVar.mapLine
      ++ [ruler "+--------+", memory.usage]

end NibblePascal
