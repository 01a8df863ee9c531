/-!
# Positions in source texts
-/

namespace NibblePascal

/-- A line of a source text, counted from one. -/
structure Pos where
  file : String := ""
  line : Nat := 0
  deriving DecidableEq, Repr, Inhabited

/-- A position as `file:line`. -/
def Pos.text (p : Pos) : String := p.file ++ ":" ++ toString p.line

end NibblePascal
