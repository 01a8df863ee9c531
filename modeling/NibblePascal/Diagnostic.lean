import NibblePascal.Fault
import NibblePascal.Source.Lines
import NibblePascal.Source.Sources
import NibblePascal.Text.Colour
import NibblePascal.Text.Hex

/-!
# Diagnostics

The text that shows a fault with the source line it points at.
-/

namespace NibblePascal

/-- The diagnostic of a fault, line by line. -/
def Fault.diagnosticLines (f : Fault) (sources : Sources) : List String :=
  let bar := Style.blue.paint "|"
  let head := Style.red.on ++ Style.bold.on ++ "error" ++ Style.red.off ++ Style.bold.off
    ++ ": " ++ f.message
  match f.pos? with
  | none => [head]
  | some pos =>
      [head,
       "     " ++ Style.blue.paint "-->" ++ " " ++ Style.underline.paint pos.text,
       "      " ++ bar,
       " " ++ Style.blue.paint (padLeft 4 (toString pos.line) ++ " |") ++ " "
         ++ sources.line pos.file pos.line,
       "      " ++ bar]

/-- The diagnostic of a fault. -/
def Fault.diagnostic (f : Fault) (sources : Sources) : String :=
  joinLines (f.diagnosticLines sources)

end NibblePascal
