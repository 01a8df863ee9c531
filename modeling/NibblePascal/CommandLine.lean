import NibblePascal.Arguments
import NibblePascal.Compilation
import NibblePascal.Diagnostic
import NibblePascal.Listing
import NibblePascal.Settings
import NibblePascal.Source.Path

/-!
# The compiler as a command

`runCommand` reads the settings file, compiles the input, shows the fault if there is one, and
writes the assembly and the symbol table, with a fault as well as without.  What the command
line says wins over the settings file.
-/

namespace NibblePascal

/-- What a command leaves behind: whether the program was compiled without a fault, or the
fault that ended the command; what was printed; and the files. -/
structure Report where
  outcome : Except Fault Bool
  printed : String
  files : Files
  deriving Inhabited

/-- The settings of a settings file. -/
def loadSettings (files : Files) (path : String) : Except Fault Settings :=
  let refused := Fault.settings (path ++ ": not a settings file")
  match files.readText path with
  | .error .isDirectory | .error .notText => .error refused
  | .error why => .error (.file why)
  | .ok text =>
      match Settings.parse? text with
      | some settings => .ok settings
      | none => .error refused

namespace Arguments

/-- Whether a flag is set. -/
def has (a : Arguments) (f : Flag) : Bool := a.flags.contains f

/-- The name of the input. -/
def inputPath (a : Arguments) : String := a.input.getD "main.pas"

/-- The name of the assembly file. -/
def outputPath (a : Arguments) (s : Settings) : String :=
  (a.output <|> s.output).getD (withExtension a.inputPath "asm")

/-- The name of the symbol table file. -/
def symbolsPath (a : Arguments) (s : Settings) : String :=
  (a.symbols <|> s.symbols).getD "varlist.txt"

/-- The settings of the compilation. -/
def options (a : Arguments) (s : Settings) : Options where
  legacyKeywords := a.has .legacyKeywords || s.legacyKeywords.getD false
  optimize := !a.has .noOptimize && s.optimize.getD true
  verbose := a.has .verbose

end Arguments

/-- Compile the input and write the results. -/
def runWith (a : Arguments) (s : Settings) (files : Files) : Except Defect Report := do
  let verbose (lines : List String) : String :=
    if a.has .verbose then joinLines lines else ""
  let c ← compileFile files (a.options s) a.inputPath
  let symbols ← c.symbolText
  let printed :=
    verbose ["4-bit Pascal compiler", "  < " ++ a.inputPath] ++ joinLines c.log
      ++ (c.fault.map (·.diagnostic c.sources)).getD ""
      ++ verbose ["4. Write files", "  > " ++ a.outputPath s, "  > " ++ a.symbolsPath s]
  match files.writeText (a.outputPath s) c.text with
  | .error why => return ⟨.error (.file why), printed, files⟩
  | .ok files =>
      match files.writeText (a.symbolsPath s) symbols with
      | .error why => return ⟨.error (.file why), printed, files⟩
      | .ok files =>
          let dump := if a.has .dump then listing c.lines c.memory else ""
          return ⟨.ok c.fault.isNone, printed ++ dump, files⟩

/-- Run the compiler as a command. -/
def runCommand (a : Arguments) (files : Files) : Except Defect Report :=
  match a.config.map (loadSettings files) with
  | some (.error why) => .ok ⟨.error why, "", files⟩
  | some (.ok settings) => runWith a settings files
  | none => runWith a {} files

end NibblePascal
