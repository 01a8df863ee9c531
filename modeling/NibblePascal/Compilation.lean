import NibblePascal.Assembly.Peephole
import NibblePascal.Program.Block
import NibblePascal.Program.Reader
import NibblePascal.Source.Lines
import NibblePascal.Storage.Table
import NibblePascal.Token.Unit

/-!
# Compilation

`compileSource` compiles a named text and `compileFile` a file.  The `Compilation` that they
answer holds the assembly, the memory map, the source lines and the progress report; with a
fault, the assembly and the memory map up to it.
-/

namespace NibblePascal

/-- The settings of a compilation. -/
structure Options where
  legacyKeywords : Bool := false
  optimize : Bool := true
  verbose : Bool := false
  deriving DecidableEq, Repr, Inhabited

/-- What a compilation gives. -/
structure Compilation where
  lines : List Line := []
  memory : Allocator := {}
  fault : Option Fault := none
  sources : Sources := {}
  /-- The report of the progress. -/
  log : List String := []
  deriving DecidableEq, Repr, Inhabited

namespace Compilation

/-- The assembly text line by line, closed by a halt. -/
def assembly (c : Compilation) : List String := c.lines.map Line.text ++ ["", "\tHLT"]

/-- The assembly text. -/
def text (c : Compilation) : String := joinLines c.assembly

/-- The symbol table as text. -/
def symbolText (c : Compilation) : Except Defect String := return joinLines (← c.memory.table)

end Compilation

/-- The result of code generation, unless the address of a cell did not fit. -/
def Generator.checked (g : Generator) (fault : Option Fault) :
    Except Defect (Generator × Option Fault) :=
  if g.code.lines.all Line.fits then .ok (g, fault) else .error .overflow

/-- What code generation leaves behind: the generator, with the fault that stopped it. -/
def Program.generated (p : Program) : Except Defect (Generator × Option Fault) :=
  match p.generate.run {} with
  | .ok () g => if g.code.pendingPosition?.isSome then .error .pendingJump else g.checked none
  | .error (.fault why) g => g.checked (some why)
  | .error (.defect why) _ => .error why

/-- Compile the tokens of a file. -/
def compileTokens (o : Options) (file : String) (tokens : List Token) :
    Except Defect Compilation := do
  let (g, fault) ← (Program.ofTokens file tokens).generated
  let lines := g.code.lines
  let finished := o.optimize && fault.isNone
  let result := if finished then tidy lines else lines
  let report :=
    ["  " ++ toString tokens.length ++ " tokens", "2. Parse and generate code"]
      ++ (if finished then
          ["3. Optimize",
           "  " ++ toString lines.length ++ " -> " ++ toString result.length ++ " lines"]
        else [])
      ++ ["  " ++ toString g.memory.free ++ " cells used"]
  return { lines := result, memory := g.memory, fault := fault, log := report }

/-- Compile what a lexer reads from the file with the given name. -/
def compileWith (o : Options) (file : String) (lex : LexM (List Token)) :
    Except Defect Compilation := do
  let (compilation, lexer) ← match lex.run {} with
    | .ok tokens lexer => do
        let c ← compileTokens o file tokens
        pure (c, lexer)
    | .error why lexer => pure ({ fault := some why : Compilation }, lexer)
  let log := ("1. Lex " ++ file) :: compilation.log
  return { compilation with sources := lexer.sources, log := if o.verbose then log else [] }

/-- Compile a named text; `files` are the files that it may include. -/
def compileSource (files : Files) (o : Options) (name text : String) :
    Except Defect Compilation :=
  compileWith o name (lexUnit { legacy := o.legacyKeywords, files := files } name text)

/-- Compile a file. -/
def compileFile (files : Files) (o : Options) (path : String) : Except Defect Compilation :=
  compileWith o path (lexFile { legacy := o.legacyKeywords, files := files } path)

end NibblePascal
