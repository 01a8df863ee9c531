import NibblePascal.Source.Files
import NibblePascal.Source.Lines
import NibblePascal.Source.Sources
import NibblePascal.Token.Line

/-!
# Tokens of a unit and its includes

A unit is a source text with a name.  A line that begins with `#include` stands for the
tokens of another file.  Between a line `asm` and a line `end;` every line is one token of
inline assembly.

* `Lexer` is what lasts from line to line: whether an `asm` block is open, the files that are
  being read, and the source lines seen so far;
* `lexUnit` gives the tokens of a named text, `lexFile` those of a file.

A file that is being read cannot be included again under the same name, and the names all stand
in lines of finitely many files, so the includes come to an end.  The files of an include that
fails stay among the files that are being read.
-/

namespace NibblePascal

/-- What lasts from line to line. -/
structure Lexer where
  inAsm : Bool := false
  /-- The files that are being read, the innermost first. -/
  reading : List String := []
  sources : Sources := {}
  deriving DecidableEq, Repr, Inhabited

/-- A computation that reads source texts. -/
abbrev LexM := EStateM Fault Lexer

/-- What source texts are read with. -/
structure LexOptions where
  legacy : Bool := false
  files : Files := {}
  deriving Inhabited

/-- What a source line asks for. -/
inductive Directive
  /-- The tokens of another file. -/
  | include_ (path : String)
  /-- Nothing: an include without a path. -/
  | skip
  /-- An ordinary line. -/
  | plain
  deriving DecidableEq, Repr, Inhabited

/-- The directive of a line.  The path of an include is what follows the first space. -/
def directive (line : List Char) : Directive :=
  let mark := "#include".toList
  if mark.isPrefixOf line then
    match (line.drop mark.length).dropWhile (· != ' ') with
    | _ :: path => .include_ (String.ofList (trim path))
    | [] => .skip
  else .plain

/-- The tokens of a line that is not a directive. -/
def lexLine (legacy : Bool) (pos : Pos) (line : List Char) : LexM (List Token) := do
  let text := String.ofList (trim line)
  if (← get).inAsm then
    if text == "end;" then
      modify ({ · with inAsm := false })
      return [⟨.kwEnd, "end", pos⟩, ⟨.semicolon, ";", pos⟩]
    else if text.isEmpty then
      return []
    else
      return [⟨.asmLine, text, pos⟩]
  else if text == "asm" then
    modify ({ · with inAsm := true })
    return [⟨.kwAsm, "asm", pos⟩]
  else
    return scanLine legacy pos line

/-- The tokens of the lines of a file from number `n` on; `include_` reads an included
file. -/
def lexLines (legacy : Bool) (include_ : Pos → String → LexM (List Token)) (file : String) :
    Nat → List (List Char) → LexM (List Token)
  | _, [] => return []
  | n, line :: lines => do
      let pos : Pos := ⟨file, n⟩
      let tokens ← match directive line with
        | .include_ path => include_ pos path
        | .skip => pure []
        | .plain => lexLine legacy pos line
      return tokens ++ (← lexLines legacy include_ file (n + 1) lines)

/-- The tokens of a text whose includes are read by `include_`. -/
def lexText (legacy : Bool) (include_ : Pos → String → LexM (List Token))
    (file text : String) : LexM (List Token) := do
  let lines := splitLines text.toList
  modify fun st =>
    { st with
      sources := st.sources.put file (lines.map String.ofList)
      reading := file :: st.reading }
  let tokens ← lexLines legacy include_ file 1 lines
  modify fun st => { st with reading := st.reading.tail }
  if (← get).inAsm then
    throw (.openAsm ⟨file, lines.length + 1⟩)
  return tokens

/-- The tokens of an included file, with includes at most `depth` deep in it. -/
def lexInclude (o : LexOptions) : Nat → Pos → String → LexM (List Token)
  | depth, pos, path => do
      if (← get).reading.contains path then
        throw (.source pos (.recursiveInclude path))
      match depth, o.files.readText path with
      | depth + 1, .ok text => lexText o.legacy (lexInclude o depth) path text
      | _, _ => throw (.missingInclude pos path)

/-- The tokens of a named text and everything it includes.  The names of the files that are
being read differ, and all but the first two stand in files, each in bytes of its own: that
bounds the depth. -/
def lexUnit (o : LexOptions) (file text : String) : LexM (List Token) :=
  lexText o.legacy (lexInclude o (o.files.size + 1)) file text

/-- The tokens of a file and everything it includes. -/
def lexFile (o : LexOptions) (path : String) : LexM (List Token) := do
  match o.files.readText path with
  | .ok text => lexUnit o path text
  | .error why => throw (.file why)

end NibblePascal
