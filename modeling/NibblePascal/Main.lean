import NibblePascal.CommandLine

/-!
# The command line

Reads the files that a command may need, runs the command on them, prints what it prints and
writes what it writes.
-/

namespace NibblePascal

/-- The help text. -/
def usageText : String := joinLines
  ["Usage: nibble-pascal [OPTIONS] [INPUT]",
   "",
   "  [INPUT]              Input file [default: main.pas]",
   "  -o, --output FILE    Output file [default: input with .asm extension]",
   "  -s, --symbols FILE   Symbol table file [default: varlist.txt]",
   "  -c, --config FILE    Settings file",
   "      --no-optimize    Leave the code as generated",
   "      --legacy-keywords  Let a keyword end inside a word",
   "  -d, --dump           Show the code and the memory map",
   "  -v, --verbose        Report the progress",
   "  -h, --help           Show this help",
   "  -V, --version        Show the version"]

/-- The wording of a usage error. -/
def UsageError.message : UsageError → String
  | unknownArgument => "unexpected argument"
  | missingValue => "an option lacks its value"
  | givenTwice => "an option is given twice"
  | unwantedValue => "an option takes no value"
  | helpAsked => usageText
  | versionAsked => "nibble-pascal 1.0"

/-- Add what is at a path to the files. -/
def addPath (files : Files) (path : String) : IO Files := do
  match ← (IO.FS.readBinFile path).toBaseIO with
  | .ok bytes => return files.put (tidyPath path) bytes
  | .error (.inappropriateType ..) => return files.addDirectory path
  | .error _ => return files

/-- The files that a text includes. -/
def includedPaths (text : String) : List String :=
  (splitLines text.toList).filterMap fun line =>
    match directive line with
    | .include_ path => some path
    | _ => none

/-- Add source files and everything that they include. -/
partial def addSources (files : Files) : List String → IO Files
  | [] => return files
  | path :: rest => do
      if (files.get? (tidyPath path)).isSome then addSources files rest
      else
        let files ← addPath files path
        match files.readText path with
        | .ok text => addSources files (includedPaths text ++ rest)
        | .error _ => addSources files rest

/-- Add the paths that a command writes to, with their directories. -/
def addTargets (files : Files) (paths : List String) : IO Files :=
  paths.foldlM (fun files path => do
    let files ← addPath files path
    let parent := enterPart (pathParts (tidyPath path)) ".."
    addPath files (joinParts parent)) files

/-- The files that a command may need. -/
def gather (a : Arguments) : IO Files := do
  let files ← addSources {} [a.inputPath]
  let files ← match a.config with
    | some path => addPath files path
    | none => pure files
  let settings := match a.config.map (loadSettings files) with
    | some (.ok settings) => settings
    | _ => {}
  addTargets files [a.outputPath settings, a.symbolsPath settings]

/-- Write the files that differ. -/
def writeChanges (before after : Files) : IO Unit :=
  after.entries.forM fun (path, bytes) => do
    unless before.get? path == some bytes do
      IO.FS.writeBinFile path bytes

/-- Run a command and answer the exit code. -/
def runOnDisk (a : Arguments) : IO UInt32 := do
  let files ← gather a
  match runCommand a files with
  | .error _ =>
      IO.eprintln "internal error"
      return 101
  | .ok report =>
      IO.print report.printed
      writeChanges files report.files
      match report.outcome with
      | .ok true => return 0
      | .ok false => return 1
      | .error why =>
          IO.print (why.diagnostic {})
          return 1

end NibblePascal

/-- The command line of the compiler. -/
def main (args : List String) : IO UInt32 := do
  match NibblePascal.Arguments.parse args with
  | .ok a => NibblePascal.runOnDisk a
  | .error why =>
      match why with
      | .helpAsked | .versionAsked =>
          IO.println why.message
          return 0
      | _ =>
          IO.eprintln ("error: " ++ why.message)
          return 2
