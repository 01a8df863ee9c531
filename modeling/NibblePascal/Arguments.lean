/-!
# The arguments of the command line

`Arguments.parse` reads the arguments from left to right.

* An option with a value takes it from the next argument, from behind an equals sign, or, in
  its short form, from the same argument.  Short flags can share one argument.
* After `--` everything is the name of the input; a single dash is a name as well.
* No option may stand twice.

An option that waits for its value is settled when the next option or name comes; an argument
that cannot be understood is reported before that.
-/

namespace NibblePascal

/-- The options that take a value. -/
inductive ValueOption
  | output
  | symbols
  | config
  deriving DecidableEq, Repr, Inhabited

/-- The options that take none. -/
inductive Flag
  | noOptimize
  | legacyKeywords
  | dump
  | verbose
  deriving DecidableEq, Repr, Inhabited

/-- An option. -/
inductive OptionName
  | value (o : ValueOption)
  | flag (f : Flag)
  | help
  | version
  deriving DecidableEq, Repr, Inhabited

/-- Why arguments are not accepted. -/
inductive UsageError
  | unknownArgument
  | missingValue
  | givenTwice
  | unwantedValue
  | helpAsked
  | versionAsked
  deriving DecidableEq, Repr, Inhabited

/-- The arguments of the command line. -/
structure Arguments where
  input : Option String := none
  output : Option String := none
  symbols : Option String := none
  config : Option String := none
  flags : List Flag := []
  deriving DecidableEq, Repr, Inhabited

namespace Arguments

/-- The option of a long name. -/
def ofLong? (name : String) : Option OptionName :=
  match name with
  | "output" => some (.value .output)
  | "symbols" => some (.value .symbols)
  | "config" => some (.value .config)
  | "no-optimize" => some (.flag .noOptimize)
  | "legacy-keywords" => some (.flag .legacyKeywords)
  | "dump" => some (.flag .dump)
  | "verbose" => some (.flag .verbose)
  | "help" => some .help
  | "version" => some .version
  | _ => none

/-- The option of a short name. -/
def ofShort? (name : Char) : Option OptionName :=
  match name with
  | 'o' => some (.value .output)
  | 's' => some (.value .symbols)
  | 'c' => some (.value .config)
  | 'd' => some (.flag .dump)
  | 'v' => some (.flag .verbose)
  | 'h' => some .help
  | 'V' => some .version
  | _ => none

/-- The value of an option so far. -/
def get? (a : Arguments) : ValueOption → Option String
  | .output => a.output
  | .symbols => a.symbols
  | .config => a.config

/-- Give an option its value. -/
def setValue (a : Arguments) (o : ValueOption) (value : String) : Except UsageError Arguments :=
  if (a.get? o).isSome then .error .givenTwice
  else
    match o with
    | .output => .ok { a with output := some value }
    | .symbols => .ok { a with symbols := some value }
    | .config => .ok { a with config := some value }

/-- Set a flag. -/
def setFlag (a : Arguments) (f : Flag) : Except UsageError Arguments :=
  if a.flags.contains f then .error .givenTwice else .ok { a with flags := f :: a.flags }

/-- The state of reading: the arguments so far, an option that is not settled yet with the
value it may have got, and whether only names can follow. -/
structure Progress where
  found : Arguments := {}
  pending : Option (ValueOption × Option String) := none
  namesOnly : Bool := false
  deriving DecidableEq, Repr, Inhabited

namespace Progress

/-- Settle the option that waits. -/
def settle (p : Progress) : Except UsageError Progress :=
  match p.pending with
  | none => .ok p
  | some (_, none) => .error .missingValue
  | some (o, some value) => do
      return { p with found := ← p.found.setValue o value, pending := none }

/-- Take the name of the input. -/
def takeName (p : Progress) (name : String) : Except UsageError Progress := do
  if p.found.input.isSome then throw .unknownArgument
  let p ← p.settle
  return { p with found := { p.found with input := some name } }

/-- Take an option that has no value of its own. -/
def takeOption (p : Progress) (o : OptionName) : Except UsageError Progress := do
  let p ← p.settle
  match o with
  | .value o => return { p with pending := some (o, none) }
  | .flag f => return { p with found := ← p.found.setFlag f }
  | .help => throw .helpAsked
  | .version => throw .versionAsked

/-- Take an option with the value that stands in the same argument. -/
def takeValue (p : Progress) (o : ValueOption) (value : String) :
    Except UsageError Progress := do
  let p ← p.settle
  return { p with found := ← p.found.setValue o value }

/-- Take a long option, without its two dashes. -/
def takeLong (p : Progress) (cs : List Char) : Except UsageError Progress :=
  let name := String.ofList (cs.takeWhile (· != '='))
  match ofLong? name, cs.dropWhile (· != '=') with
  | none, _ => .error .unknownArgument
  | some o, [] => p.takeOption o
  | some (.value o), _ :: value => p.takeValue o (String.ofList value)
  | some _, _ => .error .unwantedValue

/-- Take short options, without their dash. -/
def takeShort (p : Progress) : List Char → Except UsageError Progress
  | [] => .ok p
  | c :: cs =>
      match ofShort? c, cs with
      | none, _ => .error .unknownArgument
      | some (.value o), '=' :: value => p.takeValue o (String.ofList value)
      | some (.value o), _ :: _ => p.takeValue o (String.ofList cs)
      | some o, _ => do (← p.takeOption o).takeShort cs

/-- Take an argument. -/
def take (p : Progress) (arg : String) : Except UsageError Progress :=
  if p.namesOnly then p.takeName arg
  else
    match arg.toList with
    | ['-', '-'] => .ok { p with namesOnly := true }
    | '-' :: '-' :: cs => p.takeLong cs
    | '-' :: c :: cs => p.takeShort (c :: cs)
    | _ =>
        match p.pending with
        | some (o, none) => .ok { p with pending := some (o, some arg) }
        | _ => p.takeName arg

end Progress

/-- Read the arguments of the command line. -/
def parse (args : List String) : Except UsageError Arguments := do
  let p ← args.foldlM Progress.take {}
  return (← p.settle).found

end Arguments

end NibblePascal
