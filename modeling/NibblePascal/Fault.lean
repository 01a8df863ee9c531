import NibblePascal.Source.Position
import NibblePascal.Storage.Width

/-!
# Faults

What can be wrong with a program, its files or its settings, and how each is worded.

* `Complaint` lists the faults in the text of a program;
* `Shortage` says what the memory had no room for;
* `FileFault` says why a file could not be read or written;
* `Fault` puts them together with their positions; `Fault.message` is the wording and
  `Fault.pos?` the position to show.
-/

namespace NibblePascal

/-- What is wrong with the text of a program. -/
inductive Complaint
  | unexpectedEnd
  | unexpectedSymbol (text : String)
  | recursiveInclude (path : String)
  | unknownType (text : String)
  | emptyArray
  | arrayTooLarge (len : Nat) (width : Width)
  | duplicateName (name : String)
  | duplicateProcedure (name : String)
  | unknownStatement (text : String)
  | portOutOfRange (port : Nat)
  | unknownVariable (name : String)
  | unknownProcedure (name : String)
  /-- A construct that takes scalars only was given an array. -/
  | scalarsOnly (construct : String)
  | tooShortForList (array : String)
  | notAnArray (name : String)
  | elementTypesDiffer (dst src : String)
  | tooShortForArray (dst src : String)
  | invalidText (text : String)
  | wideCharacter (text : String)
  | tooShortForText (array text : String)
  | unknownAsmName (name : String)
  | invalidOffset (text : String)
  | directionExpected
  | relationExpected
  | numberTooLarge (text : String)
  | conditionTypesDiffer (lhs rhs : Width)
  | tooManyCalls (name : String)
  /-- A fault in words of its own. -/
  | other (text : String)
  deriving DecidableEq, Repr, Inhabited

/-- The wording of a complaint. -/
def Complaint.message : Complaint → String
  | unexpectedEnd => "unexpected end of file"
  | unexpectedSymbol text => "unexpected symbol: " ++ text
  | recursiveInclude path => "recursive include of " ++ path
  | unknownType text => "unknown type " ++ text
  | emptyArray => "array length must be positive"
  | arrayTooLarge len width =>
      "array of " ++ toString len ++ " " ++ width.title ++ " exceeds 256 cells"
  | duplicateName name => "duplicate identifier " ++ name
  | duplicateProcedure name => "duplicate procedure " ++ name
  | unknownStatement text => "unknown statement: " ++ text
  | portOutOfRange port => "port " ++ toString port ++ " out of range 0..15"
  | unknownVariable name => "unknown variable " ++ name
  | unknownProcedure name => "unknown procedure " ++ name
  | scalarsOnly construct => construct ++ " not allowed for arrays"
  | tooShortForList array => "array " ++ array ++ " too short for array assignment"
  | notAnArray name => "variable " ++ name ++ " has to be of array type."
  | elementTypesDiffer dst src => "types of " ++ dst ++ " and " ++ src ++ " different."
  | tooShortForArray dst src => "array " ++ dst ++ " too short for " ++ src
  | invalidText text => "invalid string " ++ text
  | wideCharacter text => "character " ++ text ++ " does not fit in a byte"
  | tooShortForText array text => "array " ++ array ++ " too short for string " ++ text
  | unknownAsmName name => "unknown variable: " ++ name
  | invalidOffset text => "invalid offset: " ++ text
  | directionExpected => "to or downto expected"
  | relationExpected => "condition: invalid operator"
  | numberTooLarge text => "number does not fit in 16 bits: " ++ text
  | conditionTypesDiffer lhs rhs =>
      "types not equal in condition: " ++ lhs.title ++ " and " ++ rhs.title
  | tooManyCalls name => "too many calls of procedure " ++ name
  | other text => text

/-- What the memory had no room for. -/
inductive Shortage
  | scalar (width : Width) (name : String)
  | array (name : String)
  | other (text : String)
  deriving DecidableEq, Repr, Inhabited

/-- The wording of a shortage. -/
def Shortage.message : Shortage → String
  | scalar width name => "no room for " ++ width.title ++ " " ++ name
  | array name => "no bank left for array " ++ name
  | other text => text

/-- Why a file could not be read or written. -/
inductive FileFault
  | notFound
  | isDirectory
  | notText
  | notDirectory
  deriving DecidableEq, Repr, Inhabited

/-- The wording of a file fault. -/
def FileFault.message : FileFault → String
  | notFound => "No such file or directory (os error 2)"
  | isDirectory => "Is a directory (os error 21)"
  | notText => "stream did not contain valid UTF-8"
  | notDirectory => "Not a directory (os error 20)"

/-- A fault of a program, its files or its settings. -/
inductive Fault
  | source (pos : Pos) (why : Complaint)
  | memory (pos : Pos) (what : Shortage)
  | missingInclude (pos : Pos) (path : String)
  | openAsm (pos : Pos)
  | file (why : FileFault)
  | settings (detail : String)
  deriving DecidableEq, Repr, Inhabited

namespace Fault

/-- The wording of a fault. -/
def message : Fault → String
  | source _ why => "Syntax error: " ++ why.message
  | memory _ what => "Out of memory: " ++ what.message
  | missingInclude _ path => "Include file " ++ path ++ " not found"
  | openAsm _ => "asm block has no end"
  | file why => "IO error: " ++ why.message
  | settings detail => "Invalid config: " ++ detail

/-- The position that a fault points at. -/
def pos? : Fault → Option Pos
  | source pos _ | memory pos _ | missingInclude pos _ | openAsm pos => some pos
  | file _ | settings _ => none

end Fault

end NibblePascal
