import NibblePascal.Assembly.Instruction

/-!
# Lines of assembly

A `Line` is an instruction or something that stands between instructions: a label, a comment,
the mark of a released temporary, the mark at the end of a procedure, or a line of inline
assembly that is passed through unread.
-/

namespace NibblePascal

/-- A line of assembly text. -/
inductive Line
  | inst (i : Instruction)
  | label (name : String)
  /-- A comment, with its leading semicolon. -/
  | comment (text : String)
  /-- The temporary at this address goes back to its pool here. -/
  | release (addr : Nat)
  /-- The body of the named procedure ends here. -/
  | endProc (name : String)
  /-- A line of inline assembly. -/
  | raw (command : String) (param : Option String)
  deriving DecidableEq, Repr, Inhabited

namespace Line

/-- The printed line. -/
def text : Line → String
  | inst i => "\t" ++ i.text
  | label name => name ++ ":"
  | comment text => text
  | release addr => "; free [" ++ cellText addr ++ "]"
  | endProc name => "; endproc " ++ name
  | raw command (some param) => "\t" ++ command ++ " " ++ param
  | raw command none => "\t" ++ command

/-- The instruction on a line. -/
def inst? : Line → Option Instruction
  | inst i => some i
  | _ => none

/-- Lines that an assembler skips. -/
def isComment : Line → Bool
  | comment _ | release _ | endProc _ => true
  | _ => false

/-- Whether the address of a cell that the line names, and the address behind it, have sixteen
bits. -/
def fits : Line → Bool
  | inst (.lda (.mem addr)) | inst (.sta (.mem addr)) => addr + 1 < 0x10000
  | _ => true

/-- A jump that still waits for its target. -/
def isPending : Line → Bool
  | inst i => i.isPending
  | _ => false

end Line

end NibblePascal
