import NibblePascal.Assembly.Alu
import NibblePascal.Text.Colour
import NibblePascal.Text.Hex

/-!
# Instructions and their text

* `Source` and `Dest` are the operands of a load and of a store;
* `JumpKind` lists the jumps and `JumpKind.taken` says when one is taken;
* `Instruction` is the instruction set; a jump names a label, and a jump with the empty name
  is *pending*: its target is still to come;
* `Instruction.command`, `Instruction.param` and `Instruction.text` give the assembly text,
  `Instruction.coloured` the text for a listing.

Immediate values print their low four bits and addresses their low twelve.
-/

namespace NibblePascal

/-- The text of a four-bit value, such as `0Ch`. -/
def nibbleText (v : Nat) : String := String.ofList ['0', hexDigit (v % 16), 'h']

/-- The text of a twelve-bit address, such as `001Fh`. -/
def cellText (addr : Nat) : String :=
  String.ofList
    ['0', hexDigit (addr / 256 % 16), hexDigit (addr / 16 % 16), hexDigit (addr % 16), 'h']

/-- What a load reads. -/
inductive Source
  /-- A four-bit constant. -/
  | imm (value : Nat)
  /-- A cell of the selected bank, by its address. -/
  | mem (addr : Nat)
  /-- A cell of the selected bank, by the pair `B` within the 256 cells from `addr` on. -/
  | banked (addr : Nat)
  deriving DecidableEq, Repr, Inhabited

/-- Where a store writes. -/
inductive Dest
  | mem (addr : Nat)
  | banked (addr : Nat)
  deriving DecidableEq, Repr, Inhabited

namespace Source

/-- The operand as assembly text. -/
def text : Source → String
  | imm v => nibbleText v
  | mem a => "[" ++ cellText a ++ "]"
  | banked a => "[B]" ++ cellText a

/-- The address of a memory operand. -/
def addr? : Source → Option Nat
  | imm _ => none
  | mem a | banked a => some a

end Source

namespace Dest

/-- The operand as assembly text. -/
def text : Dest → String
  | mem a => "[" ++ cellText a ++ "]"
  | banked a => "[B]" ++ cellText a

/-- The address of the operand. -/
def addr : Dest → Nat
  | mem a | banked a => a

end Dest

/-- The jumps: always, above, below, and two names for zero. -/
inductive JumpKind
  | jmp
  | ja
  | jb
  | jz
  | je
  deriving DecidableEq, Repr, Inhabited

namespace JumpKind

/-- Every jump. -/
def all : List JumpKind := [jmp, ja, jb, jz, je]

/-- The name of a jump in assembly text. -/
def mnemonic : JumpKind → String
  | jmp => "JMP"
  | ja => "JA"
  | jb => "JB"
  | jz => "JZ"
  | je => "JE"

/-- The jump of a name, spelled exactly. -/
def ofMnemonic? (name : String) : Option JumpKind := all.find? (·.mnemonic == name)

/-- Whether a jump is taken under the given flags. -/
def taken (kind : JumpKind) (flags : Flags) : Bool :=
  match kind with
  | jmp => true
  | ja => !flags.carry && !flags.zero
  | jb => flags.carry
  | jz | je => flags.zero

end JumpKind

/-- An instruction of the machine. -/
inductive Instruction
  | nop
  /-- Load the accumulator. -/
  | lda (source : Source)
  /-- Store the accumulator. -/
  | sta (dest : Dest)
  /-- Copy the accumulator to the low half of `B`. -/
  | ldbl
  /-- Copy the accumulator to the high half of `B`. -/
  | ldbh
  | alu (op : AluOp)
  | cmp
  | jump (kind : JumpKind) (target : String)
  /-- Set the carry. -/
  | stc (value : Nat)
  /-- Select a bank. -/
  | bnk (value : Nat)
  | out (port : Nat)
  | inp (port : Nat)
  | hlt
  deriving DecidableEq, Repr, Inhabited

namespace Instruction

/-- A jump that still waits for its target. -/
def isPending : Instruction → Bool
  | jump _ target => target.isEmpty
  | _ => false

/-- The command word. -/
def command : Instruction → String
  | nop => "NOP"
  | lda _ => "LDA"
  | sta _ => "STA"
  | ldbl => "LDBL"
  | ldbh => "LDBH"
  | alu op => op.mnemonic
  | cmp => "CMP"
  | jump kind _ => kind.mnemonic
  | stc _ => "STC"
  | bnk _ => "BNK"
  | out _ => "OUT"
  | inp _ => "IN"
  | hlt => "HLT"

/-- The parameter, if there is one to print. -/
def param : Instruction → Option String
  | lda source => some source.text
  | sta dest => some dest.text
  | jump _ target => if target.isEmpty then none else some target
  | stc v | bnk v | out v | inp v => some (nibbleText v)
  | _ => none

/-- The instruction as assembly text. -/
def text (i : Instruction) : String :=
  match i.param with
  | some param => i.command ++ " " ++ param
  | none => i.command

/-- The colour of a parameter: labels, constants and addresses differ. -/
def paramStyle : Instruction → Style
  | jump _ _ => .green
  | lda (.imm _) | stc _ | bnk _ | out _ | inp _ => .yellow
  | _ => .blue

/-- The instruction for a listing.  The command is not closed before its parameter. -/
def coloured (i : Instruction) : String :=
  match i.param with
  | some param =>
      Style.red.on ++ padRight 5 i.command ++ i.paramStyle.on ++ param ++ i.paramStyle.off
  | none => Style.red.paint i.command

/-- The address of a memory operand, with all its bits. -/
def addr? : Instruction → Option Nat
  | lda source => source.addr?
  | sta dest => some dest.addr
  | _ => none

end Instruction

end NibblePascal
