import NibblePascal.Assembly.Line

/-!
# The machine

A machine of sixteen banks of 4096 cells, an accumulator, the pair `B`, a bank register, two
flags and sixteen ports each way.

* `Memory` is the cell memory, read and written a cell or a whole number at a time;
* `State` is a configuration of the machine;
* `Image.ofLines?` turns lines of assembly into code: labels become positions, and inline
  assembly or a jump to a label that is nowhere cannot be turned into code;
* `State.exec` is the effect of one instruction, `Image.run image limit` that of at most
  `limit` of them.

A run ends by a halt instruction or past the last instruction (`Outcome.halted`), at an access
to a cell or a port that is not there (`Outcome.crashed`), or with its steps used up
(`Outcome.exhausted`).
-/

namespace NibblePascal

/-- The number of cells in all banks. -/
def memorySize : Nat := 0x10000

/-- The cells of all banks. -/
structure Memory where
  cells : Vector Nat memorySize
  deriving DecidableEq, Repr

namespace Memory

/-- The memory of zeros. -/
def blank : Memory := ⟨Vector.replicate memorySize 0⟩

instance : Inhabited Memory := ⟨blank⟩

/-- The content of a cell, if there is such a cell. -/
def read? (m : Memory) (addr : Nat) : Option Nat := m.cells[addr]?

/-- The content of a cell, and zero beyond the memory. -/
def read (m : Memory) (addr : Nat) : Nat := (m.read? addr).getD 0

/-- The memory after a store; a store beyond the memory is lost. -/
def write (m : Memory) (addr value : Nat) : Memory := ⟨m.cells.setIfInBounds addr value⟩

@[simp] theorem read_write_same (m : Memory) {addr : Nat} (value : Nat)
    (h : addr < memorySize) : (m.write addr value).read addr = value := by
  simp [read, read?, write, h]

theorem read_write_of_ne (m : Memory) {addr other : Nat} (value : Nat) (h : addr ≠ other) :
    (m.write addr value).read other = m.read other := by
  simp [read, read?, write, Vector.getElem?_setIfInBounds_ne h]

/-- The number in `count` cells from `addr` on, the lowest cell first, modulo sixteen bits. -/
def readNumber (m : Memory) (addr : Nat) : Nat → Nat
  | 0 => 0
  | count + 1 => (m.readNumber addr count ||| m.read (addr + count) <<< (4 * count)) % 0x10000

/-- Put a number into `count` cells from `addr` on, the lowest cell first. -/
def writeNumber (m : Memory) (addr value : Nat) : Nat → Memory
  | 0 => m
  | count + 1 =>
      (m.writeNumber addr value count).write (addr + count) (value >>> (4 * count) % 16)

/-- The addresses and contents of the cells that are not zero. -/
def nonzero (m : Memory) : List (Nat × Nat) :=
  m.cells.toList.zipIdx.filterMap fun (value, addr) =>
    if value == 0 then none else some (addr, value)

end Memory

/-- A configuration of the machine. -/
structure State where
  pc : Nat := 0
  acc : Nat := 0
  bl : Nat := 0
  bh : Nat := 0
  bank : Nat := 0
  flags : Flags := {}
  mem : Memory := Memory.blank
  out : Vector Nat 16 := Vector.replicate 16 0
  inp : Vector Nat 16 := Vector.replicate 16 0
  deriving DecidableEq, Repr

instance : Inhabited State := ⟨{}⟩

namespace State

/-- The cell of a direct operand: twelve bits within the selected bank. -/
def direct (s : State) (addr : Nat) : Nat := addr % 4096 + s.bank * 4096

/-- The cell of a banked operand: `B` within the 256 cells that the operand names. -/
def banked (s : State) (addr : Nat) : Nat :=
  s.bl + s.bh * 16 + addr / 256 % 16 * 256 + s.bank * 4096

end State

/-- An instruction and the position that it jumps to, if it is a jump. -/
structure Op where
  inst : Instruction
  target : Nat := 0
  deriving DecidableEq, Repr, Inhabited

/-- Code ready to run. -/
structure Image where
  ops : Array Op := #[]
  deriving DecidableEq, Repr, Inhabited

namespace Image

/-- The labels of the lines with the position of the instruction after each, counted from
`pos`. -/
def labels (pos : Nat) : List Line → List (String × Nat)
  | [] => []
  | .label name :: rest => (name, pos) :: labels pos rest
  | .inst _ :: rest => labels (pos + 1) rest
  | _ :: rest => labels pos rest

/-- The position of a label: of several labels of one name the last counts. -/
def target? (labels : List (String × Nat)) (name : String) : Option Nat :=
  labels.foldl (fun found l => if l.1 == name then some l.2 else found) none

/-- An instruction with its jump resolved. -/
def resolve? (labels : List (String × Nat)) (i : Instruction) : Option Op :=
  match i with
  | .jump _ name => (target? labels name).map (⟨i, ·⟩)
  | _ => some ⟨i, 0⟩

/-- A line of inline assembly. -/
def isRaw : Line → Bool
  | .raw _ _ => true
  | _ => false

/-- The code of lines without inline assembly whose jumps all find their labels. -/
def ofLines? (lines : List Line) : Option Image :=
  if lines.any isRaw then none
  else
    let labels := labels 0 lines
    ((lines.filterMap Line.inst?).mapM (resolve? labels)).map (⟨·.toArray⟩)

end Image

/-- The effect of one instruction. -/
inductive Effect
  /-- The machine goes on. -/
  | next (s : State)
  | halt (s : State)
  /-- There is no such cell or port. -/
  | crash
  deriving Inhabited

namespace State

/-- Load the accumulator from a cell. -/
def loadFrom (s : State) (addr : Nat) : Effect :=
  match s.mem.read? addr with
  | some value => .next { s with acc := value }
  | none => .crash

/-- Store the accumulator into a cell. -/
def storeTo (s : State) (addr : Nat) : Effect :=
  if addr < memorySize then .next { s with mem := s.mem.write addr s.acc } else .crash

/-- The effect of an instruction on a state whose program counter is already past it. -/
def exec (s : State) (op : Op) : Effect :=
  match op.inst with
  | .nop => .next s
  | .lda (.imm v) => .next { s with acc := v % 16 }
  | .lda (.mem a) => s.loadFrom (s.direct a)
  | .lda (.banked a) => s.loadFrom (s.banked a)
  | .sta (.mem a) => s.storeTo (s.direct a)
  | .sta (.banked a) => s.storeTo (s.banked a)
  | .ldbl => .next { s with bl := s.acc }
  | .ldbh => .next { s with bh := s.acc }
  | .alu op =>
      let (value, flags) := op.apply s.acc s.bl s.flags
      .next { s with acc := value, flags := flags }
  | .cmp => .next { s with flags := Flags.compare s.acc s.bl s.flags }
  | .jump kind _ => .next (if kind.taken s.flags then { s with pc := op.target } else s)
  | .stc v => .next { s with flags := { s.flags with carry := v != 0 } }
  | .bnk v => .next { s with bank := v % 16 }
  | .out port =>
      if h : port < 16 then .next { s with out := s.out.set port s.acc h } else .crash
  | .inp port =>
      if h : port < 16 then .next { s with acc := s.inp.get ⟨port, h⟩ } else .crash
  | .hlt => .halt s

end State

/-- How a run ends. -/
inductive Outcome
  /-- The machine stopped, with this many steps to spare. -/
  | halted (final : State) (spare : Nat)
  | crashed
  | exhausted
  deriving Inhabited

/-- Run code for at most the given number of instructions. -/
def Image.run (image : Image) : Nat → State → Outcome
  | limit, s =>
      match image.ops[s.pc]? with
      | none => .halted s limit
      | some op =>
          match limit with
          | 0 => .exhausted
          | limit + 1 =>
              match ({ s with pc := s.pc + 1 } : State).exec op with
              | .next s => image.run limit s
              | .halt s => .halted s limit
              | .crash => .crashed

end NibblePascal
