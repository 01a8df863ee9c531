/-!
# The nibble arithmetic unit

The unit combines the accumulator with the low half of the pair `B`.  Only the low four bits
of either operand count.

* `AluOp` lists the operations, `AluOp.mnemonic` and `AluOp.ofMnemonic?` give their names;
* `AluOp.apply op acc b flags` is the four-bit result and the flags after it;
* `Flags.compare acc b flags` sets the flags as a subtraction would and keeps no result.

Addition and subtraction take the carry in and set it; the shifts rotate through it; the
other operations leave it alone.  Every operation sets the zero flag from its result.
-/

namespace NibblePascal

/-- An operation of the arithmetic unit. -/
inductive AluOp
  | not
  | add
  | sub
  | and
  | or
  | shl
  | shr
  | xor
  deriving DecidableEq, Repr, Inhabited

/-- The two flags of the machine. -/
structure Flags where
  carry : Bool := false
  zero : Bool := false
  deriving DecidableEq, Repr, Inhabited

namespace AluOp

/-- Every operation, in the order of its encoding. -/
def all : List AluOp := [not, add, sub, and, or, shl, shr, xor]

/-- The name of an operation in assembly text. -/
def mnemonic : AluOp → String
  | not => "NOT"
  | add => "ADD"
  | sub => "SUB"
  | and => "AND"
  | or => "OR"
  | shl => "SHL"
  | shr => "SHR"
  | xor => "XOR"

/-- The operation of a name, spelled exactly. -/
def ofMnemonic? (name : String) : Option AluOp := all.find? (·.mnemonic == name)

/-- The four-bit result of an operation and the carry after it. -/
def result (op : AluOp) (acc b : Nat) (carry : Bool) : Nat × Bool :=
  let a := acc % 16
  let b := b % 16
  let c := carry.toNat
  match op with
  | not => (15 - a, carry)
  | add => ((a + b + c) % 16, decide (15 < a + b + c))
  | sub => ((a + 16 - (b + c)) % 16, decide (a < b + c))
  | and => (a &&& b, carry)
  | or => (a ||| b, carry)
  | xor => (a ^^^ b, carry)
  | shl => ((2 * a + c) % 16, decide (8 ≤ a))
  | shr => (a / 2 + 8 * c, decide (a % 2 = 1))

/-- The result of an operation, with the flags it leaves. -/
def apply (op : AluOp) (acc b : Nat) (flags : Flags) : Nat × Flags :=
  let (value, carry) := op.result acc b flags.carry
  (value, ⟨carry, value == 0⟩)

end AluOp

/-- The flags of `acc - b - carry`: a borrow sets the carry, and only a difference of zero
(never a borrowed one) sets the zero flag. -/
def Flags.compare (acc b : Nat) (flags : Flags) : Flags :=
  let subtrahend := b % 16 + flags.carry.toNat
  ⟨decide (acc % 16 < subtrahend), acc % 16 == subtrahend⟩

end NibblePascal
