/-!
# Defects

A defect is a broken promise inside the compiler, as opposed to a fault of the program that
is compiled.  Nothing is answered after one.
-/

namespace NibblePascal

/-- A promise between two parts of the compiler that was not kept. -/
inductive Defect
  /-- No entry of the sequence has this number. -/
  | unknownEntry (id : Nat)
  /-- The entry is not a jump that waits for its target. -/
  | notPending (id : Nat)
  /-- A jump of a finished program has no target. -/
  | pendingJump
  /-- A called procedure has no end mark. -/
  | noEndMark (name : String)
  /-- A width conversion between variables of equal width. -/
  | equalWidths
  /-- A value stored in an array of elements of another width. -/
  | elementWidth
  /-- A sixteen-bit quantity grew too large or fell below zero. -/
  | overflow
  deriving DecidableEq, Repr, Inhabited

end NibblePascal
