import NibblePascal.Code.Scalar

/-!
# Code for calls and returns

A procedure has no stack.  Every call site has a return label, and if there are several, each
stores its number in the selector of the procedure before it jumps.  The end of the procedure
counts the selector down and jumps to the label whose turn it is.
-/

namespace NibblePascal.Code

/-- The most call sites that a selector of one cell can tell apart. -/
def maxCalls : Nat := 16

/-- Set the selector to the number of a call site. -/
def selectCall (selector : Var) (number : Nat) : List Line :=
  [.inst (.lda (.imm number)), store selector.addr]

/-- Jump to the label whose turn it is, where the zero flag means the first one.  `B` holds
one and the carry is clear. -/
def returnCascade : List String → List Line
  | [] => []
  | [last] => [jump .jmp last]
  | [first, last] => [jump .jz first, jump .jmp last]
  | first :: rest => [jump .jz first, alu .sub] ++ returnCascade rest

/-- Return to the call site whose number the selector holds. -/
def returnDispatch (selector : Var) : List String → List Line
  | [] => []
  | [only] => [jump .jmp only]
  | first :: rest =>
      [carry 0, loadImm 1, toLow, load selector.addr, alu .sub, jump .jb first]
        ++ returnCascade rest

end NibblePascal.Code
