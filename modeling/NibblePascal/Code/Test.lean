import NibblePascal.Code.Scalar

/-!
# Code for tests

A test is code that leaves by jumps only: each exit is taken either when the tested condition
holds or when it fails.  Where the exits lead is settled later.

* `TestLine` is a line of a test, `closeTest` settles its exits;
* `relationTest` compares two scalars, `oddTest` and `nonzeroTest` look at one.
-/

namespace NibblePascal

/-- A relation between numbers. -/
inductive Relation
  | eq
  | ne
  | gt
  | ge
  | lt
  | le
  deriving DecidableEq, Repr, Inhabited

/-- Whether a relation holds. -/
def Relation.holds (rel : Relation) (a b : Nat) : Bool :=
  match rel with
  | eq => a == b
  | ne => a != b
  | gt => decide (b < a)
  | ge => decide (b ≤ a)
  | lt => decide (a < b)
  | le => decide (a ≤ b)

/-- A line of a test. -/
inductive TestLine
  | line (l : Line)
  /-- A jump that leaves the test, with the outcome that it stands for. -/
  | exit (outcome : Bool) (kind : JumpKind)
  deriving DecidableEq, Repr, Inhabited

namespace Code

/-- The lines of a test whose exits lead to two labels. -/
def closeTest (yes no : String) (test : List TestLine) : List Line :=
  test.map fun
    | .line l => l
    | .exit outcome kind => jump kind (if outcome then yes else no)

/-- The exits after the comparison of one cell.  The lowest cell also settles equality; the
tests for equality go on at the label with number `n`. -/
def cellExits (rel : Relation) (n : Nat) (lowest : Bool) : List TestLine :=
  match rel with
  | .eq =>
      [.line (jump .je (labelName n)), .exit false .jmp, .line (label n)]
        ++ if lowest then [.exit true .jmp] else []
  | .ne =>
      [.line (jump .je (labelName n)), .exit true .jmp, .line (label n)]
        ++ if lowest then [.exit false .jmp] else []
  | .gt => [.exit true .ja, .exit false .jb] ++ if lowest then [.exit false .jmp] else []
  | .ge => [.exit true .ja, .exit false .jb] ++ if lowest then [.exit true .jmp] else []
  | .lt => [.exit true .jb, .exit false .ja] ++ if lowest then [.exit false .jmp] else []
  | .le => [.exit true .jb, .exit false .ja] ++ if lowest then [.exit true .jmp] else []

/-- The comparison of the lowest `count` cells, from the highest of them down; labels from
number `n` on. -/
def cellTests (rel : Relation) (a b : Var) (n : Nat) : Nat → List TestLine
  | 0 => []
  | count + 1 =>
      (compareCell a b count).map .line ++ cellExits rel n (count == 0)
        ++ cellTests rel a b (n + 1) count

/-- The test `a rel b` of two scalars of one width; labels from number `n` on. -/
def relationTest (rel : Relation) (a b : Var) (n : Nat) : List TestLine :=
  .line (carry 0) :: cellTests rel a b n a.cells

/-- The labels that `relationTest` takes. -/
def relationLabels (rel : Relation) (a : Var) : Nat :=
  match rel with
  | .eq | .ne => a.cells
  | _ => 0

/-- The test whether a scalar is odd. -/
def oddTest (v : Var) : List TestLine :=
  [loadImm 1, toLow, load (v.cell 0), alu .and].map .line
    ++ [.exit false .jz, .exit true .jmp]

/-- The test whether a scalar is not zero. -/
def nonzeroTest (v : Var) : List TestLine :=
  [carry 0, loadImm 0, toLow].map .line
    ++ (v.cellList.flatMap fun addr => [.line (load addr), .line cmp, .exit true .ja])
    ++ [.exit false .jmp]

end Code

end NibblePascal
