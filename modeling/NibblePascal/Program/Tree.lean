import NibblePascal.Code.Test
import NibblePascal.Fault
import NibblePascal.Token.Basic

/-!
# Programs as trees

The grammar of the language, with every program text as a tree: of a text with a fault the
tree goes as far as the text could be read.  A part that could not be read is a node `fault`,
and a closing word that is missing is a blocked `Gate`.  Code generation walks the tree in
the order of the text, so it meets the first fault first.

* `Expr`, `Cond`, `Stmt`, `Block` and `Program` are the trees;
* `BinaryOp` and `StepOp` are the operators.
-/

namespace NibblePascal

/-- A fixed word or sign of a construct: it stands where it should, or something is wrong
there. -/
inductive Gate
  | passed
  | blocked (why : Fault)
  deriving DecidableEq, Repr, Inhabited

/-- The operators between two operands. -/
inductive BinaryOp
  | add
  | sub
  | and
  | or
  | xor
  | mul
  | div
  | mod
  deriving DecidableEq, Repr, Inhabited

/-- The statements that change a scalar in place. -/
inductive StepOp
  | shr
  | shl
  | inc
  | dec
  deriving DecidableEq, Repr, Inhabited

/-- Expressions.  The positions are those of the first token of a factor. -/
inductive Expr
  | fault (why : Fault)
  | scalar (x : Token)
  | literal (pos : Pos) (value : Nat)
  /-- A minus sign and a number that begins no product: a word. -/
  | negLiteral (pos : Pos) (value : Nat)
  /-- `arr[index]`. -/
  | element (arr : Token) (index : Expr) (close : Gate)
  /-- `lo(x)` or `hi(x)`. -/
  | half (pos : Pos) (upper : Bool) (x : Token) (close : Gate)
  | paren (e : Expr) (close : Gate)
  /-- A minus sign and a term: a word. -/
  | negate (e : Expr)
  | binary (op : BinaryOp) (lhs rhs : Expr)
  deriving DecidableEq, Repr, Inhabited

/-- Conditions.  The first operand of `and` is a simple condition or a group, and the first
operand of `or` has no `or` outside groups: chains nest to the right. -/
inductive Cond
  | fault (why : Fault)
  | compare (lhs : Expr) (rel : Relation) (rhs : Expr)
  /-- `e > 0` or `e # 0`. -/
  | nonzero (e : Expr)
  | odd (e : Expr)
  /-- A condition in curly brackets. -/
  | group (c : Cond) (close : Gate)
  | and (lhs rhs : Cond)
  | or (lhs rhs : Cond)
  deriving DecidableEq, Repr, Inhabited

/-- Statements. -/
inductive Stmt
  | fault (why : Fault)
  | skip
  | seq (first rest : Stmt)
  | nop
  /-- `begin` statements `end`. -/
  | block (body : Stmt) (close : Gate)
  | assign (x : Token) (value : Expr)
  /-- `arr[index] := value`. -/
  | setElement (arr : Token) (index value : Expr)
  /-- `arr := (values)`. -/
  | fillList (arr : Token) (values : List Nat)
  /-- `arr := 'text'`. -/
  | fillText (arr text : Token)
  /-- `dst := src` for arrays. -/
  | copyArray (dst src : Token)
  | call (p : Token)
  /-- Lines of inline assembly. -/
  | asm (lines : List Token) (close : Gate)
  /-- The gate is `then`. -/
  | ifThen (c : Cond) (gate : Gate) (yes : Stmt)
  | ifElse (c : Cond) (gate : Gate) (yes no : Stmt)
  /-- The gate is `do`. -/
  | whileDo (c : Cond) (gate : Gate) (body : Stmt)
  | repeatUntil (body : Stmt) (c : Cond)
  /-- A loop with a counter; the gate is `do`. -/
  | forDo (x : Token) (down : Bool) (first last : Expr) (gate : Gate) (body : Stmt)
  | step (op : StepOp) (x : Token)
  | output (port : Nat) (value : Expr)
  /-- The gate is the comma and the port after it. -/
  | input (x : Token) (gate : Gate) (port : Nat)
  deriving DecidableEq, Repr, Inhabited

/-- The declarations of a block, and the statement after them. -/
inductive Block
  | fault (why : Fault)
  | code (s : Stmt)
  /-- A scalar, or an array of the given length. -/
  | declare (x : Token) (width : Width) (len : Option Nat) (rest : Block)
  /-- The gate is the semicolon after the body. -/
  | procedure (p : Token) (body : Block) (close : Gate) (rest : Block)
  deriving DecidableEq, Repr, Inhabited

/-- A block and the period after it. -/
structure Program where
  block : Block
  close : Gate
  deriving DecidableEq, Repr, Inhabited

end NibblePascal
