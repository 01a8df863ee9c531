import NibblePascal.Code.Generator
import NibblePascal.Program.Tree

/-!
# Code for expressions

`Expr.generate` puts the code of an expression behind the code so far and answers the scalar
that holds its value: a declared scalar itself, or a temporary.  An operator works at the
width of its wider operand.
-/

namespace NibblePascal

namespace Gen

/-- Pass a gate. -/
def pass : Gate → Gen Unit
  | .passed => return ()
  | .blocked why => fail why

/-! ### Names -/

/-- What a name stands for. -/
def symbol (x : Token) : Gen Symbol := do
  match (← get).scope.find? x.text with
  | some s => return s
  | none => complain x.pos (.unknownVariable x.text)

/-- The scalar that a name stands for; `construct` is what asks for it. -/
def scalar (construct : String) (x : Token) : Gen Var := do
  match ← symbol x with
  | .scalar v => return v
  | .array _ => complain x.pos (.scalarsOnly construct)

/-- The array that a name stands for. -/
def array (x : Token) : Gen ArrayVar := do
  match ← symbol x with
  | .array a => return a
  | .scalar _ => complain x.pos (.notAnArray x.text)

/-! ### Operands -/

/-- The value at another width, in a temporary unless it has that width already. -/
def convert (v : Var) (width : Width) : Gen Var := do
  if v.width = width then return v
  let res ← temp width
  changeWidth v res
  free v
  return res

/-- Two operands at the width of the wider one. -/
def sameWidth (lhs rhs : Var) : Gen (Var × Var) := do
  if lhs.width = rhs.width then return (lhs, rhs)
  if lhs.width.isBelow rhs.width then
    let wide ← convert lhs rhs.width
    return (wide, rhs)
  else
    let wide ← convert rhs lhs.width
    return (lhs, wide)

/-- `res := lhs op rhs` for operands of one width. -/
def operate (op : BinaryOp) (lhs rhs res : Var) : Gen Unit :=
  match op with
  | .add => emit (Code.combine .add lhs rhs res)
  | .sub => emit (Code.combine .sub lhs rhs res)
  | .and => emit (Code.combine .and lhs rhs res)
  | .or => emit (Code.combine .or lhs rhs res)
  | .xor => emit (Code.combine .xor lhs rhs res)
  | .mul => multiply lhs rhs res
  | .div => divide lhs rhs res false
  | .mod => divide lhs rhs res true

/-- The result of an operator, in a temporary. -/
def binary (op : BinaryOp) (lhs rhs : Var) : Gen Var := do
  let (lhs, rhs) ← sameWidth lhs rhs
  let res ← temp lhs.width
  operate op lhs rhs res
  free lhs
  free rhs
  return res

/-- A constant in a temporary. -/
def constant (value : Nat) (width : Width) : Gen Var := do
  let res ← temp width
  emit (Code.constant value res)
  return res

/-- `0 - v` in a temporary. -/
def negate (v : Var) : Gen Var := do
  let res ← temp v.width
  emit (Code.clear res)
  emit (Code.combine .sub res v res)
  free v
  return res

end Gen

/-- Generate the code of an expression. -/
def Expr.generate : Expr → Gen Var
  | fault why => Gen.fail why
  | scalar x => do
      Gen.locate x.pos
      Gen.scalar x.text x
  | literal pos value => do
      Gen.locate pos
      Gen.constant value (Width.fit value)
  | negLiteral pos value => do
      Gen.locate pos
      Gen.constant ((0x10000 - value) % 0x10000) .word
  | element x index close => do
      Gen.locate x.pos
      let arr ← Gen.array x
      let i ← index.generate
      Gen.pass close
      let res ← Gen.temp arr.width
      Gen.readElement arr i res
      Gen.free i
      return res
  | half pos upper x close => do
      Gen.locate pos
      let v ← Gen.scalar (if upper then "hi" else "lo") x
      Gen.pass close
      Gen.half v upper
  | paren e close => do
      let v ← e.generate
      Gen.pass close
      return v
  | negate e => do
      let v ← e.generate
      let wide ← Gen.convert v .word
      Gen.negate wide
  | binary op lhs rhs => do
      let a ← lhs.generate
      let b ← rhs.generate
      Gen.binary op a b

end NibblePascal
