import NibblePascal.Code.Scalar

/-!
# Code for products

`product` multiplies by shift and add: while `b` is not zero, `a` is added to the result if
`b` is odd, `a` is doubled and `b` is halved.  The product wraps at the width of the operands.
-/

namespace NibblePascal.Code

/-- Leave the loop for `done` if `b` is zero; `body` is where several cells go on. -/
def whileNonzero (b : Var) (done body : Nat) : List Line :=
  [loadImm 0, toLow, carry 0] ++
    match b.width with
    | .nibble => [load (b.cell 0), cmp, jump .jz (labelName done)]
    | _ =>
        (b.cellList.flatMap fun addr => [load addr, cmp, jump .ja (labelName body)])
          ++ [jump .jmp (labelName done), label body]

/-- `z := x * y` with the help of `a` and `b`, all of one width, and four labels from number
`n` on. -/
def product (x y z a b : Var) (n : Nat) : List Line :=
  [comment "a := x"] ++ assign x a none
    ++ [comment "b := y"] ++ assign y b none
    ++ [comment "z := 0"] ++ clear z
    ++ [comment "WHILE b > 0 DO", label n] ++ whileNonzero b (n + 1) (n + 2)
    ++ [comment "IF ODD b THEN", loadImm 1, toLow, load (b.cell 0), alu .and,
        jump .jz (labelName (n + 3)), comment "z := z + a;"]
    ++ combine .add z a z
    ++ [label (n + 3), comment "a := 2 * a;"] ++ shiftLeft a
    ++ [comment "b := b / 2;"] ++ shiftRight b
    ++ [jump .jmp (labelName n), label (n + 1)]

/-- The labels that `product` takes. -/
def productLabels : Nat := 4

end NibblePascal.Code
