import NibblePascal.Code.Scalar

/-!
# Code for quotients and remainders

`quotient` divides by shift and subtract.  The divisor is doubled while it is not above the
dividend and its top bit is clear, so that it never overflows; then it is halved again down to
where it began, and subtracted where it fits.  A division by zero does not end.
-/

namespace NibblePascal.Code

/-- Double `w` while it is not above `r` and its top bit is clear; labels from `n` on. -/
def scaleUp (r w : Var) (n : Nat) : List Line :=
  [comment "WHILE w <= r AND w < 2^(n-1) DO w := 2 * w;", label n]
    ++ compare w r (labelName (n + 3)) (labelName (n + 1))
    ++ [label (n + 1), loadImm 8, toLow, load w.top, alu .and,
        jump .jz (labelName (n + 2)), jump .jmp (labelName (n + 3)), label (n + 2)]
    ++ shiftLeft w ++ [jump .jmp (labelName n), label (n + 3)]

/-- Subtract `w` from `r` where it fits and halve it until it is `y` again, collecting the
bits of the quotient in `q`; labels from `n` on. -/
def reduce (y q r w : Var) (n : Nat) : List Line :=
  [comment "LOOP", label (n + 4), comment "IF w <= r THEN"]
    ++ compare w r (labelName n) (labelName (n + 1))
    ++ [label (n + 1), comment "r := r - w"] ++ combine .sub r w r
    ++ [comment "q := q + 1"] ++ increment q
    ++ [label n, comment "IF w = y THEN EXIT"]
    ++ compare w y (labelName (n + 2)) (labelName (n + 3))
    ++ [jump .jmp (labelName (n + 3)), label (n + 2), comment "q := 2 * q;"] ++ shiftLeft q
    ++ [comment "w := w / 2;"] ++ shiftRight w
    ++ [jump .jmp (labelName (n + 4)), label (n + 3)]

/-- `q := x / y`, or the remainder instead, with the help of `r` and `w`, all of one width,
and nine labels from number `n` on. -/
def quotient (x y q r w : Var) (remainder : Bool) (n : Nat) : List Line :=
  assign x r none ++ assign y w none ++ clear q
    ++ scaleUp r w n ++ reduce y q r w (n + 4)
    ++ if remainder then assign r q none else []

/-- The labels that `quotient` takes. -/
def quotientLabels : Nat := 9

end NibblePascal.Code
