/-!
# Hexadecimal numerals and padding

* `hexDigit d` is the capital hexadecimal digit of `d < 16`;
* `hex w n` writes `n` in capital hexadecimal with at least `w` digits;
* `padLeft`, `padRight` fill a text with blanks up to a width.
-/

namespace NibblePascal

/-- The capital hexadecimal digit of a number below sixteen. -/
def hexDigit (d : Nat) : Char :=
  if d < 10 then Char.ofNat (48 + d) else Char.ofNat (55 + d)

/-- The digits of `n` to the base sixteen, most significant first. -/
def hexDigits (n : Nat) : List Char :=
  if n < 16 then [hexDigit n] else hexDigits (n / 16) ++ [hexDigit (n % 16)]
termination_by n

/-- `n` in capital hexadecimal, filled with zeros on the left up to `width` digits. -/
def hex (width n : Nat) : String :=
  let digits := hexDigits n
  String.ofList (List.replicate (width - digits.length) '0' ++ digits)

/-- `text` filled with blanks on the left up to `width` characters. -/
def padLeft (width : Nat) (text : String) : String :=
  String.ofList (List.replicate (width - text.length) ' ') ++ text

/-- `text` filled with blanks on the right up to `width` characters. -/
def padRight (width : Nat) (text : String) : String :=
  text ++ String.ofList (List.replicate (width - text.length) ' ')

end NibblePascal
