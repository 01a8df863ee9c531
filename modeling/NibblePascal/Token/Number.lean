import NibblePascal.Fault
import NibblePascal.Token.Line

/-!
# Values of number tokens

A number is decimal, hexadecimal after `$`, binary after `%`, or a quoted character.  It has
to fit in sixteen bits, and a character in eight.  A plus sign may stand before the digits.
Digits whose number leaves 64 bits on the way are refused there and then.
-/

namespace NibblePascal

/-- The value of a digit to any base up to sixteen. -/
def digitValue? (c : Char) : Option Nat :=
  if isDigit c then some (c.toNat - '0'.toNat)
  else if 'a' ≤ c && c ≤ 'f' then some (c.toNat - 'a'.toNat + 10)
  else if 'A' ≤ c && c ≤ 'F' then some (c.toNat - 'A'.toNat + 10)
  else none

/-- The value of digits to a base, continuing the number read so far, as long as the numbers
read stay below a limit. -/
def digitsValue? (limit base value : Nat) : List Char → Option Nat
  | [] => some value
  | c :: cs =>
      match digitValue? c with
      | some d =>
          if d < base && value * base + d < limit then
            digitsValue? limit base (value * base + d) cs
          else none
      | none => none

/-- The value of a numeral to a base, if it is below a limit: at least one digit, perhaps after
a plus sign. -/
def numeralValue? (limit base : Nat) (cs : List Char) : Option Nat :=
  let digits := match cs with
    | '+' :: rest => rest
    | _ => cs
  if digits.isEmpty then none else digitsValue? limit base 0 digits

/-- The characters between the quotes of a quoted text that is not empty. -/
def quoted? : List Char → Option (List Char)
  | '\'' :: cs =>
      match cs.reverse with
      | '\'' :: inner => if inner.isEmpty then none else some inner.reverse
      | _ => none
  | _ => none

/-- Digits are read into 64 bits. -/
def digitsLimit : Nat := 0x10000000000000000

/-- The value of a number before its range is checked: of a quoted text the first character
counts. -/
def rawNumber (text : String) : Except Complaint (Option Nat) :=
  match text.toList with
  | '$' :: digits => .ok (numeralValue? digitsLimit 16 digits)
  | '%' :: digits => .ok (numeralValue? digitsLimit 2 digits)
  | cs =>
      match quoted? cs with
      | some (c :: _) =>
          if c.toNat < 0x100 then .ok (some c.toNat) else .error (.wideCharacter text)
      | some [] => .ok none
      | none => .ok (numeralValue? digitsLimit 10 cs)

/-- The value of a number. -/
def numberValue (text : String) : Except Complaint Nat :=
  match rawNumber text with
  | .error why => .error why
  | .ok (some value) =>
      if value < 0x10000 then .ok value else .error (.numberTooLarge text)
  | .ok none => .error (.numberTooLarge text)

/-- The value of a number token. -/
def Token.numberValue (t : Token) : Except Fault Nat :=
  match NibblePascal.numberValue t.text with
  | .ok value => .ok value
  | .error why => .error (.source t.pos why)

end NibblePascal
