/-!
# Digits

Numbers in escapes and literals are written with digits of some base.
-/

namespace FlightProcedure

def digitValue? (base : Nat) (c : Char) : Option Nat :=
  let value :=
    if c.isDigit then c.toNat - '0'.toNat
    else if 'a' ≤ c ∧ c ≤ 'f' then c.toNat - 'a'.toNat + 10
    else if 'A' ≤ c ∧ c ≤ 'F' then c.toNat - 'A'.toNat + 10
    else base
  if value < base then some value else none

def digitsValue? (base : Nat) (digits : List Char) : Option Nat :=
  digits.foldlM (fun value c => (digitValue? base c).map fun digit => value * base + digit) 0

/-- The number that the next `count` hexadecimal digits spell, and what follows them. -/
def hexNumber? (count : Nat) (text : List Char) : Option (Nat × List Char) :=
  let digits := text.take count
  if digits.length = count then
    (digitsValue? 16 digits).map fun value => (value, text.drop count)
  else none

def charOfNumber? (number : Nat) : Option Char := if number.isValidChar then some (Char.ofNat number) else none

end FlightProcedure
