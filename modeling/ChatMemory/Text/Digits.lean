/-!
# Decimal digits

Natural numbers in decimal digits, as they occur in dates, numbers and labels.
-/

namespace ChatMemory.Text

/-- The value of a decimal digit. -/
def digit? (c : Char) : Option Nat :=
  if '0' ≤ c && c ≤ '9' then some (c.toNat - '0'.toNat) else none

/-- The decimal digits of a natural number, `0` for zero. -/
def natChars (n : Nat) : List Char := Nat.toDigits 10 n

/-- The decimal digits of a natural number, with zeros in front up to a width. -/
def padded (width n : Nat) : List Char :=
  List.replicate (width - (natChars n).length) '0' ++ natChars n

/-- A natural number in decimal digits. -/
def natText (n : Nat) : String := String.ofList (natChars n)

end ChatMemory.Text
