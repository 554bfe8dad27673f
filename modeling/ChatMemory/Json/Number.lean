import ChatMemory.Binary64.Shortest
import ChatMemory.Text.Digits

/-!
# JSON numbers

A number is kept as an integer where it was written as one that fits 64 bits, and as a finite
binary64 number otherwise. The two kinds stay apart: `2` and `2.0` are different numbers.

## Reading

A number is read in two steps: its literal (`Literal.read?`), and the value of the literal
(`Literal.value?`). The value of a literal with a fraction or an exponent is not always the nearest
binary64 number. Digits are collected into a 64-bit significand while they fit, the remaining ones
only move the point, and the significand is then multiplied or divided by a rounded power of ten.
A number too large to be finite has no value.

## Writing

Floats are written with the fewest digits that read back under exact rounding
(`Binary64.shortest`). Decimal exponents from −5 to 15 are written positionally, and others with
`e`, a sign and at least two digits.
-/

namespace ChatMemory

/-- A JSON number. -/
inductive Number where
  | int (value : Int)
  | float (value : Binary64)
deriving DecidableEq

namespace Number

/-! ## Ranges -/

/-- The range of a signed 64-bit integer. -/
def isInt64 (value : Int) : Bool := -9_223_372_036_854_775_808 ≤ value && value < 9_223_372_036_854_775_808

/-- The range of an unsigned 64-bit integer. -/
def isNat64 (value : Int) : Bool := 0 ≤ value && value < 18_446_744_073_709_551_616

/-- The number as a float, rounded if it is a long integer. -/
def toFloat : Number → Binary64
  | .int value => .ofInt value
  | .float value => value

/-! ## Literals -/

/-- A number as written: sign, digits before and after the point, and the exponent. -/
structure Literal where
  negative : Bool
  whole : List Nat
  fraction : List Nat
  /-- The sign and the digits of the exponent, if one is written. -/
  exponent : Option (Bool × List Nat)
deriving DecidableEq

namespace Literal

open Text (digit?)

/-- The leading digits of a text and what follows them. -/
def digits : List Char → List Nat × List Char
  | [] => ([], [])
  | c :: cs =>
    match digit? c with
    | some d => (d :: (digits cs).1, (digits cs).2)
    | none => ([], c :: cs)

/-- The exponent part of a literal: nothing, or `e`, an optional sign and digits to the end. -/
def readExponent? : List Char → Option (Option (Bool × List Nat))
  | [] => some none
  | c :: cs =>
    if c = 'e' ∨ c = 'E' then
      let (negative, cs) := match cs with
        | '+' :: rest => (false, rest)
        | '-' :: rest => (true, rest)
        | rest => (false, rest)
      match digits cs with
      | (ds@(_ :: _), []) => some (some (negative, ds))
      | _ => none
    else none

/-- The fraction and exponent parts of a literal. A point must be followed by a digit. -/
def readFraction? : List Char → Option (List Nat × Option (Bool × List Nat))
  | '.' :: cs =>
    match digits cs with
    | (ds@(_ :: _), rest) => (readExponent? rest).map (ds, ·)
    | ([], _) => none
  | cs => (readExponent? cs).map ([], ·)

/-- Reads a whole text as a number literal. A leading zero stands alone before the point. -/
def read? (cs : List Char) : Option Literal :=
  let (negative, cs) := match cs with
    | '-' :: rest => (true, rest)
    | rest => (false, rest)
  match digits cs with
  | ([], _) => none
  | (0 :: _ :: _, _) => none
  | (whole, rest) => (readFraction? rest).map fun (fraction, exponent) =>
      ⟨negative, whole, fraction, exponent⟩

/-! ## Values -/

/-- The largest significand. -/
def significandBound : Nat := Nat.pow 2 64

/-- Appends digits to a significand while it fits 64 bits; also gives the digits left over. -/
def collect (significand : Nat) : List Nat → Nat × List Nat
  | [] => (significand, [])
  | d :: ds =>
    if significand * 10 + d < significandBound then collect (significand * 10 + d) ds
    else (significand, d :: ds)

/-- The natural number written by some digits. -/
def natOfDigits (ds : List Nat) : Nat := ds.foldl (fun n d => n * 10 + d) 0

/-- The rank of the power of ten, rounded. -/
def powerRank (k : Nat) : Nat := Binary64.nearestRank (Nat.pow 10 k * Binary64.unitsPerOne) 1

/-- The product of two magnitudes, rounded. -/
def mulRank (a b : Nat) : Nat :=
  Binary64.nearestRank (Binary64.units a * Binary64.units b) Binary64.unitsPerOne

/-- The quotient of two magnitudes, rounded. -/
def divRank (a b : Nat) : Nat :=
  Binary64.nearestRank (Binary64.units a * Binary64.unitsPerOne) (Binary64.units b)

/--
The rank of `significand · 10^exponent`, each step rounded.

Powers of ten are at hand up to 10³⁰⁸. A larger divisor is applied in two steps, and past 10⁶¹⁶
nothing is left of any significand. A larger factor leaves zero only.
-/
def scaledRank? (significand : Nat) (exponent : Int) : Option Nat :=
  let rank := Binary64.nearestRank (significand * Binary64.unitsPerOne) 1
  if 0 ≤ exponent then
    if exponent ≤ 308 then
      let product := mulRank rank (powerRank exponent.toNat)
      if product < Binary64.rankBound then some product else none
    else if significand = 0 then some 0 else none
  else
    let k := (-exponent).toNat
    if k ≤ 308 then some (divRank rank (powerRank k))
    else if k ≤ 616 then some (divRank (divRank rank (powerRank 308)) (powerRank (k - 308)))
    else some 0

/-- The largest exponent that is applied digit for digit. -/
def exponentBound : Nat := Nat.pow 2 31

/-- The magnitude of a literal with a fraction, an exponent or too many digits. -/
def floatRank? (l : Literal) : Option Nat :=
  let (significand, dropped) := collect 0 l.whole
  let (significand, unread) := collect significand l.fraction
  let point : Int := (dropped.length : Int) - (l.fraction.length - unread.length : Nat)
  match l.exponent with
  | none => scaledRank? significand point
  | some (negative, ds) =>
    let size := natOfDigits ds
    if size < exponentBound then
      scaledRank? significand (if negative then point - size else point + size)
    else if significand = 0 ∨ negative then some 0 else none

/-- The integer of a literal without fraction and exponent, if it fits 64 bits. -/
def int? (l : Literal) : Option Int :=
  match l.fraction, l.exponent, collect 0 l.whole with
  | [], none, (n, []) =>
    if !l.negative then some n
    else if 0 < n ∧ n ≤ Nat.pow 2 63 then some (-(n : Int)) else none
  | _, _, _ => none

/-- The value of a literal. Negative zero is a float, and so is an integer that fits no 64 bits. -/
def value? (l : Literal) : Option Number :=
  match int? l with
  | some value => some (.int value)
  | none => do
    let rank ← floatRank? l
    let value ← Binary64.ofRank? l.negative rank
    return .float value

end Literal

/-! ## Text -/

/-- An integer with a minus sign if it is negative. -/
def intText (value : Int) : List Char :=
  if value < 0 then '-' :: Text.natChars value.natAbs else Text.natChars value.natAbs

/-- The exponent part: `e`, the sign and at least two digits. -/
def exponentText (exponent : Int) : List Char :=
  'e' :: (if exponent < 0 then '-' else '+') :: Text.padded 2 exponent.natAbs

/-- The digits of a decimal without trailing zeros, and the decimal exponent of the first one. -/
def leading (d : Binary64.Decimal) : List Char × Int :=
  let ds := Text.natChars d.digits
  let significant := (ds.reverse.dropWhile (· == '0')).reverse
  (if significant.isEmpty then ['0'] else significant, d.exponent + ds.length - 1)

/--
A decimal in digits. An integral value within sixteen places ends in `.0`; other decimals from
10⁻⁵ on have a point; the rest are written with an exponent after at most one place before the
point.
-/
def decimalText (d : Binary64.Decimal) : List Char :=
  let (ds, top) := leading d
  if 0 ≤ top ∧ top < 16 then
    let places := top.toNat + 1
    if ds.length ≤ places then
      ds ++ List.replicate (places - ds.length) '0' ++ ['.', '0']
    else ds.take places ++ '.' :: ds.drop places
  else if -5 ≤ top ∧ top < 0 then
    '0' :: '.' :: List.replicate ((-top).toNat - 1) '0' ++ ds
  else
    match ds with
    | [] => exponentText top
    | [d] => d :: exponentText top
    | d :: rest => d :: '.' :: rest ++ exponentText top

/-- The text of a float. Zero keeps its sign. -/
def floatText (x : Binary64) : List Char :=
  let magnitude := decimalText (Binary64.shortest x.rank)
  if x.negative then '-' :: magnitude else magnitude

/-- The text of a number. -/
def text : Number → List Char
  | .int value => intText value
  | .float value => floatText value

/-! ## Worked instances -/

/-- The text that a text is written back as. -/
def rewritten? (s : String) : Option String :=
  (Literal.read? s.toList).bind Literal.value? |>.map fun n => String.ofList n.text

example : rewritten? "1E5" = some "100000.0" := by decide +kernel
example : rewritten? "1e21" = some "1e+21" := by decide +kernel
example : rewritten? "18446744073709551616" = some "1.8446744073709552e+19" := by decide +kernel
example : rewritten? "-0" = some "-0.0" := by decide +kernel
example : rewritten? "5e-324" = some "5e-324" := by decide +kernel
example : rewritten? "0.00001" = some "0.00001" := by decide +kernel
example : rewritten? "1e400" = none := by decide +kernel
example : rewritten? "01" = none := by decide +kernel

end Number

end ChatMemory
