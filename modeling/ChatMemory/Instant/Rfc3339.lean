import ChatMemory.Instant.Basic
import ChatMemory.Text.Blank
import ChatMemory.Text.Digits

/-!
# Instants as text

The date format of RFC 3339. Instants are written in UTC with `Z`, with the fraction of the second
in zero, three, six or nine digits, whichever is the fewest that loses nothing. Years before 0 and
after 9999 carry a sign. A leap second is second 60.

Two readers are defined. The strict one (`ofRfc3339?`) takes four-digit years and two-digit fields
only; years that are written with a sign cannot be read by it. The lenient one (`ofLenient?`) also
takes years of any length with a sign, fields of one digit, blanks between the parts, `UTC` for the
offset, and offsets without a colon.
-/

namespace ChatMemory.Instant

open Text (digit? padded)

/-! ## Writing -/

/-- Four digits, with a sign if the year has more or is negative. -/
def yearChars (year : Int) : List Char :=
  if 0 ≤ year ∧ year ≤ 9999 then padded 4 year.toNat
  else (if year < 0 then '-' else '+') :: padded 4 year.natAbs

/-- The fraction of a second: nothing, or a point and the fewest groups of three digits. -/
def fractionChars (nanos : Nat) : List Char :=
  if nanos = 0 then []
  else if nanos % 1_000_000 = 0 then '.' :: padded 3 (nanos / 1_000_000)
  else if nanos % 1000 = 0 then '.' :: padded 6 (nanos / 1000)
  else '.' :: padded 9 nanos

/-- The characters of an instant. -/
def chars (t : Instant) : List Char :=
  let date := Date.ofDayNumber (dayOf t.seconds)
  let second := (t.seconds % 86400).toNat
  let leap := t.nanos / 1_000_000_000
  yearChars date.year ++ '-' :: padded 2 date.month ++ '-' :: padded 2 date.day
    ++ 'T' :: padded 2 (second / 3600) ++ ':' :: padded 2 (second / 60 % 60)
    ++ ':' :: padded 2 (second % 60 + leap) ++ fractionChars (t.nanos % 1_000_000_000) ++ ['Z']

/-- The text of an instant. -/
def text (t : Instant) : String := String.ofList t.chars

/-! ## Putting the parts together -/

/-- The parts of a date and time as they are written. The offset is in seconds east of UTC. -/
structure Parts where
  date : Date
  hour : Nat
  minute : Nat
  second : Nat
  nanos : Nat
  offset : Int

/--
The instant of the parts, if the date exists and the fields are in range. Second 60 is the leap
second. Both the local time and the instant must lie in the supported years.
-/
def ofParts? (p : Parts) : Option Instant :=
  let locally := Date.dayNumber p.date * 86400 + (p.hour * 3600 + p.minute * 60 : Nat)
    + (min p.second 59 : Nat)
  if p.date.exists? && p.hour ≤ 23 && p.minute ≤ 59 && p.second ≤ 60
      && -86400 < p.offset && p.offset < 86400
      && inRange locally && inRange (locally - p.offset) then
    of? (locally - p.offset) (if p.second = 60 then p.nanos + 1_000_000_000 else p.nanos)
  else none

/-! ## Reading parts -/

/-- Up to `most` leading digits as a number, how many there are, and what follows them. -/
def digitsUpTo (value count : Nat) : Nat → List Char → Nat × Nat × List Char
  | 0, cs => (value, count, cs)
  | _ + 1, [] => (value, count, [])
  | most + 1, c :: cs =>
    match digit? c with
    | some d => digitsUpTo (value * 10 + d) (count + 1) most cs
    | none => (value, count, c :: cs)

/-- A number of at least one and at most `most` digits. -/
def number? (most : Nat) (cs : List Char) : Option (Nat × List Char) :=
  match digitsUpTo 0 0 most cs with
  | (_, 0, _) => none
  | (value, _, rest) => some (value, rest)

/-- A number of exactly `width` digits. -/
def exactly? (width : Nat) (cs : List Char) : Option (Nat × List Char) :=
  match digitsUpTo 0 0 width cs with
  | (value, count, rest) => if count = width then some (value, rest) else none

/-- One given character. -/
def mark? (c : Char) : List Char → Option (List Char)
  | [] => none
  | d :: rest => if d = c then some rest else none

/-- The letter or blank between date and time. -/
def between? : List Char → Option (List Char)
  | [] => none
  | c :: rest => if c = 'T' ∨ c = 't' ∨ c = ' ' then some rest else none

/-- The digits after a point as nanoseconds; digits past the ninth are skipped. -/
def fraction? : List Char → Option (Nat × List Char)
  | '.' :: cs =>
    match digitsUpTo 0 0 9 cs with
    | (_, 0, _) => none
    | (value, count, rest) =>
      some (value * Nat.pow 10 (9 - count), rest.dropWhile fun c => (digit? c).isSome)
  | cs => some (0, cs)

/-- The sign of an offset. The minus sign may be the hyphen or U+2212. -/
def sign? : List Char → Option (Int × List Char)
  | [] => none
  | c :: rest =>
    if c = '+' then some (1, rest)
    else if c = '-' ∨ c = Char.ofNat 0x2212 then some (-1, rest)
    else none

/-! ## The strict reader -/

/-- A strict offset: `Z`, or a sign, two digits, a colon and two digits. -/
def offset? : List Char → Option (Int × List Char)
  | [] => none
  | c :: rest =>
    if c = 'Z' ∨ c = 'z' then some (0, rest)
    else do
      let (sign, cs) ← sign? (c :: rest)
      let (hours, cs) ← exactly? 2 cs
      let cs ← mark? ':' cs
      let (minutes, cs) ← exactly? 2 cs
      if hours ≤ 23 ∧ minutes ≤ 59 then
        return (sign * (hours * 3600 + minutes * 60 : Nat), cs)
      else none

/-- The parts of a strict date, which must be the whole text. -/
def strictParts? (cs : List Char) : Option Parts := do
  let (year, cs) ← exactly? 4 cs
  let (month, cs) ← mark? '-' cs >>= exactly? 2
  let (day, cs) ← mark? '-' cs >>= exactly? 2
  let (hour, cs) ← between? cs >>= exactly? 2
  let (minute, cs) ← mark? ':' cs >>= exactly? 2
  let (second, cs) ← mark? ':' cs >>= exactly? 2
  let (nanos, cs) ← fraction? cs
  let (offset, cs) ← offset? cs
  if cs.isEmpty then return ⟨⟨year, month, day⟩, hour, minute, second, nanos, offset⟩ else none

/-- Reads a strict date. -/
def ofRfc3339? (s : String) : Option Instant := strictParts? s.toList >>= ofParts?

/-! ## The lenient reader -/

open Text (dropBlanks isBlank)

/-- A year: up to four digits, or a sign and any number of digits. -/
def lenientYear? (cs : List Char) : Option (Int × List Char) :=
  match dropBlanks cs with
  | '-' :: rest => (number? rest.length rest).map fun (n, cs) => (-(n : Int), cs)
  | '+' :: rest => (number? rest.length rest).map fun (n, cs) => ((n : Int), cs)
  | rest => (number? 4 rest).map fun (n, cs) => ((n : Int), cs)

/-- A field of one or two digits, after any blanks. -/
def field? (cs : List Char) : Option (Nat × List Char) := number? 2 (dropBlanks cs)

/-- A mark after any blanks. -/
def spacedMark? (c : Char) (cs : List Char) : Option (List Char) := mark? c (dropBlanks cs)

/-- Whether a character is the given letter in either case. -/
def isLetter (upper lower c : Char) : Bool := c = upper || c = lower

/-- An offset with two digits of hours, any colons and blanks, and two digits of minutes. -/
def numericOffset? (cs : List Char) : Option (Int × List Char) := do
  let (sign, cs) ← sign? cs
  let (hours, cs) ← exactly? 2 cs
  let (minutes, cs) ← exactly? 2 (cs.dropWhile fun c => c = ':' || isBlank c)
  if minutes ≤ 59 then return (sign * (hours * 3600 + minutes * 60 : Nat), cs) else none

/-- A lenient offset: `UTC`, `Z` or a numeric one. -/
def lenientOffset? : List Char → Option (Int × List Char)
  | c :: rest =>
    if isLetter 'Z' 'z' c then some (0, rest)
    else
      match rest with
      | d :: e :: rest' =>
        if isLetter 'U' 'u' c && isLetter 'T' 't' d && isLetter 'C' 'c' e then some (0, rest')
        else numericOffset? (c :: rest)
      | _ => numericOffset? (c :: rest)
  | [] => none

/-- The parts of a lenient date. Only blanks may follow. -/
def lenientParts? (cs : List Char) : Option Parts := do
  let (year, cs) ← lenientYear? cs
  let (month, cs) ← spacedMark? '-' cs >>= field?
  let (day, cs) ← spacedMark? '-' cs >>= field?
  let (hour, cs) ← between? cs >>= field?
  let (minute, cs) ← spacedMark? ':' cs >>= field?
  let (second, cs) ← spacedMark? ':' cs >>= field?
  let (nanos, cs) ← fraction? cs
  let (offset, cs) ← lenientOffset? (dropBlanks cs)
  if (dropBlanks cs).isEmpty then
    return ⟨⟨year, month, day⟩, hour, minute, second, nanos, offset⟩
  else none

/-- Reads a lenient date. -/
def ofLenient? (s : String) : Option Instant := lenientParts? s.toList >>= ofParts?

/-! ## Worked instances -/

example : (ofRfc3339? "2016-12-31T23:59:60.5Z").map text = some "2016-12-31T23:59:60.500Z" := by
  decide +kernel
example : (ofRfc3339? "0000-01-01 00:00:00+23:59").map text = some "-0001-12-31T00:01:00Z" := by
  decide +kernel
example : ofRfc3339? "+10000-01-01T00:00:00Z" = none := by decide +kernel
example : (ofLenient? " +10000-1-1 0:0:0 utc ").map text = some "+10000-01-01T00:00:00Z" := by
  decide +kernel

end ChatMemory.Instant
