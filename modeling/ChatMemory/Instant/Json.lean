import ChatMemory.Instant.Rfc3339
import ChatMemory.Json.Decoder

/-!
# Instants as JSON

Instants are written as strict date texts. They are read from such texts and, in records, also from
numbers: milliseconds since the epoch, the fraction of a float being cut off. Arguments take lenient
date texts instead.
-/

namespace ChatMemory.Instant

def toJson (t : Instant) : Json := .str t.text

/-- The milliseconds that a number stands for. -/
def millisOf : Number → Int
  | .int value => value
  | .float value => value.truncate

/-- A date of a record: a strict date text or milliseconds. -/
def ofJson : Decoder Instant
  | .str s =>
    match ofRfc3339? s with
    | some t => .ok t
    | none => .error .malformedDate
  | .num n =>
    if inRange (millisOf n / 1000) then .ok (ofMillis (millisOf n))
    else .error (.timestampOutOfRange n)
  | v => .error (.notADate v)

/-- A date of an argument: a lenient date text. -/
def ofArgument : Decoder Instant
  | .str s =>
    match ofLenient? s with
    | some t => .ok t
    | none => .error .malformedDate
  | _ => .error .unexpected

end ChatMemory.Instant
