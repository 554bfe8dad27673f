import ChatMemory.Json.Printer

/-!
# Decoding JSON values

A decoder takes a value to a thing of the domain or to the reason why it is none. Only some reasons
have a text of their own (`DecodeError.ownText?`); the others are told apart but not worded.

## Records

A record is decoded from an object or from a list of its fields in declared order
(`Record.decode`).

* From an object the fields are taken in the order of its keys. The first field that is repeated
  under another of its names, or whose value does not decode, is the error. Keys that name no field
  are passed over.
* From a list each item is the field at its place, and items past the last field are an error.
* A field that was not met is an error, unless it has a default. This is found out last.
-/

namespace ChatMemory

/-- Why a value could not be decoded. -/
inductive DecodeError where
  /-- A date given as a number lies outside the supported years. -/
  | timestampOutOfRange (value : Number)
  /-- A date is neither a text nor a number. -/
  | notADate (value : Json)
  /-- A metadata text is not the text of an object. -/
  | metadataText
  /-- Metadata is neither an object nor a text. -/
  | notMetadata (value : Json)
  /-- `true` in place of a page size. -/
  | pageSizeTrue
  /-- A negative page size. -/
  | pageSizeNegative
  /-- Something else, in words. -/
  | other (text : String)
  /-- A text is not a date of the expected format. -/
  | malformedDate
  /-- A text is not JSON. -/
  | malformedText
  /-- A field without a default was not given. -/
  | missingField (name : String)
  /-- A field was given twice. -/
  | repeatedField (name : String)
  /-- A list has too many items for the record it stands for. -/
  | wrongLength
  /-- The name of no choice. -/
  | unknownChoice
  /-- A value of another kind or out of range. -/
  | unexpected

/-- The wording of an error that has one. -/
def DecodeError.ownText? : DecodeError → Option String
  | .timestampOutOfRange value => some ("invalid timestamp " ++ String.ofList value.text)
  | .notADate value => some ("expected a date, got " ++ value.text)
  | .metadataText => some "metadata string is not a JSON object"
  | .notMetadata value => some ("expected metadata object, got " ++ value.text)
  | .pageSizeTrue => some "perPage: true is not a page size"
  | .pageSizeNegative => some "perPage must be >= 0"
  | .other text => some text
  | _ => none

/-- A reading of values. -/
abbrev Decoder (α : Type) := Json → Except DecodeError α

namespace Decoder

/-! ## Plain values -/

def text : Decoder String
  | .str value => .ok value
  | _ => .error .unexpected

def boolean : Decoder Bool
  | .bool value => .ok value
  | _ => .error .unexpected

/-- Any value as it is. -/
def anything : Decoder Json := .ok

def object : Decoder Object
  | .obj fields => .ok fields
  | _ => .error .unexpected

/-- An integer in a range. A float is none, whatever its value. -/
def integer (inRange : Int → Bool) : Decoder Int
  | .num (.int value) => if inRange value then .ok value else .error .unexpected
  | _ => .error .unexpected

/-- A signed 64-bit integer. -/
def int64 : Decoder Int := integer Number.isInt64

/-- A natural number below `bound`. -/
def natBelow (bound : Nat) : Decoder Nat := fun v =>
  (integer (fun n => 0 ≤ n && n < bound) v).map Int.toNat

/-- An unsigned 64-bit integer. -/
def nat64 : Decoder Nat := natBelow (Nat.pow 2 64)

/-- A number as a float. -/
def float : Decoder Binary64
  | .num value => .ok value.toFloat
  | _ => .error .unexpected

/-- Nothing for null. -/
def nullable {α : Type} (d : Decoder α) : Decoder (Option α)
  | .null => .ok none
  | v => (d v).map some

/-- All items, in order, by one decoder. -/
def items {α : Type} (d : Decoder α) : List Json → Except DecodeError (List α)
  | [] => .ok []
  | v :: vs => do
    let a ← d v
    let as ← items d vs
    return a :: as

def list {α : Type} (d : Decoder α) : Decoder (List α)
  | .arr vs => items d vs
  | _ => .error .unexpected

/-- The choice of a name. -/
def named {α : Type} (options : List (String × α)) (name : String) : Except DecodeError α :=
  match options.lookup name with
  | some a => .ok a
  | none => .error .unknownChoice

/-- One of some named choices: its name, or an object whose only field has that name and is null. -/
def choice {α : Type} (options : List (String × α)) : Decoder α
  | .str name => named options name
  | .obj [(name, .null)] => named options name
  | _ => .error .unexpected

end Decoder

/-! ## Records -/

/-- A field of a record: its names, the usual one first, and a test of its value. -/
structure Field where
  name : String
  aliases : List String
  check : Json → Except DecodeError Unit

namespace Field

/-- Whether a key names the field. -/
def named (key : String) (f : Field) : Bool := f.name == key || f.aliases.contains key

/-- Tests the fields of an object in order and files their values under the usual names. -/
def file (fields : List Field) (filed : Object) : Object → Except DecodeError Object
  | [] => .ok filed
  | (key, value) :: rest =>
    match fields.find? (named key) with
    | none => file fields filed rest
    | some f =>
      if (filed.lookup f.name).isSome then .error (.repeatedField f.name)
      else do
        f.check value
        file fields ((f.name, value) :: filed) rest

/-- Tests the items of a list against the fields in declared order and files them. -/
def fileList : List Field → List Json → Except DecodeError Object
  | f :: fields, value :: rest => do
    f.check value
    let filed ← fileList fields rest
    return (f.name, value) :: filed
  | _, _ => .ok []

end Field

/-- A record: its fields in declared order, and what is made of the filed values. -/
structure Record (α : Type) where
  fields : List Field
  build : Object → Except DecodeError α

namespace Record

/-- A constructor that still waits for all its fields. -/
def constructor {α : Type} (a : α) : Record α := ⟨[], fun _ => .ok a⟩

/-- Gives the next field to a constructor. -/
def and {α β : Type} (f : Record (α → β)) (a : Record α) : Record β where
  fields := f.fields ++ a.fields
  build filed := do
    let g ← f.build filed
    let x ← a.build filed
    return g x

/-- A field that must be given. -/
def required {α : Type} (name : String) (d : Decoder α) (aliases : List String := []) :
    Record α where
  fields := [⟨name, aliases, fun v => (d v).map fun _ => ()⟩]
  build filed :=
    match filed.lookup name with
    | some v => d v
    | none => .error (.missingField name)

/-- A field with a default. -/
def optional {α : Type} (name : String) (d : Decoder α) (default : α)
    (aliases : List String := []) : Record α where
  fields := [⟨name, aliases, fun v => (d v).map fun _ => ()⟩]
  build filed :=
    match filed.lookup name with
    | some v => d v
    | none => .ok default

/-- Decodes a record. -/
def decode {α : Type} (r : Record α) : Decoder α
  | .obj fields => Field.file r.fields [] fields >>= r.build
  | .arr items => do
    let a ← Field.fileList r.fields items >>= r.build
    if r.fields.length < items.length then .error .wrongLength else .ok a
  | _ => .error .unexpected

end Record

end ChatMemory
