import ChatMemory.Json.Decoder
import ChatMemory.Json.Written
import ChatMemory.Instant.Basic

/-!
# Order entries

The place of one message in the order of its thread: the id and a score. Messages are scored with
the microsecond of their creation, moved on by their position in the batch they were saved with.

A list of entries is stored as a JSON list. It is also accepted as a text that holds such a list
(`OrderEntry.ofStored`). In the text, the fields of an entry are judged as they are met: a field that
is no part of an entry may hold anything that is well formed, even a number too large to be read,
but the id and the score may be given once only.
-/

namespace ChatMemory

/-- The place of a message in the order of its thread. -/
structure OrderEntry where
  id : String
  score : Binary64
deriving DecidableEq

/-- The score of a message at a position in its batch. Both parts are rounded before they are
added. -/
def scoreFor (createdAt : Instant) (position : Nat) : Binary64 :=
  Binary64.ofInt createdAt.micros + Binary64.ofInt position

/-- A score after those of all messages created so far. -/
def freshScore (now : Instant) : Binary64 := Binary64.ofInt now.micros

namespace OrderEntry

/-! ## As JSON -/

def toJson (e : OrderEntry) : Json :=
  .obj [("id", .str e.id), ("score", .num (.float e.score))]

def record : Record OrderEntry :=
  Record.constructor mk
    |>.and (.required "id" Decoder.text)
    |>.and (.required "score" Decoder.float)

def ofJson : Decoder OrderEntry := record.decode

/-! ## Within a text -/

open Json (Written)

/-- A text within a text. -/
def idOf : Written → Except DecodeError String
  | .text points =>
    match Written.string? points with
    | some s => .ok s
    | none => .error .malformedText
  | _ => .error .unexpected

/-- A score within a text. -/
def scoreOf : Written → Except DecodeError Binary64
  | .number literal =>
    match literal.value? with
    | some n => .ok n.toFloat
    | none => .error .malformedText
  | _ => .error .unexpected

/-- Goes through the fields of an entry; `id?` and `score?` are those met so far. -/
def ofFields (id? : Option String) (score? : Option Binary64) :
    List (List Nat × Written) → Except DecodeError OrderEntry
  | [] =>
    match id?, score? with
    | some id, some score => .ok ⟨id, score⟩
    | none, _ => .error (.missingField "id")
    | _, none => .error (.missingField "score")
  | (points, value) :: rest =>
    match Written.string? points with
    | none => .error .malformedText
    | some key =>
      if key = "id" then
        if id?.isSome then .error (.repeatedField "id")
        else do
          let id ← idOf value
          ofFields (some id) score? rest
      else if key = "score" then
        if score?.isSome then .error (.repeatedField "score")
        else do
          let score ← scoreOf value
          ofFields id? (some score) rest
      else ofFields id? score? rest

/-- An entry within a text: a record, or a list of the id and the score. -/
def ofWritten : Written → Except DecodeError OrderEntry
  | .record fields => ofFields none none fields
  | .list [id, score] => do
    let id ← idOf id
    let score ← scoreOf score
    return ⟨id, score⟩
  | .list _ => .error .wrongLength
  | _ => .error .unexpected

/-- The entries of a list within a text. -/
def allOfWritten : List Written → Except DecodeError (List OrderEntry)
  | [] => .ok []
  | w :: ws => do
    let e ← ofWritten w
    let es ← allOfWritten ws
    return e :: es

/-- The entries in a text. -/
def ofText (raw : String) : Except DecodeError (List OrderEntry) :=
  match Written.ofText? raw with
  | some (.list items) => allOfWritten items
  | some _ => .error .unexpected
  | none => .error .malformedText

/-! ## As stored -/

/-- The entries of a stored index, which may be missing or null. -/
def ofStored : Option Json → Except DecodeError (List OrderEntry)
  | none | some .null => .ok []
  | some (.str raw) => ofText raw
  | some value => Decoder.list ofJson value

end OrderEntry

end ChatMemory
