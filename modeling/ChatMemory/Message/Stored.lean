import ChatMemory.Message.Basic

/-!
# Stored messages

The record of a message holds its fields and two more: its position in the batch it was saved with,
and, after a move, the thread it came from. Both are passed over when the message is read.

Older records have other content: a bare text or a bare list of parts. Which form a record has is
told by the format number of its content (`StoredMessage.ofJson`). A record of the older form may also
spell some of its fields in another way. Every record stands for one message
(`StoredMessage.message`).
-/

namespace ChatMemory

/-! ## Writing -/

namespace Message

/-- The field for the position in the batch. -/
def positionField : String := "_index"

/-- The field for the thread that a message came from. -/
def originField : String := "_migratedFrom"

/-- The record of a message at a position in its batch. -/
def toRecord (m : Message) (position : Nat) : Json :=
  .obj (Pairs.insert positionField (.ofNat position) m.fields)

/-- The record of a message that came from another thread. -/
def toMovedRecord (m : Message) (origin : String) : Json :=
  .obj (Pairs.insert originField (.str origin)
    (Pairs.insert positionField (.ofNat 0) m.fields))

/-- The thread that a record says its message came from. -/
def origin? (record : Json) : Option String := (record.field? originField).bind Json.asText?

end Message

/-! ## Reading -/

/-- Content of an older message. -/
inductive PlainContent where
  | text (text : String)
  | parts (parts : List Json)

def PlainContent.ofJson : Decoder PlainContent
  | .str s => .ok (.text s)
  | .arr items => .ok (.parts items)
  | _ => .error .unexpected

/-- The content in the current form. -/
def PlainContent.content : PlainContent → MessageContent
  | .text s => .ofText s
  | .parts items => .ofParts items

/-- An older message. -/
structure PlainMessage where
  id : String
  threadId : String
  resourceId : Option String
  role : MessageRole
  content : PlainContent
  createdAt : Instant
  kind : Option String

namespace PlainMessage

def record : Record PlainMessage :=
  Record.constructor mk
    |>.and (.required "id" Decoder.text)
    |>.and (.required "threadId" Decoder.text ["thread_id"])
    |>.and (.optional "resourceId" (Decoder.nullable Decoder.text) none ["resource_id"])
    |>.and (.required "role" MessageRole.ofJson)
    |>.and (.required "content" PlainContent.ofJson)
    |>.and (.required "createdAt" Instant.ofJson ["created_at"])
    |>.and (.optional "type" (Decoder.nullable Decoder.text) none)

def ofJson : Decoder PlainMessage := record.decode

/-- The kind of the message that an older message stands for. -/
def messageKind (m : PlainMessage) : String :=
  match m.kind with
  | none => Message.standardKind
  | some kind => if kind = "text" then Message.standardKind else kind

/-- The message that an older message stands for. -/
def message (m : PlainMessage) : Message :=
  ⟨m.id, m.threadId, m.resourceId, m.role, m.content.content, m.createdAt, m.messageKind⟩

end PlainMessage

/-- The forms of a stored message. -/
inductive StoredMessage where
  | current (message : Message)
  | plain (message : PlainMessage)

namespace StoredMessage

/-- Whether a record has content with a format number. -/
def isCurrent (record : Json) : Bool :=
  ((record.field? "content").bind (·.field? "format")).isSome

def ofJson : Decoder StoredMessage := fun record =>
  if isCurrent record then (Message.ofJson record).map .current
  else (PlainMessage.ofJson record).map .plain

def message : StoredMessage → Message
  | .current m => m
  | .plain m => m.message

end StoredMessage

/-- The message of a record, whatever its form. -/
def Message.ofRecord : Decoder Message := fun record =>
  (StoredMessage.ofJson record).map StoredMessage.message

end ChatMemory
