import ChatMemory.Instant.Json
import ChatMemory.Message.Content

/-!
# Messages

A message of a thread, and changes to it. A change names the message by its id. It replaces the
fields that it gives; if it gives a thread, the message moves there, which is not done by `apply` but
by the store.
-/

namespace ChatMemory

/-- Who speaks. -/
inductive MessageRole where
  | user
  | assistant
  | system
  | tool
deriving DecidableEq, Repr

namespace MessageRole

def name : MessageRole → String
  | .user => "user"
  | .assistant => "assistant"
  | .system => "system"
  | .tool => "tool"

def all : List MessageRole := [.user, .assistant, .system, .tool]

def toJson (r : MessageRole) : Json := .str r.name

def ofJson : Decoder MessageRole := Decoder.choice (all.map fun r => (r.name, r))

end MessageRole

/-- A message. -/
structure Message where
  id : String
  threadId : String
  resourceId : Option String
  role : MessageRole
  content : MessageContent
  createdAt : Instant
  /-- The kind of the message, `Message.standardKind` for most. -/
  kind : String

/-- A change to a message. -/
structure MessageUpdate where
  id : String
  threadId : Option String := none
  resourceId : Option String := none
  role : Option MessageRole := none
  content : Option MessageContentUpdate := none
  kind : Option String := none
  createdAt : Option Instant := none

namespace Message

/-- The kind of a message that is given none. -/
def standardKind : String := "v2"

/-- A message created now. -/
def create (now : Instant) (id threadId resourceId : String) (role : MessageRole)
    (content : MessageContent) : Message :=
  ⟨id, threadId, some resourceId, role, content, now, standardKind⟩

/-- A text of the user. -/
def user (now : Instant) (id threadId resourceId text : String) : Message :=
  create now id threadId resourceId .user (.ofText text)

/-- A text of the assistant. -/
def assistant (now : Instant) (id threadId resourceId text : String) : Message :=
  create now id threadId resourceId .assistant (.ofText text)

def withCreatedAt (m : Message) (date : Instant) : Message := { m with createdAt := date }

/-- Applies a change, except that the message stays in its thread. -/
def apply (m : Message) (u : MessageUpdate) : Message :=
  { m with
    resourceId := u.resourceId.or m.resourceId
    role := u.role.getD m.role
    content := match u.content with
      | some change => m.content.merge change
      | none => m.content
    kind := u.kind.getD m.kind
    createdAt := u.createdAt.getD m.createdAt }

/-- The place of a message by its date. -/
def dateOrder (m : Message) : Int := m.createdAt.order

/-! ## As JSON -/

/-- The fields of a message, in order. -/
def fields (m : Message) : Object :=
  [("content", m.content.toJson), ("createdAt", m.createdAt.toJson), ("id", .str m.id),
    ("resourceId", .ofText? m.resourceId), ("role", m.role.toJson), ("threadId", .str m.threadId),
    ("type", .str m.kind)]

def toJson (m : Message) : Json := .obj m.fields

def record : Record Message :=
  Record.constructor mk
    |>.and (.required "id" Decoder.text)
    |>.and (.required "threadId" Decoder.text)
    |>.and (.optional "resourceId" (Decoder.nullable Decoder.text) none)
    |>.and (.required "role" MessageRole.ofJson)
    |>.and (.required "content" MessageContent.ofJson)
    |>.and (.required "createdAt" Instant.ofJson)
    |>.and (.optional "type" Decoder.text standardKind)

def ofJson : Decoder Message := record.decode

end Message

namespace MessageUpdate

/-- Asks for a move. -/
def moveTo (u : MessageUpdate) (threadId : String) : MessageUpdate :=
  { u with threadId := some threadId }

/-- The change of content so far. -/
def contentChange (u : MessageUpdate) : MessageContentUpdate := u.content.getD {}

/-- Makes one text the whole content. -/
def withText (u : MessageUpdate) (text : String) : MessageUpdate :=
  { u with content := some { u.contentChange with
      parts := some [MessageContent.textPart text], content := some text } }

/-- Merges metadata into that of the content. -/
def withContentMetadata (u : MessageUpdate) (metadata : Object) : MessageUpdate :=
  { u with content := some { u.contentChange with metadata := some metadata } }

def withRole (u : MessageUpdate) (role : MessageRole) : MessageUpdate :=
  { u with role := some role }

/-- Sets the date. The place of the message in its thread follows. -/
def withCreatedAt (u : MessageUpdate) (date : Instant) : MessageUpdate :=
  { u with createdAt := some date }

def toJson (u : MessageUpdate) : Json :=
  .obj [("content", (u.content.map (·.toJson)).getD .null),
    ("createdAt", (u.createdAt.map (·.toJson)).getD .null), ("id", .str u.id),
    ("resourceId", .ofText? u.resourceId), ("role", (u.role.map (·.toJson)).getD .null),
    ("threadId", .ofText? u.threadId), ("type", .ofText? u.kind)]

def record : Record MessageUpdate :=
  Record.constructor mk
    |>.and (.required "id" Decoder.text)
    |>.and (.optional "threadId" (Decoder.nullable Decoder.text) none)
    |>.and (.optional "resourceId" (Decoder.nullable Decoder.text) none)
    |>.and (.optional "role" (Decoder.nullable MessageRole.ofJson) none)
    |>.and (.optional "content" (Decoder.nullable MessageContentUpdate.ofJson) none)
    |>.and (.optional "type" (Decoder.nullable Decoder.text) none)
    |>.and (.optional "createdAt" (Decoder.nullable Instant.ofArgument) none)

def ofJson : Decoder MessageUpdate := record.decode

end MessageUpdate

end ChatMemory
