import ChatMemory.Json.Decoder

/-!
# Message content

The content of a message: a list of parts, each a value of free form, and the text of all of them
together. Older messages have content without a format number; see `Message.Stored`.
-/

namespace ChatMemory

/-- Content of a message. -/
structure MessageContent where
  format : UInt8
  parts : List Json
  content : Option String
  metadata : Option Object

/-- A change of content. What is not given stays. -/
structure MessageContentUpdate where
  parts : Option (List Json) := none
  content : Option String := none
  metadata : Option Object := none

namespace MessageContent

/-- The current content format. -/
def currentFormat : UInt8 := 2

/-- A part that is a text. -/
def textPart (text : String) : Json := .obj [("text", .str text), ("type", .str "text")]

/-- Content made of one text. -/
def ofText (text : String) : MessageContent := ⟨currentFormat, [textPart text], some text, none⟩

/-- The text of a part, if it is a text part. -/
def partText? (part : Json) : Option String :=
  if (part.field? "type").bind Json.asText? = some "text" then
    (part.field? "text").bind Json.asText?
  else none

/-- The texts of the parts one after the other, if any part is a text. -/
def joinedText? (parts : List Json) : Option String :=
  match parts.filterMap partText? with
  | [] => none
  | texts => some (String.join texts)

/-- Content made of parts. -/
def ofParts (parts : List Json) : MessageContent := ⟨currentFormat, parts, joinedText? parts, none⟩

def withMetadata (c : MessageContent) (metadata : Object) : MessageContent :=
  { c with metadata := some metadata }

/-- Content with neither parts nor text. -/
def isEmpty (c : MessageContent) : Bool := c.parts.isEmpty && (c.content.getD "").isEmpty

/-- Replaces parts and text where given, and merges metadata key by key. -/
def merge (c : MessageContent) (u : MessageContentUpdate) : MessageContent :=
  { c with
    parts := u.parts.getD c.parts
    content := u.content.or c.content
    metadata := match u.metadata with
      | some patch => some ((c.metadata.getD []).merge patch)
      | none => c.metadata }

/-! ## As JSON -/

/-- Text and metadata are left out when there are none. -/
def toJson (c : MessageContent) : Json :=
  .obj ((c.content.map fun s => ("content", Json.str s)).toList
    ++ [("format", .ofNat c.format.toNat)]
    ++ (c.metadata.map fun m => ("metadata", Json.obj m)).toList
    ++ [("parts", .arr c.parts)])

def formatOfJson : Decoder UInt8 := fun v => (Decoder.natBelow 256 v).map UInt8.ofNat

def record : Record MessageContent :=
  Record.constructor mk
    |>.and (.required "format" formatOfJson)
    |>.and (.optional "parts" (Decoder.list Decoder.anything) [])
    |>.and (.optional "content" (Decoder.nullable Decoder.text) none)
    |>.and (.optional "metadata" (Decoder.nullable Decoder.object) none)

def ofJson : Decoder MessageContent := record.decode

end MessageContent

namespace MessageContentUpdate

def toJson (u : MessageContentUpdate) : Json :=
  .obj [("content", .ofText? u.content), ("metadata", (u.metadata.map Json.obj).getD .null),
    ("parts", (u.parts.map Json.arr).getD .null)]

def record : Record MessageContentUpdate :=
  Record.constructor mk
    |>.and (.optional "parts" (Decoder.nullable (Decoder.list Decoder.anything)) none)
    |>.and (.optional "content" (Decoder.nullable Decoder.text) none)
    |>.and (.optional "metadata" (Decoder.nullable Decoder.object) none)

def ofJson : Decoder MessageContentUpdate := record.decode

end MessageContentUpdate

end ChatMemory
