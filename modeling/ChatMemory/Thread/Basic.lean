import ChatMemory.Instant.Json
import ChatMemory.Metadata

/-!
# Threads

A conversation that belongs to a resource.
-/

namespace ChatMemory

/-- A thread. -/
structure Thread where
  id : String
  resourceId : String
  title : Option String
  metadata : Object
  createdAt : Instant
  updatedAt : Instant

namespace Thread

/-- A thread that begins now, without title and metadata. -/
def create (now : Instant) (id resourceId : String) : Thread :=
  ⟨id, resourceId, none, [], now, now⟩

def withTitle (t : Thread) (title : String) : Thread := { t with title := some title }

/-- Replaces the metadata. -/
def withMetadata (t : Thread) (metadata : Object) : Thread := { t with metadata }

/-- Sets both dates. -/
def withCreatedAt (t : Thread) (date : Instant) : Thread :=
  { t with createdAt := date, updatedAt := date }

/-- A change of title and metadata: the title is replaced, the metadata merged key by key. -/
def revise (t : Thread) (title : String) (patch : Object) : Thread :=
  { t with title := some title, metadata := t.metadata.merge patch }

/-- Moves the date of the last change on, also if the clock stands still or goes back. -/
def touch (now : Instant) (t : Thread) : Thread :=
  { t with updatedAt := Instant.advance now t.updatedAt }

/-! ## As JSON -/

def toJson (t : Thread) : Json :=
  .obj [("createdAt", t.createdAt.toJson), ("id", .str t.id), ("metadata", .obj t.metadata),
    ("resourceId", .str t.resourceId), ("title", .ofText? t.title),
    ("updatedAt", t.updatedAt.toJson)]

def record : Record Thread :=
  Record.constructor mk
    |>.and (.required "id" Decoder.text)
    |>.and (.required "resourceId" Decoder.text ["resource_id"])
    |>.and (.optional "title" (Decoder.nullable Decoder.text) none)
    |>.and (.optional "metadata" Metadata.ofJson [])
    |>.and (.required "createdAt" Instant.ofJson ["created_at"])
    |>.and (.required "updatedAt" Instant.ofJson ["updated_at"])

def ofJson : Decoder Thread := record.decode

end Thread

end ChatMemory
