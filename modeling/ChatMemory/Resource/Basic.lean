import ChatMemory.Instant.Json
import ChatMemory.Metadata

/-!
# Resources

An owner of threads, with a working memory that its threads share.
-/

namespace ChatMemory

/-- A resource. -/
structure Resource where
  id : String
  workingMemory : Option String
  metadata : Object
  createdAt : Instant
  updatedAt : Instant

namespace Resource

/-- A resource that begins now, without memory and metadata. -/
def create (now : Instant) (id : String) : Resource := ⟨id, none, [], now, now⟩

def withWorkingMemory (r : Resource) (memory : String) : Resource :=
  { r with workingMemory := some memory }

/-- Replaces the metadata. -/
def withMetadata (r : Resource) (metadata : Object) : Resource := { r with metadata }

/-- A change: memory is replaced if any is given, and metadata merged key by key. -/
def revise (now : Instant) (r : Resource) (memory : Option String) (patch : Option Object) :
    Resource :=
  { r with
    workingMemory := memory.or r.workingMemory
    metadata := match patch with
      | some patch => r.metadata.merge patch
      | none => r.metadata
    updatedAt := Instant.latest now r.updatedAt }

/-! ## As JSON -/

def toJson (r : Resource) : Json :=
  .obj [("createdAt", r.createdAt.toJson), ("id", .str r.id), ("metadata", .obj r.metadata),
    ("updatedAt", r.updatedAt.toJson), ("workingMemory", .ofText? r.workingMemory)]

def record : Record Resource :=
  Record.constructor mk
    |>.and (.required "id" Decoder.text)
    |>.and (.optional "workingMemory" (Decoder.nullable Decoder.text) none ["working_memory"])
    |>.and (.optional "metadata" Metadata.ofJson [])
    |>.and (.required "createdAt" Instant.ofJson ["created_at"])
    |>.and (.required "updatedAt" Instant.ofJson ["updated_at"])

def ofJson : Decoder Resource := record.decode

end Resource

end ChatMemory
