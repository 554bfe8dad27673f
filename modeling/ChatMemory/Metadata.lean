import ChatMemory.Json.Decoder
import ChatMemory.Json.Written
import ChatMemory.Text.Blank

/-!
# Metadata

Free-form objects that callers attach to threads and resources. In a record, metadata may also be
null or blank, which stands for none, or the text of an object.
-/

namespace ChatMemory.Metadata

/-- Metadata of a record. -/
def ofJson : Decoder Object
  | .null => .ok []
  | .obj fields => .ok fields
  | .str raw =>
    if Text.allBlank raw then .ok []
    else
      match Json.ofString? raw with
      | some (.obj fields) => .ok fields
      | _ => .error .metadataText
  | v => .error (.notMetadata v)

end ChatMemory.Metadata
