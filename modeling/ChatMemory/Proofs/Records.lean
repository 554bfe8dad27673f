import ChatMemory.Message.Stored
import ChatMemory.Proofs.Dates
import ChatMemory.Resource.Basic
import ChatMemory.Thread.Basic

/-!
# Records read back

The record that is written for a message is read as that message, provided that its date is. The
fields for the position and for the origin make no difference, since the reader passes over them.
The same goes for threads and resources and their two dates.

## Main statements

* `ofRecord_toRecord`, `ofRecord_toMovedRecord` — what is read from a record.
* `origin?_toRecord`, `origin?_toMovedRecord` — only a move notes where a message came from.
* `Thread.ofJson_toJson`, `Resource.ofJson_toJson` — what is read from the record of a thread or a
  resource.
-/

namespace ChatMemory

/-! ## Content and role -/

namespace MessageContent

theorem formatOfJson_ofNat (f : UInt8) : formatOfJson (.ofNat f.toNat) = .ok f := by
  have h : (f.toNat : Int) < 256 := by
    have := f.toNat_lt
    omega
  simp [formatOfJson, Decoder.natBelow, Decoder.integer, Json.ofNat, h, Except.map]

theorem items_anything : ∀ parts : List Json, Decoder.items Decoder.anything parts = .ok parts
  | [] => rfl
  | p :: ps => by
    rw [Decoder.items, items_anything ps]
    rfl

theorem ofJson_toJson (c : MessageContent) : ofJson c.toJson = .ok c := by
  obtain ⟨f, parts, content, metadata⟩ := c
  cases content <;> cases metadata <;>
    simp [toJson, ofJson, record, Record.decode, Record.constructor, Record.and, Record.required,
      Record.optional, Field.file, Field.named, formatOfJson_ofNat, Decoder.list, items_anything,
      Decoder.nullable, Decoder.text, Decoder.object, Except.map, List.find?, Pairs.lookup_cons_eq, bind,
      Except.bind, pure, Except.pure]

/-- Content is written with its format number. -/
theorem isSome_format (c : MessageContent) : (c.toJson.field? "format").isSome = true := by
  obtain ⟨f, parts, content, metadata⟩ := c
  cases content <;> cases metadata <;> simp [toJson, Json.field?, Pairs.lookup_cons_eq]

end MessageContent

theorem MessageRole.ofJson_toJson (r : MessageRole) : ofJson r.toJson = .ok r := by
  cases r <;> rfl

namespace Message

/-! ## The fields of a record -/

theorem toRecord_eq (x : Message) (position : Nat) :
    x.toRecord position = .obj ((positionField, .ofNat position) :: x.fields) := by
  rfl

theorem toMovedRecord_eq (x : Message) (origin : String) : x.toMovedRecord origin
    = .obj ((positionField, .ofNat 0) :: (originField, .str origin) :: x.fields) := by
  rfl

theorem field?_id (x : Message) (extra : Object) (h : extra.lookup "id" = none) :
    (Json.obj (extra ++ x.fields)).field? "id" = some (.str x.id) := by
  simp [Json.field?, List.lookup_append, h, fields, Pairs.lookup_cons_eq]

theorem field?_threadId (x : Message) (extra : Object) (h : extra.lookup "threadId" = none) :
    (Json.obj (extra ++ x.fields)).field? "threadId" = some (.str x.threadId) := by
  simp [Json.field?, List.lookup_append, h, fields, Pairs.lookup_cons_eq]

theorem field?_toRecord (x : Message) (position : Nat) :
    (x.toRecord position).field? "id" = some (.str x.id) ∧
      (x.toRecord position).field? "threadId" = some (.str x.threadId) := by
  rw [toRecord_eq]
  exact ⟨x.field?_id [_] rfl, x.field?_threadId [_] rfl⟩

theorem field?_toMovedRecord (x : Message) (origin : String) :
    (x.toMovedRecord origin).field? "id" = some (.str x.id) ∧
      (x.toMovedRecord origin).field? "threadId" = some (.str x.threadId) := by
  rw [toMovedRecord_eq]
  exact ⟨x.field?_id [_, _] rfl, x.field?_threadId [_, _] rfl⟩

theorem origin?_toRecord (x : Message) (position : Nat) : origin? (x.toRecord position) = none := by
  simp [toRecord_eq, origin?, Json.field?, fields, Pairs.lookup_cons_eq, positionField, originField]

theorem origin?_toMovedRecord (x : Message) (origin : String) :
    origin? (x.toMovedRecord origin) = some origin := by
  simp [toMovedRecord_eq, origin?, Json.field?, Pairs.lookup_cons_eq, positionField, originField, Json.asText?]

/-! ## Reading -/

theorem ofJson_fields (x : Message) :
    ofJson (.obj x.fields) = (Instant.ofJson x.createdAt.toJson).map x.withCreatedAt := by
  obtain ⟨id, threadId, resourceId, role, content, createdAt, kind⟩ := x
  cases h : Instant.ofJson createdAt.toJson <;> cases resourceId <;>
    simp [fields, ofJson, record, Record.decode, Record.constructor, Record.and, Record.required,
      Record.optional, Field.file, Field.named, MessageContent.ofJson_toJson,
      MessageRole.ofJson_toJson, Decoder.nullable, Decoder.text, Except.map, List.find?, Pairs.lookup_cons_eq,
      bind, Except.bind, pure, Except.pure, h, Json.ofText?, withCreatedAt]

/-- A field of another name is passed over. -/
theorem ofJson_cons {key : String} (value : Json) (rest : Object)
    (h : record.fields.find? (Field.named key) = none) :
    ofJson (.obj ((key, value) :: rest)) = ofJson (.obj rest) := by
  rw [ofJson, Record.decode, Record.decode, Field.file, h]

theorem ofRecord_of_content {fields : Object} {c : MessageContent}
    (h : fields.lookup "content" = some c.toJson) :
    ofRecord (.obj fields) = ofJson (.obj fields) := by
  have current : StoredMessage.isCurrent (.obj fields) = true := by
    rw [StoredMessage.isCurrent, Json.field?, h]
    exact c.isSome_format
  rw [ofRecord, StoredMessage.ofJson, if_pos current]
  cases ofJson (.obj fields) <;> rfl

/-- The record of a message is read as the message, with the date that is read from the record. -/
theorem ofRecord_toRecord (x : Message) (position : Nat) : ofRecord (x.toRecord position)
    = (Instant.ofJson x.createdAt.toJson).map x.withCreatedAt := by
  rw [toRecord_eq, ofRecord_of_content (c := x.content) rfl, ofJson_cons, ofJson_fields]
  rfl

theorem ofRecord_toMovedRecord (x : Message) (origin : String) : ofRecord (x.toMovedRecord origin)
    = (Instant.ofJson x.createdAt.toJson).map x.withCreatedAt := by
  rw [toMovedRecord_eq, ofRecord_of_content (c := x.content) rfl, ofJson_cons, ofJson_cons,
    ofJson_fields]
  · rfl
  · rfl

/-- What is read from the date of a message is that message or nothing. -/
theorem map_withCreatedAt (x : Message) :
    (Instant.ofJson x.createdAt.toJson).map x.withCreatedAt
      = if x.createdAt.FourDigit then .ok x else .error .malformedDate := by
  rw [Instant.ofJson_toJson]
  split <;> rfl

theorem eq_of_ofRecord_toRecord {x y : Message} {position : Nat}
    (h : ofRecord (x.toRecord position) = .ok y) : y = x := by
  rw [ofRecord_toRecord, map_withCreatedAt] at h
  split at h
  · exact (Except.ok.inj h).symm
  · exact absurd h (by simp)

theorem eq_of_ofRecord_toMovedRecord {x y : Message} {origin : String}
    (h : ofRecord (x.toMovedRecord origin) = .ok y) : y = x := by
  rw [ofRecord_toMovedRecord, map_withCreatedAt] at h
  split at h
  · exact (Except.ok.inj h).symm
  · exact absurd h (by simp)

theorem ofRecord_toRecord_of_fourDigit {x : Message} (h : x.createdAt.FourDigit) (position : Nat) :
    ofRecord (x.toRecord position) = .ok x := by
  rw [ofRecord_toRecord, map_withCreatedAt, if_pos h]

theorem ofRecord_toMovedRecord_of_fourDigit {x : Message} (h : x.createdAt.FourDigit)
    (origin : String) : ofRecord (x.toMovedRecord origin) = .ok x := by
  rw [ofRecord_toMovedRecord, map_withCreatedAt, if_pos h]

end Message

/-! ## Threads and resources

The date of creation is read first, but a year that is not read is the same error for both dates.
-/

theorem Thread.ofJson_toJson (t : Thread) : ofJson t.toJson =
    if t.createdAt.FourDigit ∧ t.updatedAt.FourDigit then .ok t else .error .malformedDate := by
  obtain ⟨id, resourceId, title, metadata, createdAt, updatedAt⟩ := t
  by_cases hc : createdAt.FourDigit <;> by_cases hu : updatedAt.FourDigit <;> cases title <;>
    simp [toJson, ofJson, record, Record.decode, Record.constructor, Record.and, Record.required,
      Record.optional, Field.file, Field.named, Decoder.nullable, Decoder.text, Metadata.ofJson,
      Except.map, List.find?, Pairs.lookup_cons_eq, bind, Except.bind, pure, Except.pure, hc, hu,
      Instant.ofJson_toJson, Json.ofText?]

theorem Thread.ofJson_toJson_of_fourDigit {t : Thread} (hc : t.createdAt.FourDigit)
    (hu : t.updatedAt.FourDigit) : ofJson t.toJson = .ok t := by
  rw [ofJson_toJson, if_pos ⟨hc, hu⟩]

theorem Resource.ofJson_toJson (r : Resource) : ofJson r.toJson =
    if r.createdAt.FourDigit ∧ r.updatedAt.FourDigit then .ok r else .error .malformedDate := by
  obtain ⟨id, memory, metadata, createdAt, updatedAt⟩ := r
  by_cases hc : createdAt.FourDigit <;> by_cases hu : updatedAt.FourDigit <;> cases memory <;>
    simp [toJson, ofJson, record, Record.decode, Record.constructor, Record.and, Record.required,
      Record.optional, Field.file, Field.named, Decoder.nullable, Decoder.text, Metadata.ofJson,
      Except.map, List.find?, Pairs.lookup_cons_eq, bind, Except.bind, pure, Except.pure, hc, hu,
      Instant.ofJson_toJson, Json.ofText?]

end ChatMemory
