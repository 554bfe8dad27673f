import ChatMemory.Proofs.Records

/-!
# What is written is read again

Writing goes through the fields of a message, reading through the form of its content and through the
names of the fields. The two meet on every message: its record is read as that message if the year of
its date has four digits, and is not read at all otherwise. The fields that are only there for the
store, the position in the batch and the origin of a move, make no difference.

Records of older forms are read as messages too. A message that was read from such a record and is
written again has a record of the current form, and nothing else can be read from that.

## Main statements

* `Message.ofRecord_annotated` — what is read from the record of a message.
* `reads_back_iff_fourDigit` — the same for all that is stored.
-/

namespace ChatMemory

namespace Message

/-- The record of a message with or without its position in the batch and the thread it came from. -/
def annotated (m : Message) (position : Option Nat) (origin : Option String) : Json :=
  let positioned := match position with
    | some i => Pairs.insert positionField (.ofNat i) m.fields
    | none => m.fields
  .obj (match origin with
    | some thread => Pairs.insert originField (.str thread) positioned
    | none => positioned)

variable {m : Message}

theorem annotated_position (m : Message) (position : Nat) :
    m.annotated (some position) none = m.toRecord position := rfl

theorem annotated_origin (m : Message) (origin : String) :
    m.annotated (some 0) (some origin) = m.toMovedRecord origin := rfl

/-- The fields of the store stand in front of those of the message. -/
theorem exists_annotated_eq (m : Message) (position : Option Nat) (origin : Option String) :
    ∃ extra : Object, m.annotated position origin = .obj (extra ++ m.fields) ∧
      ∀ e ∈ extra, e.1 = positionField ∨ e.1 = originField := by
  cases position with
  | none =>
    cases origin with
    | none => exact ⟨[], rfl, by simp⟩
    | some thread => exact ⟨[(originField, .str thread)], rfl, by simp⟩
  | some i =>
    cases origin with
    | none => exact ⟨[(positionField, .ofNat i)], rfl, by simp⟩
    | some thread =>
      exact ⟨[(positionField, .ofNat i), (originField, .str thread)], rfl, by simp⟩

/-- Such fields are passed over. -/
theorem ofJson_append_fields (m : Message) : ∀ extra : Object,
    (∀ e ∈ extra, e.1 = positionField ∨ e.1 = originField) →
      ofJson (.obj (extra ++ m.fields)) = ofJson (.obj m.fields)
  | [], _ => rfl
  | (key, value) :: rest, h => by
    obtain ⟨hkey, hrest⟩ := List.forall_mem_cons.mp h
    have unnamed : record.fields.find? (Field.named key) = none := by
      rcases hkey with rfl | rfl <;> rfl
    rw [List.cons_append, ofJson_cons value _ unnamed, ofJson_append_fields m rest hrest]

theorem lookup_content_append (m : Message) : ∀ extra : Object,
    (∀ e ∈ extra, e.1 = positionField ∨ e.1 = originField) →
      (extra ++ m.fields).lookup "content" = some m.content.toJson
  | [], _ => rfl
  | (key, value) :: rest, h => by
    obtain ⟨hkey, hrest⟩ := List.forall_mem_cons.mp h
    have other : "content" ≠ key := by
      rcases hkey with rfl | rfl <;> decide
    rw [List.cons_append, Pairs.lookup_cons_eq, if_neg other, lookup_content_append m rest hrest]

/-- A message is read from its record if its date is, and otherwise nothing is. -/
theorem ofRecord_annotated (m : Message) (position : Option Nat) (origin : Option String) :
    ofRecord (m.annotated position origin)
      = if m.createdAt.FourDigit then .ok m else .error .malformedDate := by
  obtain ⟨extra, e, names⟩ := m.exists_annotated_eq position origin
  rw [e, ofRecord_of_content (m.lookup_content_append extra names), m.ofJson_append_fields extra names,
    ofJson_fields, map_withCreatedAt]

end Message

/-- All that is stored is read again as what it was if its dates have years of four digits, and is an
error otherwise. So a message that was read, from a record of whatever form, and is written again is
the only one that can be read then, and it is read if its year has four digits. -/
theorem reads_back_iff_fourDigit :
    (∀ (m : Message) (position : Option Nat) (origin : Option String),
      Message.ofRecord (m.annotated position origin)
        = if m.createdAt.FourDigit then .ok m else .error .malformedDate) ∧
    (∀ t : Thread, Thread.ofJson t.toJson
        = if t.createdAt.FourDigit ∧ t.updatedAt.FourDigit then .ok t else .error .malformedDate) ∧
    (∀ r : Resource, Resource.ofJson r.toJson
        = if r.createdAt.FourDigit ∧ r.updatedAt.FourDigit then .ok r else .error .malformedDate) ∧
    ∀ (record : Json) (m : Message), Message.ofRecord record = .ok m →
      ∀ (position : Option Nat) (origin : Option String),
        (∀ m', Message.ofRecord (m.annotated position origin) = .ok m' →
          Message.ofRecord record = .ok m') ∧
        (m.createdAt.FourDigit →
          Message.ofRecord (m.annotated position origin) = Message.ofRecord record) := by
  refine ⟨Message.ofRecord_annotated, Thread.ofJson_toJson, Resource.ofJson_toJson,
    fun record m read position origin => ⟨fun m' h => ?_, fun h => ?_⟩⟩
  · rw [Message.ofRecord_annotated] at h
    split at h
    · rw [read, h]
    · exact absurd h (by simp)
  · rw [Message.ofRecord_annotated, if_pos h, read]

/-- A message of the older form, with a bare text, other names and a date in milliseconds, is written
again without a change. -/
theorem plain_record_read_back :
    let record : Json := .obj [("content", .str "hi"), ("created_at", .num (.int 1704067200123)),
      ("id", .str "m"), ("role", .str "assistant"), ("thread_id", .str "t"), ("type", .str "text")]
    let m : Message := ⟨"m", "t", none, .assistant, .ofText "hi", .ofMillis 1704067200123, "v2"⟩
    Message.ofRecord record = .ok m ∧ m.createdAt.FourDigit ∧
      Message.ofRecord (m.toRecord 0) = Message.ofRecord record := by
  intro record m
  have read : Message.ofRecord record = .ok m := by rfl
  have year : m.createdAt.FourDigit := by decide +kernel
  exact ⟨read, year, (reads_back_iff_fourDigit.2.2.2 record m read (some 0) none).2 year⟩

-- The last millisecond of the year 9999 can be read again, the next one cannot.
example : (Instant.ofMillis 253402300799999).FourDigit ∧
    ¬ (Instant.ofMillis 253402300800000).FourDigit := by decide +kernel

end ChatMemory
