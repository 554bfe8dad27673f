import ChatMemory.Proofs.Orderly

/-!
# What is known of records

The rules for records under which the results are stated: records as the store writes them, records
that decode, records that agree with their keys, and records that do so if they decode.

## Main statements

* `RecordRule.written`, `RecordRule.decoding`, `RecordRule.agreeing`, `RecordRule.telling` — the rules.
-/

namespace ChatMemory

namespace Message

/-- The record of the message, of one of the two forms in which the store writes it. -/
def Writes (x : Message) (r : Json) : Prop :=
  (∃ position, r = x.toRecord position) ∨ ∃ origin, r = x.toMovedRecord origin

/-- A record that tells the id and the thread of its key. -/
def Agrees (thread id : String) (r : Json) : Prop :=
  match ofRecord r with
  | .ok x => x.threadId = thread ∧ x.id = id
  | .error _ => r.field? "threadId" = some (.str thread) ∧ r.field? "id" = some (.str id)

variable {x y : Message} {r : Json}

theorem Writes.field? (h : x.Writes r) :
    r.field? "id" = some (.str x.id) ∧ r.field? "threadId" = some (.str x.threadId) := by
  rcases h with ⟨position, rfl⟩ | ⟨origin, rfl⟩
  · exact x.field?_toRecord position
  · exact x.field?_toMovedRecord origin

theorem Writes.eq (h : x.Writes r) (hy : ofRecord r = .ok y) : y = x := by
  rcases h with ⟨position, rfl⟩ | ⟨origin, rfl⟩
  · exact eq_of_ofRecord_toRecord hy
  · exact eq_of_ofRecord_toMovedRecord hy

/-- All records that are written for a message are read as the same. -/
theorem Writes.ofRecord_eq (h : x.Writes r) (position : Nat) :
    Message.ofRecord r = Message.ofRecord (x.toRecord position) := by
  rcases h with ⟨other, rfl⟩ | ⟨origin, rfl⟩
  · rw [ofRecord_toRecord, ofRecord_toRecord]
  · rw [ofRecord_toMovedRecord, ofRecord_toRecord]

theorem Writes.ofRecord (h : x.Writes r) (hd : x.createdAt.FourDigit) : ofRecord r = .ok x := by
  rcases h with ⟨position, rfl⟩ | ⟨origin, rfl⟩
  · exact ofRecord_toRecord_of_fourDigit hd position
  · exact ofRecord_toMovedRecord_of_fourDigit hd origin

theorem Writes.agrees (h : x.Writes r) : Agrees x.threadId x.id r := by
  unfold Agrees
  split
  · next y hy =>
    rw [h.eq hy]
    exact ⟨rfl, rfl⟩
  · exact h.field?.symm

theorem Agrees.unique {thread other id id' : String} (h : Agrees thread id r)
    (h' : Agrees other id' r) : thread = other := by
  unfold Agrees at h h'
  cases hr : ofRecord r with
  | ok x =>
    rw [hr] at h h'
    exact h.1.symm.trans h'.1
  | error e =>
    rw [hr] at h h'
    exact Json.str.inj (Option.some.inj (h.1.symm.trans h'.1))

end Message

namespace RecordRule

/-- Records as the store writes them. -/
def written : RecordRule where
  threads := Identifier.Valid
  dates _ := True
  admits thread id r := Identifier.Valid thread ∧ Identifier.ValidMessage id ∧
    ∃ x : Message, x.threadId = thread ∧ x.id = id ∧ x.Writes r
  plain h := h.plain
  valid h := h
  thread_of h := h.1
  message_of h := h.2.1.isMessage
  agrees := by
    rintro _ _ r y ⟨_, _, x, rfl, rfl, hx⟩ hy
    rw [hx.eq hy]
    exact ⟨rfl, rfl⟩
  dated _ _ := trivial
  record {x} ht hi _ position := ⟨ht, hi, x, rfl, rfl, Or.inl ⟨position, rfl⟩⟩
  moved {x} ht hi _ origin := ⟨ht, hi, x, rfl, rfl, Or.inr ⟨origin, rfl⟩⟩

/-- Records that decode, with dates that can be written again. -/
def decoding (threads ids : String → Prop) (plain : ∀ {thread}, threads thread → Plain thread)
    (valid : ∀ {thread}, Identifier.Valid thread → threads thread)
    (isMessage : ∀ {id}, ids id → IsMessage id)
    (validMessage : ∀ {id}, Identifier.ValidMessage id → ids id) : RecordRule where
  threads := threads
  dates := Instant.FourDigit
  admits thread id r := threads thread ∧ ids id ∧ ∃ x, Message.ofRecord r = .ok x ∧
    x.threadId = thread ∧ x.id = id ∧ x.createdAt.FourDigit
  plain := plain
  valid := valid
  thread_of h := h.1
  message_of h := isMessage h.2.1
  agrees := by
    rintro _ _ r y ⟨_, _, x, hx, rfl, rfl, _⟩ hy
    obtain rfl := Except.ok.inj (hx.symm.trans hy)
    exact ⟨rfl, rfl⟩
  dated := by
    rintro _ _ r y ⟨_, _, x, hx, _, _, hd⟩ hy
    obtain rfl := Except.ok.inj (hx.symm.trans hy)
    exact hd
  record {x} ht hi hd position := ⟨ht, validMessage hi, x,
    Message.Writes.ofRecord (Or.inl ⟨position, rfl⟩) hd, rfl, rfl, hd⟩
  moved {x} ht hi hd origin := ⟨ht, validMessage hi, x,
    Message.Writes.ofRecord (Or.inr ⟨origin, rfl⟩) hd, rfl, rfl, hd⟩

/-- Records that agree with their keys. -/
def agreeing : RecordRule where
  threads := Plain
  dates _ := True
  admits thread id r := Plain thread ∧ IsMessage id ∧ Message.Agrees thread id r
  plain h := h
  valid h := h.plain
  thread_of h := h.1
  message_of h := h.2.1
  agrees := by
    rintro thread id r x ⟨_, _, h⟩ hx
    rw [Message.Agrees, hx] at h
    exact h
  dated _ _ := trivial
  record ht hi _ position := ⟨ht, hi.isMessage, Message.Writes.agrees (Or.inl ⟨position, rfl⟩)⟩
  moved ht hi _ origin := ⟨ht, hi.isMessage, Message.Writes.agrees (Or.inr ⟨origin, rfl⟩)⟩

/-- Records under identifiers that keep the rules, which tell these identifiers if they decode. -/
def telling : RecordRule where
  threads := Identifier.Valid
  dates _ := True
  admits thread id r := Identifier.Valid thread ∧ Identifier.ValidMessage id ∧
    ∀ x, Message.ofRecord r = .ok x → x.threadId = thread ∧ x.id = id
  plain h := h.plain
  valid h := h
  thread_of h := h.1
  message_of h := h.2.1.isMessage
  agrees h hx := h.2.2 _ hx
  dated _ _ := trivial
  record ht hi _ _ := ⟨ht, hi, fun _ hy =>
    (Message.eq_of_ofRecord_toRecord hy).symm ▸ ⟨rfl, rfl⟩⟩
  moved ht hi _ _ := ⟨ht, hi, fun _ hy =>
    (Message.eq_of_ofRecord_toMovedRecord hy).symm ▸ ⟨rfl, rfl⟩⟩

end RecordRule

end ChatMemory
