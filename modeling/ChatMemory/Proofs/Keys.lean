import ChatMemory.Identifier

/-!
# Keys and identifiers

A key spells out identifiers with colons between them. As long as an identifier holds no colon it can
be read back from the key, so different identifiers never share a key. Only the last field of a key
may hold anything, since it reaches to the end.

## Main statements

* `message_eq_iff` — a thread without a colon and any message are told by their key.
* `message_eq_plain_iff` — so are a thread and a message without colons, whatever the other key spells.
* `threadId?_eq_some_iff`, `messageId?_eq_some_iff` — a listed key names what is stored under it.
-/

namespace ChatMemory

/-- An identifier without a colon. -/
def Plain (id : String) : Prop := ':' ∉ id.toList

instance (id : String) : Decidable (Plain id) := inferInstanceAs (Decidable (':' ∉ id.toList))

/-- An id that a message may have in a key: it is given, and it is not that of the order index. -/
def IsMessage (id : String) : Prop := id ≠ "" ∧ id ≠ Keyspace.orderField

instance (id : String) : Decidable (IsMessage id) :=
  inferInstanceAs (Decidable (id ≠ "" ∧ id ≠ Keyspace.orderField))

theorem Identifier.Valid.plain {id : String} (h : Identifier.Valid id) : Plain id := h.2

theorem Identifier.Valid.ne_empty {id : String} (h : Identifier.Valid id) : id ≠ "" := by
  rintro rfl
  exact absurd h.1 (by decide)

theorem Identifier.ValidMessage.plain {id : String} (h : Identifier.ValidMessage id) : Plain id :=
  h.1.plain

theorem Identifier.ValidMessage.isMessage {id : String} (h : Identifier.ValidMessage id) :
    IsMessage id := ⟨h.1.ne_empty, h.2⟩

theorem plain_orderField : Plain Keyspace.orderField := by decide

/-- What stands in front of the first colon, and what follows it, are told by the whole text. -/
theorem split_at_colon {a b c d : List Char} (ha : ':' ∉ a) (hc : ':' ∉ c)
    (h : a ++ ':' :: b = c ++ ':' :: d) : a = c ∧ b = d := by
  induction a generalizing c with
  | nil =>
    cases c with
    | nil => exact ⟨rfl, (List.cons.inj h).2⟩
    | cons x xs => exact absurd (List.cons.inj h).1.symm fun e => hc (e ▸ List.mem_cons_self)
  | cons x xs ih =>
    cases c with
    | nil => exact absurd (List.cons.inj h).1 fun e => ha (e ▸ List.mem_cons_self)
    | cons y ys =>
      obtain ⟨hxy, hrest⟩ := List.cons.inj h
      obtain ⟨hxs, hb⟩ := ih (fun m => ha (List.mem_cons_of_mem _ m))
        (fun m => hc (List.mem_cons_of_mem _ m)) hrest
      exact ⟨by rw [hxy, hxs], hb⟩

namespace Keyspace

variable {s : Keyspace}

/-! ## Keys with one field -/

theorem key_single (s : Keyspace) (table : Table) (id : String) :
    (s.key table [id]).toList = s.ns.toList ++ table.name.toList ++ ':' :: id.toList := by
  simp [key, joined]

theorem key_single_injective {table : Table} {a b : String}
    (h : s.key table [a] = s.key table [b]) : a = b := by
  have h' : (s.key table [a]).toList = (s.key table [b]).toList := by rw [h]
  rw [key_single, key_single, List.append_cancel_left_eq, List.cons.injEq] at h'
  exact String.toList_inj.mp h'.2

@[simp]
theorem thread_inj {a b : String} : s.thread a = s.thread b ↔ a = b :=
  ⟨key_single_injective, fun h => by rw [h]⟩

@[simp]
theorem pointer_inj {a b : String} : s.pointer a = s.pointer b ↔ a = b :=
  ⟨key_single_injective, fun h => by rw [h]⟩

/-! ## Keys of messages -/

theorem toList_message (s : Keyspace) (thread id : String) :
    (s.message thread id).toList = s.ns.toList ++ Table.messages.name.toList
      ++ ':' :: (thread.toList ++ ':' :: id.toList) := by
  simp [message, key, joined]

theorem fields_eq_of_message_eq {t t' m m' : String} (h : s.message t m = s.message t' m') :
    t.toList ++ ':' :: m.toList = t'.toList ++ ':' :: m'.toList := by
  have h' : (s.message t m).toList = (s.message t' m').toList := by rw [h]
  rw [toList_message, toList_message, List.append_cancel_left_eq, List.cons.injEq] at h'
  exact h'.2

theorem message_inj_left {a b id : String} (h : s.message a id = s.message b id) : a = b :=
  String.toList_inj.mp (List.append_cancel_right (fields_eq_of_message_eq h))

theorem message_eq_iff {t t' m m' : String} (ht : Plain t) (ht' : Plain t') :
    s.message t m = s.message t' m' ↔ t = t' ∧ m = m' := by
  constructor
  · intro h
    obtain ⟨h₁, h₂⟩ := split_at_colon ht ht' (fields_eq_of_message_eq h)
    exact ⟨String.toList_inj.mp h₁, String.toList_inj.mp h₂⟩
  · rintro ⟨rfl, rfl⟩
    rfl

/-- A text with one colon is split in one way only, so the other thread has none in it either. -/
theorem plain_of_message_eq {t t' m m' : String} (ht : Plain t) (hm : Plain m)
    (h : s.message t' m' = s.message t m) : Plain t' := by
  intro hmem
  have count := congrArg (List.count ':') (fields_eq_of_message_eq h)
  have h₁ : t.toList.count ':' = 0 := List.count_eq_zero.mpr ht
  have h₂ : m.toList.count ':' = 0 := List.count_eq_zero.mpr hm
  have h₃ : 0 < t'.toList.count ':' := List.count_pos_iff.mpr hmem
  simp only [List.count_append, List.count_cons_self] at count
  omega

theorem message_eq_plain_iff {t t' m m' : String} (ht : Plain t) (hm : Plain m) :
    s.message t' m' = s.message t m ↔ t' = t ∧ m' = m := by
  constructor
  · intro h
    exact (message_eq_iff (plain_of_message_eq ht hm h) ht).mp h
  · rintro ⟨rfl, rfl⟩
    rfl

theorem order_eq_message (s : Keyspace) (thread : String) :
    s.order thread = s.message thread orderField := rfl

/-- The key of a thread with a colon in it reads as that of a thread in front of the colon. -/
theorem message_of_not_plain (s : Keyspace) {thread : String} (h : ¬ Plain thread) :
    ∃ first rest : String, Plain first ∧
      ∀ id, s.message thread id = s.message first (rest ++ ":" ++ id) := by
  have colon : ':' ∈ thread.toList := Decidable.not_not.mp h
  obtain ⟨as, bs, hsplit, has⟩ := List.eq_append_cons_of_mem colon
  refine ⟨String.ofList as, String.ofList bs, ?_, fun id => String.toList_inj.mp ?_⟩
  · rw [Plain, String.toList_ofList]
    exact has
  · simp [toList_message, hsplit]

theorem not_plain_joined (rest id : String) : ¬ Plain (rest ++ ":" ++ id) := by
  simp [Plain]

theorem isMessage_of_not_plain {id : String} (h : ¬ Plain id) : IsMessage id := by
  refine ⟨fun e => h ?_, fun e => h ?_⟩
  · rw [e]
    decide
  · rw [e]
    exact plain_orderField

/-! ## Listed keys -/

theorem threadId?_eq_some_iff {key id : String} :
    s.threadId? key = some id ↔ key = s.thread id ∧ id ≠ "" := by
  have start : ∀ rest, s.threadsStart ++ rest = s.thread rest := by
    intro rest
    simp [threadsStart, thread, Keyspace.key, joined, String.append_assoc]
  rw [threadId?, Option.filter_eq_some_iff, Text.after?_eq_some_iff, start]
  simp

theorem after?_messagesStart_eq_some_iff {thread key id : String} :
    Text.after? (s.messagesStart thread) key = some id ↔ key = s.message thread id := by
  have start : s.messagesStart thread ++ id = s.message thread id := by
    simp [messagesStart, message, Keyspace.key, joined, String.append_assoc]
  rw [Text.after?_eq_some_iff, start]

theorem messageId?_eq_some_iff {thread key id : String} :
    s.messageId? thread key = some id ↔ key = s.message thread id ∧ IsMessage id := by
  rw [messageId?, Option.filter_eq_some_iff, after?_messagesStart_eq_some_iff]
  simp [IsMessage]

theorem begins_threadsStart (s : Keyspace) (id : String) :
    Text.begins s.threadsStart (s.thread id) = true :=
  Text.begins_iff.mpr ⟨id.toList, by simp [threadsStart, thread, Keyspace.key, joined]⟩

theorem begins_messagesStart (s : Keyspace) (thread id : String) :
    Text.begins (s.messagesStart thread) (s.message thread id) = true :=
  Text.begins_iff.mpr ⟨id.toList, by simp [messagesStart, message, Keyspace.key, joined]⟩

end Keyspace

end ChatMemory
