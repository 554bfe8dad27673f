import ChatMemory.Proofs.Keys
import ChatMemory.Proofs.StoredOrder

/-!
# Contents

What the tables hold, told by identifiers instead of keys: for each thread its record, its messages
and its order, and for each message its pointer. Every call that the store makes reads or changes the
contents at one place, which is what the `contents_changedAt_…` lemmas say.

A key of the table of messages is read at its first colon: the thread is what stands in front of it.
So an order belongs to a thread without a colon, and a key with the reserved last field to no message.
-/

namespace ChatMemory

/-- The contents of the tables, by identifiers. -/
structure Contents where
  /-- The record of a thread. -/
  thread : String → Option Json
  /-- The record of a message in a thread. -/
  record : String → String → Option Json
  /-- The stored order of a thread. -/
  index : String → Option Json
  /-- The pointer of a message. -/
  pointer : String → Option Json

/-- The contents of tables under a key layout. -/
def Keyspace.contents (s : Keyspace) (t : Tables) : Contents where
  thread id := t.get? .threads (s.thread id)
  record thread id := if IsMessage id then t.get? .messages (s.message thread id) else none
  index thread := if Plain thread then t.get? .messages (s.order thread) else none
  pointer id := t.get? .messageThreads (s.pointer id)

namespace Contents

variable {c : Contents} {s : Keyspace} {t : Tables}

/-! ## What is there -/

/-- A thread that has a record. -/
def HasThread (c : Contents) (thread : String) : Prop := thread ≠ "" ∧ c.thread thread ≠ none

/-- A thread that has a record of a message. -/
def Holds (c : Contents) (thread id : String) : Prop := c.record thread id ≠ none

/-- A thread whose order lists a message. -/
def Lists (c : Contents) (thread id : String) : Prop := StoredOrder.Lists (c.index thread) id

/-- No message stands under a thread with a colon. -/
def Parted (c : Contents) : Prop := ∀ thread id, c.Holds thread id → Plain thread

theorem record_contents {thread id : String} (h : IsMessage id) :
    (s.contents t).record thread id = t.get? .messages (s.message thread id) := if_pos h

theorem index_contents {thread : String} (h : Plain thread) :
    (s.contents t).index thread = t.get? .messages (s.order thread) := if_pos h

theorem isMessage_of_holds {thread id : String} (h : (s.contents t).Holds thread id) :
    IsMessage id := by
  by_cases hi : IsMessage id
  · exact hi
  · exact absurd (if_neg hi) h

/--
A thread with a colon in it shares its keys with another thread. If records tell their threads, then
no such thread has messages.
-/
theorem plain_of_told (told : String → Json → Prop)
    (tell : ∀ {thread id r}, (s.contents t).record thread id = some r → told thread r)
    (single : ∀ {thread other r}, told thread r → told other r → thread = other)
    {thread id : String} (hh : (s.contents t).Holds thread id) : Plain thread := by
  by_cases plain : Plain thread
  · exact plain
  obtain ⟨first, rest, hfirst, same⟩ := Keyspace.message_of_not_plain s plain
  obtain ⟨r, hr⟩ := Option.ne_none_iff_exists'.mp hh
  have hr' : (s.contents t).record first (rest ++ ":" ++ id) = some r := by
    have joined := Keyspace.isMessage_of_not_plain (Keyspace.not_plain_joined rest id)
    rw [record_contents joined, ← same, ← record_contents (isMessage_of_holds hh)]
    exact hr
  rw [single (tell hr) (tell hr')]
  exact hfirst

/-! ## Changes in one place -/

def setThread (c : Contents) (thread : String) (v : Option Json) : Contents :=
  { c with thread := fun other => if other = thread then v else c.thread other }

def setRecord (c : Contents) (thread id : String) (v : Option Json) : Contents :=
  { c with record := fun other other' =>
      if other = thread ∧ other' = id then v else c.record other other' }

def setIndex (c : Contents) (thread : String) (v : Option Json) : Contents :=
  { c with index := fun other => if other = thread then v else c.index other }

def setPointer (c : Contents) (id : String) (v : Option Json) : Contents :=
  { c with pointer := fun other => if other = id then v else c.pointer other }

section Fields

variable (thread id : String) (v : Option Json)

@[simp]
theorem thread_setThread (other : String) :
    (c.setThread thread v).thread other = if other = thread then v else c.thread other := rfl
@[simp]
theorem record_setThread : (c.setThread thread v).record = c.record := rfl
@[simp]
theorem index_setThread : (c.setThread thread v).index = c.index := rfl
@[simp]
theorem pointer_setThread : (c.setThread thread v).pointer = c.pointer := rfl

@[simp]
theorem thread_setRecord : (c.setRecord thread id v).thread = c.thread := rfl
@[simp]
theorem record_setRecord (other other' : String) : (c.setRecord thread id v).record other other'
    = if other = thread ∧ other' = id then v else c.record other other' := rfl
@[simp]
theorem index_setRecord : (c.setRecord thread id v).index = c.index := rfl
@[simp]
theorem pointer_setRecord : (c.setRecord thread id v).pointer = c.pointer := rfl

@[simp]
theorem thread_setIndex : (c.setIndex thread v).thread = c.thread := rfl
@[simp]
theorem record_setIndex : (c.setIndex thread v).record = c.record := rfl
@[simp]
theorem index_setIndex (other : String) :
    (c.setIndex thread v).index other = if other = thread then v else c.index other := rfl
@[simp]
theorem pointer_setIndex : (c.setIndex thread v).pointer = c.pointer := rfl

@[simp]
theorem thread_setPointer : (c.setPointer id v).thread = c.thread := rfl
@[simp]
theorem record_setPointer : (c.setPointer id v).record = c.record := rfl
@[simp]
theorem index_setPointer : (c.setPointer id v).index = c.index := rfl
@[simp]
theorem pointer_setPointer (other : String) :
    (c.setPointer id v).pointer other = if other = id then v else c.pointer other := rfl

end Fields

theorem ext' {a b : Contents} (h₁ : ∀ thread, a.thread thread = b.thread thread)
    (h₂ : ∀ thread id, a.record thread id = b.record thread id)
    (h₃ : ∀ thread, a.index thread = b.index thread) (h₄ : ∀ id, a.pointer id = b.pointer id) :
    a = b := by
  obtain ⟨_, _, _, _⟩ := a
  obtain ⟨_, _, _, _⟩ := b
  rw [Contents.mk.injEq]
  exact ⟨funext h₁, funext fun thread => funext (h₂ thread), funext h₃, funext h₄⟩

theorem setIndex_self (c : Contents) (thread : String) :
    c.setIndex thread (c.index thread) = c := by
  refine ext' (fun _ => rfl) (fun _ _ => rfl) (fun other => ?_) (fun _ => rfl)
  rw [index_setIndex]
  split
  · next h => rw [h]
  · rfl

theorem setThread_self (c : Contents) (thread : String) :
    c.setThread thread (c.thread thread) = c := by
  refine ext' (fun other => ?_) (fun _ _ => rfl) (fun _ => rfl) (fun _ => rfl)
  rw [thread_setThread]
  split
  · next h => rw [h]
  · rfl

/-! ## Calls

`Tables.ChangedAt` is what a write and a deletion have in common.
-/

end Contents

@[simp]
theorem Tables.get?_empty (table : Table) (key : String) : empty.get? table key = none := by
  cases table <;> rfl

/-- Tables that differ at most in the value of one key, which is `v` in the second ones. -/
def Tables.ChangedAt (t t' : Tables) (table : Table) (key : String) (v : Option Json) : Prop :=
  ∀ other k, t'.get? other k = if other = table ∧ k = key then v else t.get? other k

theorem Tables.changedAt_put (t : Tables) (table : Table) (key : String) (v : Json) :
    t.ChangedAt (t.put table key v) table key (some v) := fun _ _ => t.get?_put ..

theorem Tables.changedAt_delete (t : Tables) (table : Table) (key : String) :
    t.ChangedAt (t.delete table key) table key none := fun _ _ => t.get?_delete ..

namespace Contents

variable {s : Keyspace} {t t' : Tables} {v : Option Json}

theorem contents_changedAt_thread {thread : String}
    (h : t.ChangedAt t' .threads (s.thread thread) v) :
    s.contents t' = (s.contents t).setThread thread v := by
  refine ext' (fun other => ?_) (fun other id => ?_) (fun other => ?_) (fun id => ?_)
  · simp [Keyspace.contents, h _ _]
  · simp [Keyspace.contents, h _ _]
  · simp [Keyspace.contents, h _ _]
  · simp [Keyspace.contents, h _ _]

theorem contents_changedAt_pointer {id : String}
    (h : t.ChangedAt t' .messageThreads (s.pointer id) v) :
    s.contents t' = (s.contents t).setPointer id v := by
  refine ext' (fun other => ?_) (fun other id => ?_) (fun other => ?_) (fun id => ?_)
  · simp [Keyspace.contents, h _ _]
  · simp [Keyspace.contents, h _ _]
  · simp [Keyspace.contents, h _ _]
  · simp [Keyspace.contents, h _ _]

theorem contents_changedAt_resource {key : String} (h : t.ChangedAt t' .resources key v) :
    s.contents t' = s.contents t := by
  refine ext' (fun other => ?_) (fun other id => ?_) (fun other => ?_) (fun id => ?_)
  · simp [Keyspace.contents, h _ _]
  · simp [Keyspace.contents, h _ _]
  · simp [Keyspace.contents, h _ _]
  · simp [Keyspace.contents, h _ _]

theorem contents_changedAt_message {thread id : String} (ht : Plain thread) (hp : Plain id)
    (hi : IsMessage id) (h : t.ChangedAt t' .messages (s.message thread id) v) :
    s.contents t' = (s.contents t).setRecord thread id v := by
  refine ext' (fun other => ?_) (fun other other' => ?_) (fun other => ?_) (fun other => ?_)
  · simp [Keyspace.contents, h _ _]
  · by_cases hm : IsMessage other'
    · simp [Keyspace.contents, h _ _, Keyspace.message_eq_plain_iff ht hp, hm]
    · have hne : other' ≠ id := fun e => hm (e ▸ hi)
      simp [Keyspace.contents, hm, hne]
  · have hne : Keyspace.orderField ≠ id := fun e => hi.2 e.symm
    simp [Keyspace.contents, h _ _, Keyspace.order_eq_message,
      Keyspace.message_eq_plain_iff ht hp, hne]
  · simp [Keyspace.contents, h _ _]

/--
The deletion of a message whose id may hold a colon, as ids that are read off listed keys may. Then
it counts that no thread with a colon has a message.
-/
theorem contents_changedAt_listed {thread id : String} (ht : Plain thread) (hi : IsMessage id)
    (parted : (s.contents t).Parted) (h : t.ChangedAt t' .messages (s.message thread id) none) :
    s.contents t' = (s.contents t).setRecord thread id none := by
  refine ext' (fun other => ?_) (fun other other' => ?_) (fun other => ?_) (fun other => ?_)
  · simp [Keyspace.contents, h _ _]
  · by_cases hm : IsMessage other'
    · by_cases ho : Plain other
      · simp [Keyspace.contents, h _ _, Keyspace.message_eq_iff ho ht, hm]
      · have hne : other ≠ thread := fun e => ho (e ▸ ht)
        have absent : (s.contents t).record other other' = none :=
          Decidable.byContradiction fun hr => ho (parted other other' hr)
        rw [record_setRecord, if_neg (fun e => hne e.1), absent]
        have missing : t.get? .messages (s.message other other') = none := by
          simpa [Keyspace.contents, hm] using absent
        simp [Keyspace.contents, h _ _, missing]
    · have hne : other' ≠ id := fun e => hm (e ▸ hi)
      simp [Keyspace.contents, hm, hne]
  · have hne : Keyspace.orderField ≠ id := fun e => hi.2 e.symm
    by_cases ho : Plain other
    · simp [Keyspace.contents, h _ _, Keyspace.order_eq_message, Keyspace.message_eq_iff ho ht, ho,
        hne]
    · simp [Keyspace.contents, ho]
  · simp [Keyspace.contents, h _ _]

theorem contents_changedAt_order {thread : String} (ht : Plain thread)
    (h : t.ChangedAt t' .messages (s.order thread) v) :
    s.contents t' = (s.contents t).setIndex thread v := by
  have same : ∀ other other', s.message other other' = s.order thread ↔
      other = thread ∧ other' = Keyspace.orderField :=
    fun _ _ => Keyspace.message_eq_plain_iff ht plain_orderField
  refine ext' (fun other => ?_) (fun other other' => ?_) (fun other => ?_) (fun other => ?_)
  · simp [Keyspace.contents, h _ _]
  · by_cases hm : IsMessage other'
    · simp [Keyspace.contents, h _ _, same, hm, hm.2]
    · simp [Keyspace.contents, hm]
  · by_cases ho : Plain other
    · simp [Keyspace.contents, h _ _, Keyspace.order_eq_message s other, same, ho]
    · have hne : other ≠ thread := fun e => ho (e ▸ ht)
      simp [Keyspace.contents, ho, hne]
  · simp [Keyspace.contents, h _ _]

end Contents

end ChatMemory
