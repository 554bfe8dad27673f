import ChatMemory.Proofs.Batches
import ChatMemory.Proofs.Indexed
import ChatMemory.Proofs.Renewal

/-!
# Repeating a call that went well

A batch that has been saved, or a list of changes of different messages that has been applied, may
be given to the store once more, at another time. The second call does not do what the first one
did. A message of the batch is found in its thread, so it is not moved; it is listed there, so it
keeps the place that it has, which may be that of another date. A change finds its message where it
is to be, so what was a move is now a change in place. It has been made already
(`Message.apply_apply`), so the date is as asked for, and the place in the order is kept. What is
written is what is read already.

So the second call hands back the same messages, and nothing has changed but the dates of change of
threads. It may drop a note where a message came from, which no reader of messages sees.

## Main statements

* `Stored.again`, `Updated.again` — the second call, seen from one message.
* `resembles_saveMessages`, `resembles_updateMessages`, `replayed` — the second call.
-/

namespace ChatMemory

namespace View

variable {has : String → Prop} {w w' w'' : View} {tracking : Bool} {now now' : Instant}
  {v x y y' : Message} {u : MessageUpdate} {position : Nat} {thread : String}

/-! ## One message -/

/-- The records of a message are read as the same, and its scores and its pointer are the same. -/
structure Resembles (w w' : View) : Prop where
  record : ∀ thread,
    (w'.record thread).map Message.ofRecord = (w.record thread).map Message.ofRecord
  score : w'.score = w.score
  pointer : w'.pointer = w.pointer

theorem Resembles.of_eq (h : w' = w) : w.Resembles w' := h ▸ ⟨fun _ => rfl, rfl, rfl⟩

theorem saved_saved : (w.saved tracking v position).saved tracking v position
    = w.saved tracking v position := by
  refine ext' (fun thread => ?_) (fun thread => ?_) ?_
  · by_cases e : thread = v.threadId
    · simp [saved, written, recorded, e]
    · simp [saved, written, recorded, e]
  · by_cases e : thread = v.threadId
    · simp [saved, written, recorded, e]
    · simp [saved, written, recorded, e]
  · cases tracking <;> simp [saved, written, recorded, noted]

/-- A message that is saved once more is found in its thread and stays as it is. -/
theorem Stored.again (stored : w.Stored tracking v position now has w')
    (at_ : w'.At has v.threadId) (again : w'.Stored tracking v position now' has w'') :
    w'' = w' := by
  obtain ⟨w₁, -, rfl⟩ := stored
  obtain ⟨w₂, ⟨hno, rfl⟩ | ⟨_, rfl⟩ | ⟨origin, before, finds, leaves, -⟩, rfl⟩ := again
  · exact absurd ((at_.holds v.threadId).mpr rfl) (hno v.threadId)
  · exact saved_saved
  · exact absurd ((at_.holds origin).mp finds.holds) leaves.apart

/-- The version that is handed back is written in its thread. -/
theorem Updated.exists_writes (updated : w.Updated tracking now has u y w') :
    ∃ r, w'.record y.threadId = some r ∧ y.Writes r := by
  obtain ⟨current, before, _, _, ⟨_, _, rfl⟩ | ⟨destination, _, leaves, rfl, rfl⟩⟩ := updated
  · refine ⟨_, ?_, Or.inl ⟨0, rfl⟩⟩
    unfold replaced
    split <;> simp [reranked, unranked, revised]
  · refine ⟨_, ?_, Or.inr ⟨current, rfl⟩⟩
    simp [moved, relisted, erased, unlisted, copied, Message.into, Ne.symm leaves.apart]

/-- A version that is handed back stays as it is when its change is made again. -/
theorem Updated.apply_eq (updated : w.Updated tracking now has u y w') : y.apply u = y := by
  obtain ⟨current, before, _, _, ⟨_, rfl, _⟩ | ⟨destination, _, _, rfl, _⟩⟩ := updated
  · exact before.apply_apply u
  · rw [Message.apply_into, Message.apply_apply]

/-- A change that is made once more finds its message in its thread and hands back the same version.
The record that it writes is read as the one that was there. -/
theorem Updated.again (whole : w.Whole has)
    (named : ∀ thread x, w.IsRecord thread x → x.threadId = thread)
    (updated : w.Updated tracking now has u y w')
    (again : w'.Updated tracking now' has u y' w'') : y' = y ∧ w'.Resembles w'' := by
  obtain ⟨at_, goes⟩ := whole.updated named updated
  obtain ⟨r, written, writes⟩ := updated.exists_writes
  obtain ⟨current, before, finds, record, changed⟩ := again
  obtain rfl : current = y.threadId := (at_.holds current).mp finds.holds
  obtain ⟨r', hr, hd⟩ := record
  obtain rfl := Option.some.inj (hr.symm.trans written)
  obtain rfl := writes.eq hd
  rw [updated.apply_eq] at changed
  rcases changed with ⟨-, rfl, rfl⟩ | ⟨destination, hu, leaves, -⟩
  · refine ⟨rfl, fun thread => ?_, ?_, ?_⟩
    · rw [replaced, if_pos rfl, revised, record_setRecord]
      split
      · next e =>
        rw [e, written, Option.map_some, Option.map_some, writes.ofRecord_eq 0]
      · rfl
    · rw [replaced, if_pos rfl]
      rfl
    · rw [replaced, if_pos rfl]
      rfl
  · exact absurd (goes destination hu) leaves.apart

end View

namespace Contents

variable {R : RecordRule} {names : String → Prop} {tracking : Bool} {now : Instant}
  {c c' : Contents} {us : List MessageUpdate} {ys : List Message}

/--
The records of all messages are read as the same, the orders list the same messages with the same
scores, and the pointers are the same.
-/
structure Resembles (c c' : Contents) : Prop where
  record : ∀ thread id,
    (c'.record thread id).map Message.ofRecord = (c.record thread id).map Message.ofRecord
  score : ∀ thread id,
    StoredOrder.score? (c'.index thread) id = StoredOrder.score? (c.index thread) id
  readable : ∀ thread,
    StoredOrder.Readable (c.index thread) → StoredOrder.Readable (c'.index thread)
  pointer : c'.pointer = c.pointer

/-- Contents resemble each other if all views do. -/
theorem resembles_of_views (f : Follows R names c c')
    (view : ∀ id, names id → (c.view id).Resembles (c'.view id)) : c.Resembles c' := by
  have all (id : String) : (c.view id).Resembles (c'.view id) := by
    by_cases hid : names id
    · exact view id hid
    · exact .of_eq (f.within.view id hid)
  exact ⟨fun thread id => (all id).record thread, fun thread id => congrFun (all id).score thread,
    f.within.readable, funext fun id => (all id).pointer⟩

/-- What is listed is the same, entry by entry. -/
theorem Resembles.orderOf {k : Keyspace} {t t' : Tables} {thread : String}
    (h : (k.contents t).Resembles (k.contents t')) (plain : Plain thread) :
    k.orderOf t' thread = k.orderOf t thread := by
  refine Keyspace.orderOf_congr fun id => ?_
  have score := h.score thread id
  rw [index_contents plain, index_contents plain] at score
  exact score

end Contents

namespace Store

open Action Contents

variable {s : Store} {faults faults' : Faults} {now now' : Instant} {w w₁ w₂ : World}

/-! ## The second call -/

/-- A batch that is saved once more. -/
theorem resembles_saveMessages (aligned : (s.keys.contents w.tables).Aligned)
    {batch ms ms' : List Message} (run : (s.saveMessages now batch).run faults w = (.ok ms, w₁))
    (again : (s.saveMessages now' batch).run faults' w₁ = (.ok ms', w₂)) :
    ms' = ms ∧ (s.keys.contents w₁.tables).Resembles (s.keys.contents w₂.tables) := by
  obtain ⟨rfl, -, there, follows, stored⟩ :=
    (ends_saveMessages aligned.orderly fun _ _ => trivial).ok rfl run
  obtain ⟨rfl, -, -, follows', stored'⟩ :=
    (ends_saveMessages follows.orderly fun _ _ => trivial).ok rfl again
  refine ⟨rfl, resembles_of_views follows' fun id ⟨v, hv, e⟩ => .of_eq ?_⟩
  obtain ⟨position, hp⟩ := exists_position hv
  have first := stored (v, position) hp
  have second := stored' (v, position) hp
  rw [follows.within.threads] at second
  rw [e]
  exact first.again ((aligned.whole v.id).stored (there v hv).2 first) second

/-- Changes of different messages that are made once more. -/
theorem resembles_updateMessages (aligned : (s.keys.contents w.tables).Aligned)
    {us : List MessageUpdate} {ys ys' : List Message} (distinct : us.Pairwise (·.id ≠ ·.id))
    (run : (s.updateMessages now us).run faults w = (.ok ys, w₁))
    (again : (s.updateMessages now' us).run faults' w₁ = (.ok ys', w₂)) :
    ys' = ys ∧ (s.keys.contents w₁.tables).Resembles (s.keys.contents w₂.tables) := by
  let c₁ := s.keys.contents w₁.tables
  let c₂ := s.keys.contents w₂.tables
  have orderly := aligned.orderly
  have updates := (ends_updateMessages orderly fun _ _ _ _ => trivial).ok rfl run
  have updates' := (ends_updateMessages updates.follows.orderly fun _ _ _ _ => trivial).ok rfl again
  obtain ⟨length, versions⟩ := updates.versions distinct
  obtain ⟨length', versions'⟩ := updates'.versions distinct
  have each (k : Nat) (u : MessageUpdate) (hu : us[k]? = some u) :
      ys'[k]? = ys[k]? ∧ (c₁.view u.id).Resembles (c₂.view u.id) := by
    obtain ⟨y, hy, first⟩ := versions k u hu
    obtain ⟨y', hy', second⟩ := versions' k u hu
    rw [updates.follows.within.threads] at second
    obtain ⟨rfl, resembles⟩ := first.again (aligned.whole u.id) (orderly.named u.id) second
    exact ⟨hy'.trans hy.symm, resembles⟩
  refine ⟨List.ext_getElem? fun k => ?_,
    resembles_of_views updates'.follows fun id ⟨u, hu, e⟩ => ?_⟩
  · cases hu : us[k]? with
    | none =>
      have beyond := List.getElem?_eq_none_iff.mp hu
      rw [List.getElem?_eq_none (by omega), List.getElem?_eq_none (by omega)]
    | some u => exact (each k u hu).1
  · obtain ⟨k, hk⟩ := List.mem_iff_getElem?.mp hu
    exact e ▸ (each k u hk).2

/--
When a batch has been saved, or a list of changes of different messages has been applied, to aligned
contents, and the same call is made again, at any time, and goes well too, the second call hands
back the same messages. The records of all messages are read as the same, the orders of all threads
have the same entries, and the pointers are the same. The record of a thread is as it was, or its
date of change is moved on.
-/
theorem replayed (s : Store) (faults faults' : Faults) (now now' : Instant) {op : Operation}
    (retryable : op.Retryable) {w w₁ w₂ : World} {reply reply' : Reply}
    (aligned : (s.keys.contents w.tables).Aligned)
    (run : (s.perform now op).run faults w = (.ok reply, w₁))
    (again : (s.perform now' op).run faults' w₁ = (.ok reply', w₂)) :
    let c₁ := s.keys.contents w₁.tables
    let c₂ := s.keys.contents w₂.tables
    reply' = reply ∧ c₁.Resembles c₂ ∧
      (∀ thread, Plain thread → s.keys.orderOf w₂.tables thread = s.keys.orderOf w₁.tables thread) ∧
      ∀ thread, Renewed c₁ c₂ thread ∨ c₂.thread thread = c₁.thread thread := by
  intro c₁ c₂
  have same : reply' = reply ∧ c₁.Resembles c₂ ∧ ∀ thread, Contents.Renews c₁ c₂ thread False := by
    cases op with
    | saveMessages batch =>
      obtain ⟨ms, first, rfl⟩ := run_map_eq_ok run
      obtain ⟨ms', second, rfl⟩ := run_map_eq_ok again
      obtain ⟨rfl, resembles⟩ := resembles_saveMessages aligned first second
      exact ⟨rfl, resembles, fun thread =>
        (((renews_saveMessages batch).mono False.elim) c₁).ok rfl second⟩
    | updateMessages us =>
      obtain ⟨ys, first, rfl⟩ := run_map_eq_ok run
      obtain ⟨ys', second, rfl⟩ := run_map_eq_ok again
      obtain ⟨rfl, resembles⟩ := resembles_updateMessages aligned retryable first second
      exact ⟨rfl, resembles, fun thread =>
        (((renews_updateMessages us).mono False.elim) c₁).ok rfl second⟩
    | _ => exact retryable.elim
  obtain ⟨reply_eq, resembles, renews⟩ := same
  exact ⟨reply_eq, resembles, fun _ => resembles.orderOf, fun thread =>
    (renews thread).imp_right And.right⟩

end Store

/-! ## A sample -/

namespace Sample

/-- One message gets a role and metadata and moves, and the other one gets another date. -/
def changes : List MessageUpdate :=
  [(MessageUpdate.moveTo { id := "m", role := some .tool } "b").withContentMetadata
      [("checked", .bool true)],
    MessageUpdate.withCreatedAt { id := "x" } (.ofMillis 1704067200123)]

/-- A call to the store in which a message is in each of two threads. -/
def call (op : Operation) : Except MemoryError Reply × World :=
  ((store false).perform now op).run Faults.none filed

/-- The same call a second later. -/
def callAgain (op : Operation) : Except MemoryError Reply × World :=
  ((store false).perform (.ofMillis 1000) op).run Faults.none (call op).2

end Sample

namespace Store

open Action Contents

theorem changes_again : ∃ reply w₁ w₂,
    Sample.call (.updateMessages Sample.changes) = (.ok reply, w₁) ∧
    Sample.callAgain (.updateMessages Sample.changes) = (.ok reply, w₂) ∧
    ((Sample.store false).keys.contents w₁.tables).Resembles
      ((Sample.store false).keys.contents w₂.tables) := by
  have retryable : (Operation.updateMessages Sample.changes).Retryable := by
    show Sample.changes.Pairwise (·.id ≠ ·.id)
    decide
  have first : (Sample.call (.updateMessages Sample.changes)).1.isOk = true := by decide +kernel
  have second : (Sample.callAgain (.updateMessages Sample.changes)).1.isOk = true := by
    decide +kernel
  obtain ⟨reply, run⟩ := exists_ok first
  obtain ⟨reply', again⟩ := exists_ok second
  obtain ⟨rfl, resembles, -⟩ := (Sample.store false).replayed Faults.none Faults.none Sample.now
    (.ofMillis 1000) retryable Sample.exact_filed.aligned run again
  exact ⟨reply', _, _, run, again, resembles⟩

end Store

end ChatMemory
