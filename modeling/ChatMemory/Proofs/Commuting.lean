import ChatMemory.Proofs.Batches
import ChatMemory.Proofs.Errors
import ChatMemory.Proofs.Settling
import Mathlib.Data.List.Perm.Basic

/-!
# Saves commute

A batch whose messages are in no other thread moves nothing. It leaves the record of each message, an
entry in the order of its thread and, with tracking, a pointer: its messages are *filed*, one after the
other. Two messages with different ids may be filed in either order. Their records and pointers have
different keys, and an order is stored as if all entries had been added at once, sorted by scores and
ids that do not depend on the time of the call. So batches without a common id may be saved in any
order.

## Main statements

* `Rows.modify_comm` — changes under two keys.
* `filed_comm` — one step: two messages with different ids.
* `filed_of_saveMessages` — what saving a batch leaves.
* `filed_of_performAll` — what a run of batches leaves.
* `saves_commute` — batches without a common id, in any order.
-/

namespace ChatMemory

/-! ## Rows -/

namespace Rows

variable {rows : Rows} {key other : String} {f g : Option Json → Option Json}

/-- Changes the value of a key. -/
def modify (rows : Rows) (key : String) (f : Option Json → Option Json) : Rows :=
  match f (rows.get? key) with
  | some v => rows.put key v
  | none => rows.delete key

theorem get?_modify (rows : Rows) (key other : String) (f : Option Json → Option Json) :
    (rows.modify key f).get? other = if other = key then f (rows.get? key) else rows.get? other := by
  unfold modify
  split
  · next h => rw [get?_put, h]
  · next h => rw [get?_delete, h]

theorem get?_modify_ne (h : other ≠ key) : (rows.modify key f).get? other = rows.get? other := by
  rw [get?_modify, if_neg h]

theorem modify_modify (rows : Rows) (key : String) (f g : Option Json → Option Json) :
    (rows.modify key f).modify key g = rows.modify key fun v => g (f v) := by
  refine ext fun k => ?_
  simp only [get?_modify]
  split <;> simp

/-- The values of two keys may be changed in either order. -/
theorem modify_comm (rows : Rows) (h : key ≠ other) :
    (rows.modify key f).modify other g = (rows.modify other g).modify key f := by
  refine ext fun k => ?_
  simp only [get?_modify, if_neg h, if_neg h.symm]
  by_cases hk : k = key
  · rw [if_neg (hk ▸ h), if_pos hk, if_pos hk]
  · rw [if_neg hk, if_neg hk]

end Rows

/-! ## Filing -/

/-- A message whose id and thread may stand in keys. -/
def Message.Keyed (v : Message) : Prop := Identifier.ValidMessage v.id ∧ Identifier.Valid v.threadId

/-- The entry of a message of a batch in the order of its thread. -/
def entryOf (e : Message × Nat) : OrderEntry := ⟨e.1.id, scoreFor e.1.createdAt e.2⟩

namespace Keyspace

variable {k : Keyspace} {rows : Rows} {e e' : Message × Nat} {thread id : String}

/-- The rows with the record of a message of a batch. -/
def recorded (k : Keyspace) (rows : Rows) (e : Message × Nat) : Rows :=
  rows.modify (k.message e.1.threadId e.1.id) fun _ => some (e.1.toRecord e.2)

/-- The rows with entries added to the order of a thread. -/
def ordered (k : Keyspace) (rows : Rows) (thread : String) (entries : List OrderEntry) : Rows :=
  rows.modify (k.order thread) (StoredOrder.added · entries)

/-- The rows with a message of a batch filed: it has its record and is listed by its thread. -/
def filed (k : Keyspace) (rows : Rows) (e : Message × Nat) : Rows :=
  k.ordered (k.recorded rows e) e.1.threadId [entryOf e]

theorem message_eq_of_keyed {v : Message} (hv : v.Keyed)
    (h : k.message thread id = k.message v.threadId v.id) : id = v.id :=
  ((message_eq_plain_iff hv.2.plain hv.1.plain).mp h).2

theorem message_ne_order {v : Message} (hv : v.Keyed) (thread : String) :
    k.message v.threadId v.id ≠ k.order thread :=
  fun h => hv.1.isMessage.2 (message_eq_of_keyed hv h.symm).symm

theorem recorded_ordered (he : e.1.Keyed) (rows : Rows) (thread : String)
    (entries : List OrderEntry) :
    k.recorded (k.ordered rows thread entries) e = k.ordered (k.recorded rows e) thread entries :=
  Rows.modify_comm rows (message_ne_order he thread).symm

theorem recorded_comm (he : e.1.Keyed) (apart : e.1.id ≠ e'.1.id) (rows : Rows) :
    k.recorded (k.recorded rows e) e' = k.recorded (k.recorded rows e') e :=
  Rows.modify_comm rows fun h => apart (message_eq_of_keyed he h.symm).symm

theorem ordered_ordered (rows : Rows) (thread : String) (entries entries' : List OrderEntry) :
    k.ordered (k.ordered rows thread entries) thread entries'
      = k.ordered rows thread (entries ++ entries') := by
  simp only [ordered, Rows.modify_modify, StoredOrder.added_added]

/-- The entries of two messages may be added in either order, in one thread or in two. -/
theorem ordered_comm (apart : e.1.id ≠ e'.1.id) (rows : Rows) :
    k.ordered (k.ordered rows e.1.threadId [entryOf e]) e'.1.threadId [entryOf e']
      = k.ordered (k.ordered rows e'.1.threadId [entryOf e']) e.1.threadId [entryOf e] := by
  by_cases same : e.1.threadId = e'.1.threadId
  · simp only [ordered, same, Rows.modify_modify]
    exact congrArg _ (funext fun stored => StoredOrder.added_comm stored apart)
  · exact Rows.modify_comm rows fun h => same (message_inj_left h)

/-- Two messages with different ids may be filed in either order. -/
theorem filed_comm (he : e.1.Keyed) (he' : e'.1.Keyed) (apart : e.1.id ≠ e'.1.id) (rows : Rows) :
    k.filed (k.filed rows e) e' = k.filed (k.filed rows e') e := by
  unfold filed
  rw [recorded_ordered he', recorded_comm he apart, ordered_comm apart, recorded_ordered he]

theorem foldl_recorded_ordered (thread : String) (entries : List OrderEntry) :
    ∀ {es : List (Message × Nat)} (rows : Rows), (∀ e ∈ es, e.1.Keyed) →
      es.foldl k.recorded (k.ordered rows thread entries)
        = k.ordered (es.foldl k.recorded rows) thread entries
  | [], _, _ => rfl
  | e :: es, rows, keyed => by
    rw [List.foldl_cons, List.foldl_cons, recorded_ordered (keyed e List.mem_cons_self)]
    exact foldl_recorded_ordered thread entries _ fun e he => keyed e (List.mem_cons_of_mem _ he)

/-- Records that are written before all entries are added: the messages of one thread are filed. -/
theorem ordered_foldl_recorded {thread : String} :
    ∀ {es : List (Message × Nat)} (rows : Rows), (∀ e ∈ es, e.1.Keyed ∧ e.1.threadId = thread) →
      k.ordered (es.foldl k.recorded rows) thread (es.map entryOf) = es.foldl k.filed rows
  | [], rows, _ => by
    refine Rows.ext fun key => ?_
    rw [List.map_nil, ordered, Rows.get?_modify, StoredOrder.added_nil]
    split
    · next h => rw [h]; rfl
    · rfl
  | e :: es, rows, h => by
    obtain ⟨⟨_, rfl⟩, rest⟩ := List.forall_mem_cons.mp h
    calc k.ordered (es.foldl k.recorded (k.recorded rows e)) e.1.threadId (entryOf e :: es.map entryOf)
      _ = k.ordered (k.ordered (es.foldl k.recorded (k.recorded rows e)) e.1.threadId [entryOf e])
            e.1.threadId (es.map entryOf) := (ordered_ordered _ _ [entryOf e] _).symm
      _ = k.ordered (es.foldl k.recorded (k.filed rows e)) e.1.threadId (es.map entryOf) := by
        rw [filed, foldl_recorded_ordered _ _ _ fun e he => (rest e he).1]
      _ = es.foldl k.filed (k.filed rows e) := ordered_foldl_recorded _ rest

/-- What is under the key of another message stays. -/
theorem get?_filed (he : e.1.Keyed) (plain : Plain thread) (hi : IsMessage id) (apart : id ≠ e.1.id) :
    (k.filed rows e).get? (k.message thread id) = rows.get? (k.message thread id) := by
  have order : k.message thread id ≠ k.order e.1.threadId := fun h =>
    hi.2 ((message_eq_iff plain he.2.plain).mp h).2
  rw [filed, ordered, Rows.get?_modify_ne order, recorded,
    Rows.get?_modify_ne fun h => apart (message_eq_of_keyed he h)]

theorem get?_foldl_filed (plain : Plain thread) (hi : IsMessage id) :
    ∀ {es : List (Message × Nat)} (rows : Rows), (∀ e ∈ es, e.1.Keyed ∧ id ≠ e.1.id) →
      (es.foldl k.filed rows).get? (k.message thread id) = rows.get? (k.message thread id)
  | [], _, _ => rfl
  | _ :: _, _, others => by
    obtain ⟨⟨keyed, apart⟩, rest⟩ := List.forall_mem_cons.mp others
    exact (get?_foldl_filed plain hi _ rest).trans (get?_filed keyed plain hi apart)

end Keyspace

namespace Store

open Action

variable {s : Store} {t t' t'' : Tables} {es es' : List (Message × Nat)} {now : Instant}

/-- The rows of the pointers with the thread of a message of a batch noted, if tracking is on. -/
def noted (s : Store) (rows : Rows) (e : Message × Nat) : Rows :=
  if s.config.trackMessageThreads then
    rows.modify (s.keys.pointer e.1.id) fun _ => some (.str e.1.threadId)
  else rows

theorem noted_comm {e e' : Message × Nat} (apart : e.1.id ≠ e'.1.id) (rows : Rows) :
    s.noted (s.noted rows e) e' = s.noted (s.noted rows e') e := by
  unfold noted
  split
  · exact Rows.modify_comm rows fun h => apart (Keyspace.pointer_inj.mp h)
  · rfl

/-- Steps that may be swapped for messages with different ids may be taken in any order. -/
theorem foldl_eq_of_perm {f : Rows → Message × Nat → Rows} (distinct : es.Pairwise (·.1.id ≠ ·.1.id))
    (same : es.Perm es') (comm : ∀ e ∈ es, ∀ e' ∈ es, e.1.id ≠ e'.1.id →
      ∀ rows, f (f rows e) e' = f (f rows e') e) (rows : Rows) : es.foldl f rows = es'.foldl f rows := by
  refine same.foldl_eq' (fun e he e' he' rows => ?_) rows
  by_cases one : e.1.id = e'.1.id
  · obtain rfl : e = e' := eq_of_key_eq distinct he he' one
    rfl
  · exact comm e he e' he' one rows

/-- Some messages, with their positions in their batches, have been filed in turn. -/
structure Filed (s : Store) (t t' : Tables) (es : List (Message × Nat)) : Prop where
  messages : t'.messages = es.foldl s.keys.filed t.messages
  pointers : t'.messageThreads = es.foldl s.noted t.messageThreads

namespace Filed

theorem nil (messages : t'.messages = t.messages) (pointers : t'.messageThreads = t.messageThreads) :
    s.Filed t t' [] := ⟨messages, pointers⟩

theorem append (h : s.Filed t t' es) (h' : s.Filed t' t'' es') : s.Filed t t'' (es ++ es') where
  messages := by rw [h'.messages, h.messages, List.foldl_append]
  pointers := by rw [h'.pointers, h.pointers, List.foldl_append]

/-- The order in which messages with different ids are filed makes no difference. -/
theorem perm (h : s.Filed t t' es) (keyed : ∀ e ∈ es, e.1.Keyed)
    (distinct : es.Pairwise (·.1.id ≠ ·.1.id)) (same : es.Perm es') : s.Filed t t' es' where
  messages := by
    rw [h.messages]
    exact foldl_eq_of_perm distinct same (fun e he e' he' apart =>
      Keyspace.filed_comm (keyed e he) (keyed e' he') apart) _
  pointers := by
    rw [h.pointers]
    exact foldl_eq_of_perm distinct same (fun _ _ _ _ apart => noted_comm apart) _

theorem stored (h : s.Filed t t' es) {thread id : String} (plain : Plain thread) (hi : IsMessage id)
    (others : ∀ e ∈ es, e.1.Keyed ∧ id ≠ e.1.id) :
    s.keys.stored t' thread id = s.keys.stored t thread id := by
  show t'.messages.get? _ = t.messages.get? _
  rw [h.messages, Keyspace.get?_foldl_filed plain hi _ others]

/-- Actions that file some messages each file all of them. -/
theorem forAll {α : Type} {f : α → Action Unit} {g : α → List (Message × Nat)} :
    ∀ {l : List α} {t t' : Tables} {u : Unit},
      (∀ a ∈ l, ∀ {t t' : Tables} {u : Unit}, (f a).Yields t u t' → s.Filed t t' (g a)) →
      (Action.forAll f l).Yields t u t' → s.Filed t t' (l.flatMap g)
  | [], _, _, _, _, h => by
    obtain ⟨_, rfl⟩ := Action.yields_done.mp h
    exact nil rfl rfl
  | a :: rest, _, _, _, files, h => by
    obtain ⟨_, t₁, first, later⟩ := Action.yields_bind.mp h
    exact (files a List.mem_cons_self first).append
      (forAll (fun a ha => files a (List.mem_cons_of_mem _ ha)) later)

end Filed

/-! ## A batch -/

theorem yields_writeOfBatch {e : Message × Nat} {u : Unit} (h : (s.writeOfBatch e).Yields t u t') :
    t'.messages = s.keys.recorded t.messages e ∧ t'.messageThreads = s.noted t.messageThreads e := by
  obtain ⟨_, t₁, written, noted⟩ := yields_bind.mp h
  obtain ⟨_, rfl⟩ := yields_ask.mp written
  rw [yields_notePointer noted, Store.noted]
  split
  · exact ⟨rfl, rfl⟩
  · exact ⟨rfl, rfl⟩

theorem yields_writeAll {u : Unit} : ∀ {es : List (Message × Nat)} {t t' : Tables},
    (Action.forAll s.writeOfBatch es).Yields t u t' →
      t'.messages = es.foldl s.keys.recorded t.messages ∧
        t'.messageThreads = es.foldl s.noted t.messageThreads
  | [], _, _, h => by
    obtain ⟨_, rfl⟩ := yields_done.mp h
    exact ⟨rfl, rfl⟩
  | e :: es, _, _, h => by
    obtain ⟨_, t₁, first, later⟩ := yields_bind.mp h
    obtain ⟨messages, pointers⟩ := yields_writeOfBatch first
    obtain ⟨messages', pointers'⟩ := yields_writeAll later
    rw [messages', pointers', messages, pointers]
    exact ⟨rfl, rfl⟩

theorem yields_addEntries {thread : String} {entries : List OrderEntry} {u : Unit}
    (h : (OrderIndex.add s.keys thread entries).Yields t u t') :
    t'.messages = s.keys.ordered t.messages thread entries ∧ t'.messageThreads = t.messageThreads := by
  have changed := OrderIndex.yields_add h
  refine ⟨Rows.ext fun key => ?_, Rows.ext fun key => ?_⟩
  · rw [Keyspace.ordered, Rows.get?_modify]
    exact (changed .messages key).trans (by simp only [true_and]; rfl)
  · exact (changed .messageThreads key).trans (if_neg fun h => absurd h.1 (by decide))

theorem yields_touchThread {thread : String} {u : Unit} (h : (s.touchThread now thread).Yields t u t') :
    t'.messages = t.messages ∧ t'.messageThreads = t.messageThreads := by
  let kept (t : Tables) : Rows × Rows := (t.messages, t.messageThreads)
  have only : (s.touchThread now thread).Only fun r => ∀ t, kept (r.effect t) = kept t := by
    refine only_bind (only_exclusively (only_bind ?_ fun found => ?_)) fun _ => trivial
    · exact Only.mono (fun _ reads t => congrArg kept (reads t)) (s.reads_fetchThread thread)
    · cases found with
      | none => trivial
      | some x => exact only_bind (only_ask fun _ => rfl) fun _ => trivial
  have same := Only.outcome kept (fun _ keeps => keeps) only t
  rw [show (s.touchThread now thread).outcome t = (.ok u, t') from h] at same
  exact Prod.mk.inj same

/-- The part of a batch for a thread is filed. -/
theorem filed_of_saveInto {messages : List Message} (keyed : ∀ v ∈ messages, v.Keyed) {thread : String}
    {u : Unit} (h : (s.saveInto now messages thread).Yields t u t') :
    s.Filed t t' (batchOf messages thread) := by
  rw [saveInto_inOrder] at h
  obtain ⟨_, t₁, written, rest⟩ := yields_bind.mp h
  obtain ⟨_, t₂, listed, touched⟩ := yields_bind.mp rest
  obtain ⟨messages₁, pointers₁⟩ := yields_writeAll written
  obtain ⟨messages₂, pointers₂⟩ := yields_addEntries listed
  obtain ⟨messages₃, pointers₃⟩ := yields_touchThread touched
  refine ⟨?_, by rw [pointers₃, pointers₂, pointers₁]⟩
  rw [messages₃, messages₂, messages₁]
  exact Keyspace.ordered_foldl_recorded _ fun e he =>
    ⟨keyed e.1 (List.fst_mem_of_mem_zipIdx (mem_batchOf.mp he).1), (mem_batchOf.mp he).2⟩

/-- The parts of a batch are the whole batch. -/
theorem flatMap_batchOf_perm {messages : List Message} (distinct : messages.Pairwise (·.id ≠ ·.id)) :
    ((batchThreads messages).flatMap (batchOf messages)).Perm messages.zipIdx := by
  have once : ∀ {es : List (Message × Nat)}, es.Pairwise (·.1.id ≠ ·.1.id) → es.Nodup := fun h =>
    h.imp fun apart same => apart (congrArg (fun e : Message × Nat => e.1.id) same)
  have distinct := once (pairwise_zipIdx distinct)
  have parts : ((batchThreads messages).flatMap (batchOf messages)).Nodup := by
    refine List.pairwise_flatMap.mpr ⟨fun thread _ => distinct.filter _, ?_⟩
    refine (pairwise_batchThreads messages).imp fun apart e he e' he' same => apart ?_
    rw [← (mem_batchOf.mp he).2, same, (mem_batchOf.mp he').2]
  refine (List.perm_ext_iff_of_nodup parts distinct).mpr fun e => ?_
  rw [List.mem_flatMap]
  constructor
  · rintro ⟨_, _, he⟩
    exact (mem_batchOf.mp he).1
  · intro he
    refine ⟨e.1.threadId, mem_batchThreads.mpr ⟨e.1, List.fst_mem_of_mem_zipIdx he, rfl⟩, ?_⟩
    exact mem_batchOf.mpr ⟨he, rfl⟩

end Store

/-- The message is in no thread but the one that it names. Threads with a colon do not count, since
nothing is moved out of them. -/
def Contents.AtHome (c : Contents) (v : Message) : Prop :=
  ∀ thread, Plain thread → c.Holds thread v.id → thread = v.threadId

namespace Store

open Action

variable {s : Store} {t t' : Tables} {now : Instant} {batch : List Message}

/-- A message that is in no other thread is not moved. -/
theorem rests_of_fetchHome {v : Message} (hi : IsMessage v.id) (home : (s.keys.contents t).AtHome v)
    {u : Unit} (h : (s.fetchHome now v).Yields t u t') : t' = t := by
  obtain ⟨found, t₁, searched, rest⟩ := yields_bind.mp h
  obtain rfl := (s.reads_findMessage v.id).yields searched
  obtain ⟨_, _, finds⟩ := (ends_search hi).yields searched
  cases found with
  | none => exact (yields_pure.mp rest).2
  | some current =>
    rcases yields_ite.mp rest with ⟨_, rest⟩ | ⟨elsewhere, rest⟩
    · exact (yields_pure.mp rest).2
    · -- A move checks its arguments, so the thread that was found may stand in keys.
      obtain ⟨_, _, moved, _⟩ := yields_bind.mp rest
      obtain ⟨_, _, checked, _⟩ := yields_bind.mp moved
      have valid := (yields_check.mp checked).1
      simp only [List.append_eq_nil_iff, Identifier.violations_eq_nil] at valid
      exact absurd (home current valid.1.2.plain ((finds current).mp rfl).holds) elsewhere

theorem rests_of_fetchAll {u : Unit} : ∀ {l : List Message} {t t' : Tables},
    (∀ v ∈ l, IsMessage v.id ∧ (s.keys.contents t).AtHome v) →
    (Action.forAll (s.fetchHome now) l).Yields t u t' → t' = t
  | [], _, _, _, h => (yields_done.mp h).2
  | v :: l, _, _, home, h => by
    obtain ⟨_, t₁, first, later⟩ := yields_bind.mp h
    obtain ⟨⟨hi, hv⟩, home⟩ := List.forall_mem_cons.mp home
    obtain rfl := rests_of_fetchHome hi hv first
    exact rests_of_fetchAll home later

/-- A batch whose messages are in no other thread is filed, message by message. -/
theorem filed_of_saveMessages (home : ∀ v ∈ batch, (s.keys.contents t).AtHome v) {out : List Message}
    (h : (s.saveMessages now batch).Yields t out t') :
    batchViolations [] 0 batch = [] ∧ s.Filed t t' batch.zipIdx := by
  obtain ⟨_, _, checked, accepted⟩ := yields_bind.mp h
  obtain ⟨sound, rfl⟩ := yields_check.mp checked
  obtain ⟨valid, distinct⟩ := batchViolations_eq_nil.mp sound
  have keyed : ∀ v ∈ batch, v.Keyed := fun v hv => ⟨(valid v hv).1, (valid v hv).2.1⟩
  refine ⟨sound, ?_⟩
  rcases yields_ite.mp accepted with ⟨empty, nothing⟩ | ⟨_, saving⟩
  · obtain ⟨_, rfl⟩ := yields_pure.mp nothing
    rw [List.isEmpty_iff.mp empty]
    exact .nil rfl rfl
  obtain ⟨_, t₁, required, homing⟩ := yields_bind.mp saving
  obtain rfl := Reads.yields (only_forAll s.reads_requireThread _) required
  obtain ⟨_, t₂, fetched, parting⟩ := yields_bind.mp homing
  obtain rfl := rests_of_fetchAll (fun v hv => ⟨(keyed v hv).1.isMessage, home v hv⟩) fetched
  obtain ⟨_, t₃, saved, done⟩ := yields_bind.mp parting
  obtain ⟨_, rfl⟩ := yields_pure.mp done
  have filed := Filed.forAll (g := batchOf batch)
    (fun _ _ _ _ _ part => filed_of_saveInto keyed part) saved
  have parts := flatMap_batchOf_perm distinct
  have whole : ∀ e ∈ (batchThreads batch).flatMap (batchOf batch), e.1.Keyed := fun e he =>
    keyed e.1 (List.fst_mem_of_mem_zipIdx (parts.mem_iff.mp he))
  exact filed.perm whole (parts.symm.pairwise (pairwise_zipIdx distinct) fun h => h.symm) parts

/-! ## Runs of batches -/

/-- Calls that save batches. -/
def savings (calls : List (Instant × List Message)) : List (Instant × Operation) :=
  calls.map fun call => (call.1, .saveMessages call.2)

/-- The messages of some batches, each with its position in its batch. -/
def placements (batches : List (List Message)) : List (Message × Nat) := batches.flatMap List.zipIdx

/-- Batches without a common id. -/
def Apart (a b : List Message) : Prop := ∀ v ∈ a, ∀ v' ∈ b, v.id ≠ v'.id

/-- A call that goes well, whatever was to fail, saves its batch as it does without failures. -/
theorem yields_of_saved {faults : Faults} {w : World}
    (ok : ((s.perform now (.saveMessages batch)).run faults w).1.isOk = true) : ∃ out,
      (s.saveMessages now batch).Yields w.tables out
        ((s.perform now (.saveMessages batch)).run faults w).2.tables := by
  obtain ⟨reply, run⟩ := exists_ok ok
  have reports : (s.perform now (.saveMessages batch)).Reports s.keys fun _ => True :=
    s.reports_changes now rfl .inOrder
  have yields := yields_of_run reports.strict run
  have perform : s.perform now (.saveMessages batch)
      = s.saveMessages now batch >>= fun ms => pure (.messages ms) := (bind_pure_comp ..).symm
  rw [perform] at yields
  obtain ⟨out, _, saved, done⟩ := yields_bind.mp yields
  obtain ⟨_, same⟩ := yields_pure.mp done
  exact ⟨out, same ▸ saved⟩

theorem Filed.atHome {es : List (Message × Nat)} {v : Message} (h : s.Filed t t' es)
    (others : ∀ e ∈ es, e.1.Keyed ∧ v.id ≠ e.1.id) (home : (s.keys.contents t).AtHome v) :
    (s.keys.contents t').AtHome v := by
  intro thread plain held
  have hi := Contents.isMessage_of_holds held
  refine home thread plain fun absent => held ?_
  rw [Keyspace.record_contents hi] at absent ⊢
  rw [h.stored plain hi others, absent]

theorem keyed_of_mem_zipIdx (sound : batchViolations [] 0 batch = []) {e : Message × Nat}
    (he : e ∈ batch.zipIdx) : e.1.Keyed := by
  obtain ⟨hi, ht, _⟩ := (batchViolations_eq_nil.mp sound).1 e.1 (List.fst_mem_of_mem_zipIdx he)
  exact ⟨hi, ht⟩

/-- Batches without a common id are filed one after the other. -/
theorem filed_of_performAll {faults : Faults} : ∀ {calls : List (Instant × List Message)} {w : World},
    (calls.map (·.2)).Pairwise Apart →
    (∀ batch ∈ calls.map (·.2), ∀ v ∈ batch, (s.keys.contents w.tables).AtHome v) →
    (∀ reply ∈ (s.performAll faults (savings calls) w).1, reply.isOk = true) →
    (∀ batch ∈ calls.map (·.2), batchViolations [] 0 batch = []) ∧
      s.Filed w.tables (s.performAll faults (savings calls) w).2.tables
        (placements (calls.map (·.2)))
  | [], _, _, _, _ => ⟨fun _ h => absurd h List.not_mem_nil, .nil rfl rfl⟩
  | (now, batch) :: rest, w, apart, home, ok => by
    have cons : savings ((now, batch) :: rest) = (now, .saveMessages batch) :: savings rest := rfl
    rw [cons, performAll_cons] at ok ⊢
    obtain ⟨first, later⟩ := List.forall_mem_cons.mp ok
    obtain ⟨others, apart⟩ := List.pairwise_cons.mp apart
    obtain ⟨here, home⟩ := List.forall_mem_cons.mp home
    obtain ⟨out, saved⟩ := yields_of_saved first
    obtain ⟨sound, filed⟩ := filed_of_saveMessages here saved
    -- The other batches are still at home, since this one has none of their ids.
    have home' : ∀ batch' ∈ rest.map (·.2), ∀ v ∈ batch', (s.keys.contents
        ((s.perform now (.saveMessages batch)).run faults w).2.tables).AtHome v := fun batch' hb v hv =>
      filed.atHome (fun e he => ⟨keyed_of_mem_zipIdx sound he,
        (others batch' hb e.1 (List.fst_mem_of_mem_zipIdx he) v hv).symm⟩) (home batch' hb v hv)
    obtain ⟨sounds, filed'⟩ := filed_of_performAll apart home' later
    exact ⟨List.forall_mem_cons.mpr ⟨sound, sounds⟩, filed.append filed'⟩

/--
Batches without a common id may be saved in any order, as long as none of their messages is in another
thread than the one that it names: if all calls go well both times, the table of messages and the table
of pointers are the same in the end, with every record and every stored order. The times of the calls
make no difference, and neither does what calls of the storage were to fail. Nothing else is asked of
what is stored before.
-/
theorem saves_commute (s : Store) (faults faults' : Faults) {w : World}
    {calls calls' : List (Instant × List Message)} (same : (calls.map (·.2)).Perm (calls'.map (·.2)))
    (apart : (calls.map (·.2)).Pairwise Apart)
    (home : ∀ batch ∈ calls.map (·.2), ∀ v ∈ batch, (s.keys.contents w.tables).AtHome v)
    (ok : ∀ reply ∈ (s.performAll faults (savings calls) w).1, reply.isOk = true)
    (ok' : ∀ reply ∈ (s.performAll faults' (savings calls') w).1, reply.isOk = true) :
    (s.performAll faults (savings calls) w).2.tables.messages
      = (s.performAll faults' (savings calls') w).2.tables.messages ∧
    (s.performAll faults (savings calls) w).2.tables.messageThreads
      = (s.performAll faults' (savings calls') w).2.tables.messageThreads := by
  have apart' : (calls'.map (·.2)).Pairwise Apart :=
    same.pairwise apart fun h v hv v' hv' => (h v' hv' v hv).symm
  obtain ⟨sound, filed⟩ := filed_of_performAll apart home ok
  obtain ⟨_, filed'⟩ := filed_of_performAll apart' (fun batch hb => home batch (same.mem_iff.mpr hb)) ok'
  have keyed : ∀ e ∈ placements (calls.map (·.2)), e.1.Keyed := by
    intro e he
    obtain ⟨batch, hb, he⟩ := List.mem_flatMap.mp he
    exact keyed_of_mem_zipIdx (sound batch hb) he
  have distinct : (placements (calls.map (·.2))).Pairwise (·.1.id ≠ ·.1.id) := by
    refine List.pairwise_flatMap.mpr ⟨fun batch hb => ?_, apart.imp fun h e he e' he' => ?_⟩
    · exact pairwise_zipIdx (batchViolations_eq_nil.mp (sound batch hb)).2
    · exact h e.1 (List.fst_mem_of_mem_zipIdx he) e'.1 (List.fst_mem_of_mem_zipIdx he')
  have reordered := filed.perm keyed distinct (same.flatMap_right List.zipIdx)
  exact ⟨reordered.messages.trans filed'.messages.symm, reordered.pointers.trans filed'.pointers.symm⟩

end Store

/-! ## A sample -/

namespace Sample

/-- A message is saved again together with a new one in the other thread, then two new ones. -/
def sorting : List (Instant × List Message) :=
  [(now, [.user now "m" "a" "r" "other", .user now "n" "b" "r" "text"]),
    (.ofMillis 1000, [.user now "p" "b" "r" "text", .user now "k" "a" "r" "text"])]

/-- The replies to some batches, and what they leave. -/
def saving (calls : List (Instant × List Message)) : List (Except MemoryError Reply) × World :=
  (store true).performAll Faults.none (Store.savings calls) filed

end Sample

namespace Store

theorem sorting_commutes :
    (∀ batch ∈ Sample.sorting.map (·.2), ∀ v ∈ batch,
      ((Sample.store true).keys.contents Sample.filed.tables).AtHome v) ∧
    (∀ reply ∈ (Sample.saving Sample.sorting).1, reply.isOk = true) ∧
    (∀ reply ∈ (Sample.saving Sample.sorting.reverse).1, reply.isOk = true) ∧
    (Sample.saving Sample.sorting).2.tables.messages
      = (Sample.saving Sample.sorting.reverse).2.tables.messages ∧
    (Sample.saving Sample.sorting).2.tables.messageThreads
      = (Sample.saving Sample.sorting.reverse).2.tables.messageThreads := by
  have home : ∀ batch ∈ Sample.sorting.map (·.2), ∀ v ∈ batch,
      ((Sample.store true).keys.contents Sample.filed.tables).AtHome v := by
    have places : ∀ batch ∈ Sample.sorting.map (·.2), ∀ v ∈ batch, ∀ thread ∈ ["a", "b"],
        (Sample.store true).keys.stored Sample.filed.tables thread v.id ≠ none →
          thread = v.threadId := by decide +kernel
    intro batch hb v hv thread _ held
    refine places batch hb v hv thread ?_ (Contents.Consistent.holds_contents.mp held).2
    obtain ⟨r, hr⟩ := Option.ne_none_iff_exists'.mp held
    rcases Sample.eq_of_hasThread (by decide +kernel) (Sample.exact_filed.placed hr).1 with rfl | rfl
    · exact List.mem_cons_self
    · exact List.mem_cons_of_mem _ List.mem_cons_self
  have ok : ∀ reply ∈ (Sample.saving Sample.sorting).1, reply.isOk = true :=
    List.all_eq_true.mp (by decide +kernel)
  have ok' : ∀ reply ∈ (Sample.saving Sample.sorting.reverse).1, reply.isOk = true :=
    List.all_eq_true.mp (by decide +kernel)
  have same : (Sample.sorting.map (·.2)).Perm (Sample.sorting.reverse.map (·.2)) :=
    (List.reverse_perm Sample.sorting).symm.map _
  have apart : (Sample.sorting.map (·.2)).Pairwise Apart := by
    unfold Apart
    decide
  refine ⟨home, ok, ok', ?_⟩
  unfold Sample.saving at ok ok' ⊢
  exact saves_commute (Sample.store true) Faults.none Faults.none same apart home ok ok'

end Store

end ChatMemory
