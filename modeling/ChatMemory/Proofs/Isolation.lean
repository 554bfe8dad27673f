import ChatMemory.Proofs.Bytes
import ChatMemory.Proofs.Outcomes

/-!
# Threads by themselves

The messages of all threads share a table, and a thread is listed by a common beginning of its keys.
The namespace in front may be any text, with colons and names of tables in it: it is the same for
all keys of a store, so it does not matter. What matters is that the beginning of a thread ends with
a colon and its id holds none, which keeps a thread apart from those whose ids only go on from its
own.

Keys are compared byte by byte, as the adapter does.

## Main statements

* `Tables.isListing_keysFrom`, `Tables.IsListing.unique` — a listing holds the keys with a
  beginning, each once, in the order of their bytes, and that determines it.
* `Keyspace.isolates` — what the keys of checked ids tell apart.
* `Store.keys_isolate` — both, and the ids that are listed for a thread. -/

namespace ChatMemory

open Identifier (Valid ValidMessage)
open Text (bytes)

/-! ## Listings -/

/-- The stored keys that begin with a text, byte by byte and in the order of their bytes. -/
structure Tables.IsListing (t : Tables) (table : Table) (start : String) (keys : List String) :
    Prop where
  mem : ∀ key, key ∈ keys ↔ (t.get? table key).isSome ∧ bytes start <+: bytes key
  /-- The order is strict, so no key comes twice. -/
  sorted : keys.Pairwise fun a b => bytes a < bytes b

theorem Tables.isListing_keysFrom (t : Tables) (table : Table) (start : String) :
    t.IsListing table start (t.keysFrom table start) where
  mem _ := by rw [← Text.begins_iff_bytes]; exact Rows.mem_keysFrom
  sorted := ((t.rows table).pairwise_keysFrom start).imp Text.lt_iff_bytes_lt.mp

theorem Tables.IsListing.unique {t : Tables} {table : Table} {start : String} {a b : List String}
    (ha : t.IsListing table start a) (hb : t.IsListing table start b) : a = b := by
  have nodup {keys : List String} (h : t.IsListing table start keys) : keys.Nodup :=
    h.sorted.imp fun {a b} (lt : bytes a < bytes b) (e : a = b) =>
      List.lt_irrefl (bytes a) (by rw [← e] at lt; exact lt)
  refine List.Perm.eq_of_pairwise (fun _ _ _ _ h₁ h₂ => absurd h₂ (List.lt_asymm h₁))
    ha.sorted hb.sorted ((List.perm_ext_iff_of_nodup (nodup ha) (nodup hb)).mpr fun key => ?_)
  rw [ha.mem, hb.mem]

/-! ## Keys -/

namespace Keyspace

variable {k : Keyspace} {t t' m m' : String}

theorem messageId?_message (ht : Plain t) (ht' : Plain t') (hm : IsMessage m) :
    k.messageId? t (k.message t' m) = if t = t' then some m else none := by
  split
  · next h =>
    subst h
    exact messageId?_eq_some_iff.mpr ⟨rfl, hm⟩
  · next h =>
    refine Option.eq_none_iff_forall_ne_some.mpr fun id e => h ?_
    exact ((message_eq_iff ht' ht).mp (messageId?_eq_some_iff.mp e).1).1.symm

theorem messageId?_order (ht : Plain t) (ht' : Plain t') : k.messageId? t (k.order t') = none := by
  refine Option.eq_none_iff_forall_ne_some.mpr fun id e => ?_
  obtain ⟨key, given⟩ := messageId?_eq_some_iff.mp e
  exact given.2 ((message_eq_iff ht' ht).mp key).2.symm

theorem threadId?_thread (h : t ≠ "") : k.threadId? (k.thread t) = some t :=
  threadId?_eq_some_iff.mpr ⟨rfl, h⟩

/-- What the keys of two threads and of messages in them tell apart. -/
structure Isolates (k : Keyspace) (t t' m m' : String) : Prop where
  message_inj : k.message t m = k.message t' m' → t = t' ∧ m = m'
  order_ne_message : k.order t ≠ k.message t' m'
  messageId_message : k.messageId? t (k.message t' m') = if t = t' then some m' else none
  messageId_order : k.messageId? t (k.order t') = none
  threadId_thread : k.threadId? (k.thread t) = some t

theorem isolates (k : Keyspace) (ht : Valid t) (ht' : Valid t') (hm' : ValidMessage m') :
    k.Isolates t t' m m' where
  message_inj h := (message_eq_iff ht.plain ht'.plain).mp h
  order_ne_message h := hm'.2 ((message_eq_iff ht.plain ht'.plain).mp h).2.symm
  messageId_message := messageId?_message ht.plain ht'.plain hm'.isMessage
  messageId_order := messageId?_order ht.plain ht'.plain
  threadId_thread := threadId?_thread ht.ne_empty

/-- The beginning of a thread is that of no key of another thread. -/
theorem begins_messagesStart_iff (ht : Plain t) (ht' : Plain t') :
    Text.begins (k.messagesStart t) (k.message t' m) = true ↔ t = t' := by
  constructor
  · intro h
    obtain ⟨rest, e⟩ := Text.begins_iff.mp h
    have key : k.message t' m = k.message t (String.ofList rest) := by
      refine after?_messagesStart_eq_some_iff.mp (Text.after?_eq_some_iff.mpr ?_)
      rw [← String.toList_inj, e, String.toList_append, String.toList_ofList]
    exact ((message_eq_iff ht' ht).mp key).1.symm
  · rintro rfl
    exact k.begins_messagesStart t m

/-! ## The ids of a thread -/

/-- The ids of the messages of a thread, and of no other thread. -/
structure ListsMessages (k : Keyspace) (tables : Tables) (thread : String) (ids : List String) :
    Prop where
  mem : ∀ id, id ∈ ids ↔ IsMessage id ∧ (tables.get? .messages (k.message thread id)).isSome
  sorted : ids.Pairwise fun a b => bytes a < bytes b
  /-- Another thread has no key where this one is listed, and none under which an id of this one is
  listed, also where its id goes on from that of this one. -/
  apart : ∀ other m, Valid other → other ≠ thread →
    k.message other m ∉ tables.keysFrom .messages (k.messagesStart thread) ∧
      ∀ id ∈ ids, k.message thread id ≠ k.message other m

end Keyspace

namespace Store

theorem listsMessages_messageIds (s : Store) (w : World) {thread : String} (h : Valid thread) :
    ∃ ids, ((s.messageIds thread).run Faults.none w).1 = .ok ids ∧
      ((s.messageIds thread).run Faults.none w).2.tables = w.tables ∧
      s.keys.ListsMessages w.tables thread ids := by
  obtain ⟨ids, yields⟩ := s.exists_messageIds w.tables thread
  obtain ⟨_, sorted, mem⟩ := yields_messageIds yields
  refine ⟨ids, yields.run.1, yields.run.2, fun id => ?_, sorted.imp Text.lt_iff_bytes_lt.mp, ?_⟩
  · rw [mem, Option.isSome_iff_ne_none]
    rfl
  · intro other m ho ne
    constructor
    · intro listed
      have begins := (Rows.mem_keysFrom.mp listed).2
      exact ne ((Keyspace.begins_messagesStart_iff h.plain ho.plain).mp begins).symm
    · exact fun _ _ key => ne ((Keyspace.message_eq_iff h.plain ho.plain).mp key).1.symm

/-- Keys of checked ids tell threads and messages apart, whatever the namespace is; a listing by a
beginning misses nothing; and so a thread is listed without the messages of any other. -/
theorem keys_isolate (s : Store) :
    (∀ t t' m m', Valid t → Valid t' → ValidMessage m → ValidMessage m' →
      s.keys.Isolates t t' m m') ∧
    (∀ (tables : Tables) table start,
      tables.IsListing table start ((Request.list table start).answer tables)) ∧
    ∀ (w : World) thread, Valid thread →
      ∃ ids, ((s.messageIds thread).run Faults.none w).1 = .ok ids ∧
        ((s.messageIds thread).run Faults.none w).2.tables = w.tables ∧
        s.keys.ListsMessages w.tables thread ids :=
  ⟨fun _ _ _ _ ht ht' _ hm' => s.keys.isolates ht ht' hm', Tables.isListing_keysFrom,
    fun w _ h => s.listsMessages_messageIds w h⟩

end Store

/-! ## Samples -/

namespace Sample

/-- A store whose namespace looks like the beginning of a key. -/
def nested : Store := ⟨⟨"messages:t:"⟩, { trackMessageThreads := false }⟩

/-- Two threads, of which the id of one goes on from that of the other. -/
def extended : World :=
  let key := nested.keys.message
  let rows := Rows.empty.put (key "t" "m") .null |>.put (key "t1" "n") .null
    |>.put (nested.keys.order "t") .null
  { World.initial with tables := { Tables.empty with messages := rows } }

end Sample

theorem Store.keys_isolate_nested :
    (Valid "t" ∧ Valid "t1" ∧ ValidMessage "m" ∧ ValidMessage "n") ∧
    Sample.nested.keys.Isolates "t" "t1" "m" "n" ∧
    ∃ ids, ((Sample.nested.messageIds "t").run Faults.none Sample.extended).1 = .ok ids ∧
      Sample.nested.keys.ListsMessages Sample.extended.tables "t" ids := by
  obtain ⟨keys, _, ids⟩ := keys_isolate Sample.nested
  obtain ⟨listed, ok, _, lists⟩ := ids Sample.extended "t" (by decide)
  exact ⟨by decide, keys _ _ _ _ (by decide) (by decide) (by decide) (by decide), listed, ok, lists⟩

example : ((Sample.nested.messageIds "t").run Faults.none Sample.extended).1.toOption
    = some ["m"] := by decide +kernel

end ChatMemory
