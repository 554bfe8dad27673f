import ChatMemory.Proofs.Answers

/-!
# Bulk lookup

A search for many messages asks each pointer once and lists each thread once. A search for a single
message asks one thread after the other. Both have the same answer for each message, in any tables: with
pointers that are stale or no texts, records under threads that do not exist, and messages in several
threads. Which thread it is is said by `View.Finds`.

So what the messages of some ids are depends on the set of the ids alone, and since each comes with an
id of its own, so does their order.

## Main statements

* `Located.Among` — nothing is found but what is searched for.
* `yields_search`, `yields_located` — the two searches.
* `sort_listed_congr` — the messages that are found depend on the set of ids.
* `bulk_lookup` — both searches agree, and what follows for the messages of some ids.
-/

namespace ChatMemory

open Action

/-- The message stands before another by date, then by id. -/
def Message.Precedes (x y : Message) : Prop :=
  x.createdAt < y.createdAt ∨ x.createdAt = y.createdAt ∧ x.id < y.id

namespace Store

/-! ## Nothing else is found -/

namespace Located

variable {ids : List String} {l : Located} {message thread : String}

/-- The messages that are found, and those that are missing, are among those searched for. -/
structure Among (ids : List String) (l : Located) : Prop where
  found : ∀ id, l.found.lookup id ≠ none → id ∈ ids
  missing : ∀ id ∈ l.missing, id ∈ ids

theorem Among.settle (h : l.Among ids) (hm : message ∈ ids) : (l.settle message thread).Among ids where
  found id hid := by
    rw [lookup_settle] at hid
    split at hid
    · next e => exact e ▸ hm
    · exact h.found id hid
  missing := h.missing

theorem Among.miss (h : l.Among ids) (hm : message ∈ ids) : (l.miss message).Among ids where
  found id hid := h.found id (lookup_miss ▸ hid)
  missing id hid := by
    rcases mem_missing_miss.mp hid with hid | rfl
    · exact h.missing id hid
    · exact hm

theorem Among.settleListed : ∀ {l : Located}, l.Among ids → ∀ messages : List String,
    (l.settleListed thread messages).Among ids
  | _, h, [] => h
  | l, h, message :: rest => by
    unfold Located.settleListed
    split
    · next hm =>
      have kept : ({ l with missing := l.missing.erase message } : Located).Among ids :=
        ⟨h.found, fun id hid => h.missing id (List.mem_of_mem_erase hid)⟩
      exact (kept.settle (h.missing message (by simpa using hm))).settleListed rest
    · exact h.settleListed rest

theorem Among.settleAll : ∀ {l : Located}, l.Among ids → ∀ listings : List (String × List String),
    (l.settleAll listings).Among ids
  | _, h, [] => h
  | _, h, (_, messages) :: rest => (h.settleListed messages).settleAll rest

end Located

variable {s : Store} {t : Tables} {ids ids' : List String} {id thread : String}

theorem among_locateByPointer : ∀ {messages : List String} {l : Located}, l.Among ids →
    (∀ id ∈ messages, id ∈ ids) → (s.locateByPointer l messages).Gives t (Located.Among ids)
  | [], _, h, _ => gives_pure h
  | message :: rest, l, h, among => by
    obtain ⟨hm, hrest⟩ := List.forall_mem_cons.mp among
    unfold locateByPointer
    split
    · exact among_locateByPointer h hrest
    · refine gives_bind (s.reads_verifiedPointer message) fun named _ => ?_
      cases named with
      | some thread => exact among_locateByPointer (h.settle hm) hrest
      | none => exact among_locateByPointer (h.miss hm) hrest

theorem among_locateMany : (s.locateMany ids).Gives t fun found =>
    ∀ id, found.lookup id ≠ none → id ∈ ids := by
  have start : Located.Among ids {} := ⟨fun _ h => absurd rfl h, fun _ h => absurd h List.not_mem_nil⟩
  refine gives_bind (s.reads_locateByPointer ids {}) fun l pointed => ?_
  have among := among_locateByPointer start (fun _ h => h) l t pointed
  split
  · exact gives_pure among.found
  · refine gives_bind s.reads_threadIds fun threads _ => ?_
    refine gives_bind (only_each (fun thread => ?_) threads) fun listings _ =>
      gives_pure (among.settleAll listings).found
    exact only_bind (s.reads_messageIds thread) fun _ => trivial

/-! ## The two searches -/

/-- The thread that a search for a message gives. -/
def Finds (s : Store) (t : Tables) (id thread : String) : Prop :=
  ((s.keys.contents t).view id).Finds s.config.trackMessageThreads (s.keys.contents t).HasThread thread

theorem yields_search (s : Store) (t : Tables) (hi : IsMessage id) :
    ∃ found, (s.findMessage id).Yields t found t ∧
      ∀ thread, found = some thread ↔ s.Finds t id thread := by
  obtain ⟨found, t₁, h, _, _, finds⟩ := (ends_search hi).exists_yields
    fun _ _ h => Faults.not_active_none h.2
  obtain rfl := (s.reads_findMessage id).yields h
  exact ⟨found, h, finds⟩

theorem yields_located (s : Store) (t : Tables) (ids : List String) :
    ∃ located, (s.locateMany ids).Yields t located t ∧
      (∀ id, id ∉ ids → located.lookup id = none) ∧
      ∀ id ∈ ids, IsMessage id → ∀ thread,
        located.lookup id = some thread ↔ s.Finds t id thread := by
  obtain ⟨located, t₁, h, _, spec⟩ := (ends_locateMany ids).exists_yields
    fun _ _ h => Faults.not_active_none h.2
  obtain rfl := (s.reads_locateMany ids).yields h
  refine ⟨located, h, fun id hid => ?_, fun id hid hi thread => ?_⟩
  · exact Decidable.byContradiction fun found => hid (among_locateMany located _ h id found)
  · exact (spec id hi thread).trans (and_iff_right hid)

/-! ## The messages of some ids -/

theorem distinct_perm (same : ∀ id, id ∈ ids' ↔ id ∈ ids) : (distinct ids').Perm (distinct ids) :=
  (List.perm_ext_iff_of_nodup (nodup_distinct ids') (nodup_distinct ids)).mpr
    fun id => by rw [mem_distinct, mem_distinct, same]

section Listed

variable {located : List (String × String)}

theorem mem_listed {x : Message} : x ∈ (distinct ids).filterMap (listed s.keys t located) ↔
    ∃ id ∈ ids, ∃ thread, located.lookup id = some thread ∧
      s.keys.message? t thread id = some x := by
  simp only [List.mem_filterMap, mem_distinct, listed, Option.bind_eq_some_iff]

/-- Messages that carry their ids come with an id each. -/
theorem pairwise_listed (located : List (String × String))
    (named : ∀ id ∈ ids, ∀ thread x, s.keys.message? t thread id = some x → x.id = id) :
    ((distinct ids).filterMap (listed s.keys t located)).Pairwise (·.id ≠ ·.id) := by
  refine List.pairwise_filterMap.mpr
    ((nodup_distinct ids).imp_of_mem fun {a b} ha hb apart x hx y hy => ?_)
  obtain ⟨thread, _, hx⟩ := Option.bind_eq_some_iff.mp hx
  obtain ⟨other, _, hy⟩ := Option.bind_eq_some_iff.mp hy
  rwa [named a (mem_distinct.mp ha) thread x hx, named b (mem_distinct.mp hb) other y hy]

/-- Sorted by date and id, messages with different ids are in strict order. -/
theorem pairwise_sort_olderFirst {ms : List Message} (different : ms.Pairwise (·.id ≠ ·.id)) :
    (Sorting.sort olderFirst ms).Pairwise Message.Precedes := by
  have apart : (Sorting.sort olderFirst ms).Pairwise (·.id ≠ ·.id) :=
    (Sorting.sort_perm _ _).symm.pairwise different fun h => Ne.symm h
  have sorted := Sorting.pairwise_sort (Sorting.byRank_trans Message.dateOrder (·.id))
    (Sorting.byRank_total Message.dateOrder (·.id)) ms
  refine (sorted.and apart).imp fun {x y} ⟨before, apart⟩ => ?_
  rcases Sorting.byRank_iff.mp before with lt | ⟨same, le⟩
  · exact Or.inl (Instant.order_lt_order.mp lt)
  · exact Or.inr ⟨Instant.order_injective same, Std.lt_of_le_of_ne le apart⟩

/-- The messages that are found depend on the set of ids that are searched for. -/
theorem sort_listed_congr {located' : List (String × String)} (same : ∀ id, id ∈ ids' ↔ id ∈ ids)
    (agree : ∀ id ∈ ids, located'.lookup id = located.lookup id)
    (named : ∀ id ∈ ids, ∀ thread x, s.keys.message? t thread id = some x → x.id = id) :
    Sorting.sort olderFirst ((distinct ids').filterMap (listed s.keys t located'))
      = Sorting.sort olderFirst ((distinct ids).filterMap (listed s.keys t located)) := by
  have found : (distinct ids').filterMap (listed s.keys t located')
      = (distinct ids').filterMap (listed s.keys t located) :=
    List.filterMap_congr fun id hid => by
      rw [listed, listed, agree id ((same id).mp (mem_distinct.mp hid))]
  have different := pairwise_listed located named
  have perm := (distinct_perm same).filterMap (listed s.keys t located)
  rw [found]
  refine (Sorting.sort_eq_of_perm (Sorting.byRank_trans _ _) (Sorting.byRank_total _ _) perm.symm
    fun x hx y hy before after => ?_).symm
  exact eq_of_key_eq different hx hy (Sorting.name_eq_of_byRank before after)

end Listed

theorem run_listMessagesById {w : World} {located : List (String × String)}
    (h : (s.locateMany ids).Yields w.tables located w.tables) :
    ((s.listMessagesById ids).run Faults.none w).1
      = .ok (Sorting.sort olderFirst ((distinct ids).filterMap (listed s.keys w.tables located))) := by
  unfold listMessagesById
  split
  · next none =>
    rw [List.isEmpty_iff.mp none]
    rfl
  · exact (yields_listed h).orEmpty.run.1

/--
A search for many messages finds each in the thread that a search for it alone gives, and it finds no
others. This goes for tables of any contents.

So the messages of some ids are those that the single searches find and that decode. As long as records
with these ids carry them, they come in strict order, by date, then by id, and for all lists of the
same ids alike.
-/
theorem bulk_lookup (s : Store) (w : World) (ids : List String)
    (valid : ∀ id ∈ ids, Identifier.ValidMessage id) :
    ∃ located, ((s.locateMany ids).run Faults.none w).1 = .ok located ∧
      (∀ id ∈ ids, ((s.findMessage id).run Faults.none w).1 = .ok (located.lookup id)) ∧
      (∀ id, id ∉ ids → located.lookup id = none) ∧
      ((∀ id ∈ ids, ∀ thread x, s.keys.message? w.tables thread id = some x → x.id = id) →
        ∃ ms : List Message, ms.Pairwise Message.Precedes ∧
          (∀ x, x ∈ ms ↔ ∃ id ∈ ids, ∃ thread, located.lookup id = some thread ∧
            s.keys.message? w.tables thread id = some x) ∧
          ∀ ids', (∀ id, id ∈ ids' ↔ id ∈ ids) →
            ((s.listMessagesById ids').run Faults.none w).1 = .ok ms) := by
  obtain ⟨located, yields, others, finds⟩ := s.yields_located w.tables ids
  refine ⟨located, yields.run.1, fun id hid => ?_, others, fun named => ?_⟩
  · obtain ⟨found, search, finds'⟩ := s.yields_search w.tables (valid id hid).isMessage
    have agree : located.lookup id = found := Option.ext fun thread => by
      rw [finds id hid (valid id hid).isMessage, finds']
    rw [agree, search.run.1]
  · refine ⟨_, pairwise_sort_olderFirst (pairwise_listed located named),
      fun x => Sorting.mem_sort.trans mem_listed, fun ids' same => ?_⟩
    obtain ⟨located', yields', _, finds'⟩ := s.yields_located w.tables ids'
    rw [run_listMessagesById yields', sort_listed_congr same (fun id hid => ?_) named]
    have hi := (valid id hid).isMessage
    exact Option.ext fun thread => by rw [finds id hid hi, finds' id ((same id).mpr hid) hi]

end Store

/-! ## Samples -/

namespace Sample

/-- The first message is in two threads, and its pointer names the second of them. The pointer of the
other message is no text. -/
def shared : World :=
  let s := store true
  let w := (s.performAll Faults.none [(now, .saveThread (.create now "a" "r")),
    (now, .saveThread (.create now "b" "r")),
    (now, .saveMessages [message "a", .user now "n" "b" "r" "text"])] World.initial).2
  let copied := w.tables.put .messages (s.keys.message "b" "m") ((message "b").toRecord 0)
  let pointed := copied.put .messageThreads (s.keys.pointer "m") (.str "b")
  { w with tables := pointed.put .messageThreads (s.keys.pointer "n") (.ofNat 1) }

/-- Its records carry the ids of their keys. -/
theorem named_shared {thread id : String} {x : Message}
    (h : (store true).keys.message? shared.tables thread id = some x) : x.id = id := by
  have rows : ∀ row ∈ shared.tables.messages.entries, ∀ x ∈ (Message.ofRecord row.2).toOption,
      Identifier.Valid x.threadId ∧ Identifier.ValidMessage x.id ∧
        row.1 = (store true).keys.message x.threadId x.id := by
    decide +kernel
  obtain ⟨r, stored, read⟩ := Option.bind_eq_some_iff.mp h
  obtain ⟨plain, named, key⟩ := rows _ (Rows.mem_entries_iff.mpr stored) x read
  exact ((Keyspace.message_eq_plain_iff plain.plain named.plain).mp key).2.symm

end Sample

namespace Store

theorem bulk_lookup_shared :
    let s := Sample.store true
    let ids := ["n", "m", "o", "m"]
    (∀ id ∈ ids, Identifier.ValidMessage id) ∧
    (∀ id ∈ ids, ∀ thread x, s.keys.message? Sample.shared.tables thread id = some x → x.id = id) ∧
    ∃ located, ((s.locateMany ids).run Faults.none Sample.shared).1 = .ok located ∧
      (∀ id ∈ ids, ((s.findMessage id).run Faults.none Sample.shared).1 = .ok (located.lookup id)) ∧
      ∃ ms : List Message, ms.Pairwise Message.Precedes ∧
        ((s.listMessagesById ids).run Faults.none Sample.shared).1 = .ok ms ∧
        ((s.listMessagesById ["m", "n", "o"]).run Faults.none Sample.shared).1 = .ok ms := by
  intro s ids
  have valid : ∀ id ∈ ids, Identifier.ValidMessage id := by decide
  have named : ∀ id ∈ ids, ∀ thread x,
      s.keys.message? Sample.shared.tables thread id = some x → x.id = id :=
    fun _ _ _ _ h => Sample.named_shared h
  obtain ⟨located, found, agree, _, messages⟩ := bulk_lookup s Sample.shared ids valid
  obtain ⟨ms, sorted, _, same⟩ := messages named
  exact ⟨valid, named, located, found, agree, ms, sorted, same ids fun _ => .rfl,
    same _ fun id => by grind⟩

-- The pointer counts, though the message is in an earlier thread as well.
example : (((Sample.store true).findMessage "m").run Faults.none Sample.shared).1.toOption
    = some (some "b") := by decide +kernel

end Store

end ChatMemory
