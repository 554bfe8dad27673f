import ChatMemory.Proofs.Consistency
import ChatMemory.Proofs.Fetching
import ChatMemory.Proofs.Locating
import ChatMemory.Proofs.Tracked
import Mathlib.Data.List.Basic

/-!
# Pointers are only a cache

A pointer is looked at before a search and counts only if the thread that it names holds the message.
As long as a message is in one thread at most, a pointer that counts therefore names the thread that
the search would find, and whether pointers are kept, and what they say, makes no difference to any
answer and to any other table.

Each message stays in one thread at most (`Step.single`), so this goes for whole histories.

## Main statements

* `alike_findMessage`, `alike_listMessagesById` — the searches.
* `alike_perform` — every operation ends alike with pointers and without.
* `performAll_tracking_irrelevant` — so does every history.
-/

namespace ChatMemory

/-! ## Contents without pointers -/

/-- Contents say the same about everything but pointers if the tables do. -/
theorem Keyspace.contents_of_main {k : Keyspace} {t t' : Tables} (same : t'.main = t.main) :
    k.contents t' = { k.contents t with pointer := (k.contents t').pointer } := by
  have get : ∀ {table} (key : String), table ≠ .messageThreads →
      t'.get? table key = t.get? table key := fun key hne => Tables.get?_eq_of_main same hne key
  refine Contents.ext' (fun _ => ?_) (fun _ _ => ?_) (fun _ => ?_) fun _ => rfl
  · exact get _ (by decide)
  · simp only [Keyspace.contents, get _ (show Table.messages ≠ .messageThreads by decide)]
  · simp only [Keyspace.contents, get _ (show Table.messages ≠ .messageThreads by decide)]

theorem Contents.Single.of_main {k : Keyspace} {t t' : Tables} (h : (k.contents t).Single)
    (same : t'.main = t.main) : (k.contents t').Single := by
  rw [Keyspace.contents_of_main same]
  exact ⟨⟨h.placed, h.readable⟩, h.orders, h.single⟩

theorem Keyspace.holds_of_main {k : Keyspace} {t t' : Tables} (same : t'.main = t.main)
    (thread id : String) : (k.contents t').Holds thread id ↔ (k.contents t).Holds thread id := by
  rw [Keyspace.contents_of_main same]
  exact .rfl

namespace Keyspace

theorem message?_eq_some_iff {k : Keyspace} {t : Tables} {thread id : String} {x : Message} :
    k.message? t thread id = some x ↔ x.ReadFrom (k.stored t thread id) := by
  rw [message?, Option.bind_eq_some_iff]
  refine exists_congr fun r => and_congr_right fun _ => ?_
  cases Message.ofRecord r with
  | ok y => simp [Except.toOption]
  | error _ => simp [Except.toOption]

theorem message?_of_main {k : Keyspace} {t t' : Tables} (same : t'.main = t.main)
    (thread id : String) : k.message? t' thread id = k.message? t thread id := by
  rw [message?, stored, Tables.get?_eq_of_main same (by decide)]
  rfl

end Keyspace

namespace Store

open Action

variable {s : Store} {I : Tables → Prop} {t t' t₁ : Tables} {thread id : String} {now : Instant}

/-! ## Searching -/

theorem alike_findMessage (s : Store) (single : (s.keys.contents t).Single) (hi : IsMessage id) :
    Alike I t (s.tracked.findMessage id) (s.untracked.findMessage id) := by
  obtain ⟨found, h, finds⟩ := yields_findMessage (s := s.tracked) hi
    (fun _ hh => single.hasThread hh) (single.single id)
  refine alike_of_yields h fun t' same => ?_
  have single' := single.of_main same
  obtain ⟨found', h', finds'⟩ := yields_findMessage (s := s.untracked) hi
    (fun _ hh => single'.hasThread hh) (single'.single id)
  have e : found' = found := Option.ext fun thread => by
    rw [finds, finds', Keyspace.holds_of_main (t := t) same]
    rfl
  exact e ▸ h'

/-! ## Saving and changing -/

theorem alike_fetchHome (s : Store) (single : (s.keys.contents t).Single) {v : Message}
    (hi : Identifier.ValidMessage v.id) : Alike s.keys.Labelled t (s.tracked.fetchHome now v)
      (s.untracked.fetchHome now v) := by
  refine (s.alike_findMessage single hi.isMessage).bind fun found _ _ => ?_
  cases found with
  | none => exact alike_pure
  | some current =>
    refine alike_ite (fun _ => alike_pure) fun _ => ?_
    exact (s.alike_migrateMessage current v.threadId).bind fun _ _ _ => alike_pure

theorem single_of_fetchHome (single : (s.keys.contents t).Single) {v : Message}
    (hi : Identifier.ValidMessage v.id) {u : Unit} (h : (s.fetchHome now v).Yields t u t₁) :
    (s.keys.contents t₁).Single := by
  obtain ⟨f, homed⟩ := (ends_fetchHome single.toOrderly hi).yields h
  exact single.homed f homed

theorem alike_saveMessages (s : Store) (single : (s.keys.contents t).Single)
    (messages : List Message) : Alike s.keys.Labelled t (s.tracked.saveMessages now messages)
      (s.untracked.saveMessages now messages) := by
  refine (alike_check _).bindReads only_ofExcept fun _ hc => ?_
  have valid : ∀ v ∈ messages, Identifier.ValidMessage v.id := fun v hv =>
    ((batchViolations_eq_nil.mp (yields_check.mp hc).1).1 v hv).1
  refine alike_ite (fun _ => alike_pure) fun _ => ?_
  -- The threads are looked up only, so the messages are still in one thread each.
  have reads : (Action.forAll s.tracked.requireThread (batchThreads messages)).Reads :=
    only_forAll s.tracked.reads_requireThread _
  refine Alike.bindReads reads (alike_forAll fun _ _ _ => s.alike_requireThread) fun _ _ => ?_
  refine Alike.bind ?_ fun _ _ _ => ?_
  · refine Alike.forAll (J := fun t => (s.keys.contents t).Single) (fun v hv t h => ?_) ?_ single
    · exact s.alike_fetchHome h (valid v hv)
    · exact fun v hv t u t₁ h hy => single_of_fetchHome (s := s.tracked) h (valid v hv) hy
  · refine Alike.bind (alike_forAll fun _ _ _ => ?_) fun _ _ _ => alike_pure
    exact s.alike_saveInto fun v hv => (valid v hv).isMessage.1

theorem alike_updateMessage (s : Store) (single : (s.keys.contents t).Single) {u : MessageUpdate}
    (hi : Identifier.ValidMessage u.id) : Alike s.keys.Labelled t (s.tracked.updateMessage now u)
      (s.untracked.updateMessage now u) := by
  refine Alike.assuming fun labelled => ?_
  refine (s.alike_findMessage single hi.isMessage).bindReads (s.tracked.reads_findMessage _)
    fun found _ => ?_
  cases found with
  | none => exact alike_fail
  | some current =>
    refine s.alike_fetchMessage.bind fun found _ hf => ?_
    have read := s.tracked.readFrom_of_fetched hf
    cases found with
    | none => exact alike_fail
    | some before =>
      have label : (before.apply u).id ≠ "" := by
        rw [Message.apply_id]
        exact labelled.label (read before rfl)
      dsimp only
      cases u.threadId.filter (· ≠ current) with
      | none => exact s.alike_updateInPlace before label
      | some destination => exact s.alike_updateAndMove destination label

theorem single_of_updateMessage (single : (s.keys.contents t).Single) {u : MessageUpdate}
    (hi : Identifier.ValidMessage u.id)
    (ht : ∀ destination, u.threadId = some destination → Identifier.Valid destination) {y : Message}
    (h : (s.updateMessage now u).Yields t y t₁) : (s.keys.contents t₁).Single := by
  obtain ⟨f, updated⟩ := (ends_updateMessage single.toOrderly hi ht fun _ _ => trivial).yields h
  exact single.updated f updated

theorem alike_updateMessages (s : Store) (single : (s.keys.contents t).Single)
    (us : List MessageUpdate) : Alike s.keys.Labelled t (s.tracked.updateMessages now us)
      (s.untracked.updateMessages now us) := by
  refine (alike_check _).bindReads only_ofExcept fun _ hc => ?_
  have valid := valid_of_updateViolations (yields_check.mp hc).1
  -- Each update searches for its message, so messages have to stay in one thread all along.
  refine Alike.each (J := fun t => (s.keys.contents t).Single) (fun u hu t h => ?_) ?_ single
  · exact s.alike_updateMessage h (valid u hu).1
  · exact fun u hu t y t₁ h hy => single_of_updateMessage (s := s.tracked) h (valid u hu).1
      (valid u hu).2 hy

/-! ## Listing messages -/

/-- A search for many messages gives for each the thread that holds it. -/
theorem yields_locateMany (single : (s.keys.contents t).Single) (ids : List String) :
    ∃ found, (s.locateMany ids).Yields t found t ∧ ∀ id ∈ ids, IsMessage id → ∀ thread,
      found.lookup id = some thread ↔ (s.keys.contents t).Holds thread id := by
  obtain ⟨found, t₁, h, _, spec⟩ := (ends_locateMany ids).exists_yields
    fun _ _ h => Faults.not_active_none h.2
  obtain rfl := (s.reads_locateMany ids).yields h
  refine ⟨found, h, fun id hid hi thread => ?_⟩
  rw [spec id hi, single.finds_iff]
  exact and_iff_right hid

/-- The message that is listed for an id, when some threads were found for some ids. -/
def listed (k : Keyspace) (t : Tables) (found : List (String × String)) (id : String) :
    Option Message :=
  (found.lookup id).bind fun thread => k.message? t thread id

theorem yields_listed {found : List (String × String)} {ids : List String}
    (h : (s.locateMany ids).Yields t found t) :
    (do
      let located ← s.locateMany ids
      let targets := (distinct ids).filterMap fun id =>
        (located.lookup id).map fun thread => (thread, id)
      return Sorting.sort olderFirst (← s.fetchMany targets) : Action (List Message)).Yields t
        (Sorting.sort olderFirst ((distinct ids).filterMap (listed s.keys t found))) t := by
  refine yields_bind.mpr ⟨found, t, h, yields_bind.mpr ⟨_, t, s.yields_fetchMany t _, ?_⟩⟩
  rw [List.filterMap_filterMap]
  refine yields_pure.mpr ⟨congrArg _ (List.filterMap_congr fun id _ => ?_), rfl⟩
  rw [listed]
  cases found.lookup id <;> rfl

theorem alike_listMessagesById (s : Store) (single : (s.keys.contents t).Single)
    (ids : List String) : Alike s.keys.Labelled t (s.tracked.listMessagesById ids)
      (s.untracked.listMessagesById ids) := by
  refine Alike.assuming fun labelled => alike_ite (fun _ => alike_pure) fun _ => Alike.orEmpty ?_
  obtain ⟨found, h, spec⟩ := yields_locateMany (s := s.tracked) single ids
  refine alike_of_yields (yields_listed h) fun t' same => ?_
  obtain ⟨found', h', spec'⟩ := yields_locateMany (s := s.untracked) (single.of_main same) ids
  have agree : ∀ id ∈ distinct ids, listed s.keys t' found' id = listed s.keys t found id := by
    intro id hid
    have hid : id ∈ ids := (distinctBy_sublist _ ids).subset hid
    by_cases hi : IsMessage id
    · have e : found'.lookup id = found.lookup id := Option.ext fun thread => by
        rw [spec id hid hi, spec' id hid hi]
        exact Keyspace.holds_of_main same thread id
      simp only [listed, e, Keyspace.message?_of_main same]
    · -- Pointers may name a thread for such an id, but there is no message.
      have none : ∀ thread, s.keys.message? t thread id = none := fun thread =>
        Option.eq_none_iff_forall_ne_some.mpr fun x hx =>
          labelled.not_readFrom single hi x (Keyspace.message?_eq_some_iff.mp hx)
      simp [listed, none, Keyspace.message?_of_main same]
  have lists := yields_listed h'
  rw [show s.untracked.keys = s.keys from rfl, List.filterMap_congr agree] at lists
  exact lists

theorem alike_includeThread (s : Store) (single : (s.keys.contents t).Single) (q : MessageQuery)
    (orders : Orders) {r : IncludeRequest} (hi : IsMessage r.id) :
    Alike I t (s.tracked.includeThread q orders r) (s.untracked.includeThread q orders r) := by
  unfold includeThread
  cases r.threadId with
  | some thread => exact alike_pure
  | none =>
    refine (s.alike_firstIndexing q.threadIds orders).bindReads
      (s.tracked.reads_firstIndexing ..) fun indexing _ => ?_
    obtain ⟨thread?, orders⟩ := indexing
    -- A search is the last resort, when no order lists the message.
    cases thread? with
    | some thread => exact alike_pure
    | none => exact (s.alike_findMessage single hi).bind fun _ _ _ => alike_pure

theorem alike_includeTargets (s : Store) (single : (s.keys.contents t).Single) (q : MessageQuery) :
    ∀ (requests : List IncludeRequest) (orders : Orders), (∀ r ∈ requests, IsMessage r.id) →
      Alike I t (s.tracked.includeTargets q orders requests)
        (s.untracked.includeTargets q orders requests)
  | [], _, _ => alike_pure
  | r :: rest, orders, hi => by
    have hi' : ∀ r ∈ rest, IsMessage r.id := fun r hr => hi r (List.mem_cons_of_mem _ hr)
    refine (s.alike_includeThread single q orders (hi r List.mem_cons_self)).bindReads
      (s.tracked.reads_includeThread q orders r) fun found _ => ?_
    obtain ⟨thread?, orders⟩ := found
    cases thread? with
    | none => exact alike_includeTargets s single q rest orders hi'
    | some thread =>
      refine (s.alike_loadOrder orders).bindReads (s.tracked.reads_loadOrder orders thread)
        fun loaded _ => ?_
      exact (alike_includeTargets s single q rest loaded.2 hi').bind fun _ _ _ => alike_pure

theorem isMessage_of_queryViolations {q : MessageQuery} (h : queryViolations q = []) :
    ∀ r ∈ q.includes, IsMessage r.id := by
  intro r hr
  obtain ⟨position, hp⟩ := exists_position hr
  simp only [queryViolations, List.append_eq_nil_iff, itemViolations, List.flatMap_eq_nil_iff] at h
  have checked := h.1.2 (r, position) hp
  exact (Identifier.messageViolations_eq_nil.mp checked.1).isMessage

theorem alike_listMessages (s : Store) (single : (s.keys.contents t).Single) (q : MessageQuery) :
    Alike I t (s.tracked.listMessages q) (s.untracked.listMessages q) := by
  refine (alike_check _).bindReads only_ofExcept fun _ _ => ?_
  refine (alike_check _).bindReads only_ofExcept fun _ hc => Alike.orEmpty ?_
  have hi := isMessage_of_queryViolations (yields_check.mp hc).1
  refine (s.alike_window q).bindReads (s.tracked.reads_window q) fun loaded _ => ?_
  refine (s.alike_includeTargets single q q.includes loaded.2 hi).bind fun found _ _ => ?_
  exact (s.alike_fetchMany _).bind fun _ _ _ => alike_pure

/-! ## Operations -/

/-- Every operation ends alike with pointers and without. -/
theorem alike_perform (s : Store) (single : (s.keys.contents t).Single) (now : Instant)
    (op : Operation) :
    Alike s.keys.Labelled t (s.tracked.perform now op) (s.untracked.perform now op) := by
  cases op with
  | getThread id => exact Alike.map (Alike.orEmpty s.alike_fetchThread)
  | saveThread x => exact Alike.map (s.alike_saveThread x)
  | updateThread id title patch => exact Alike.map (s.alike_modifyThread _)
  | deleteThread id => exact Alike.map s.alike_deleteThread
  | listThreads q =>
    refine Alike.map ((alike_check _).bind fun _ _ _ => (alike_check _).bind fun _ _ _ => ?_)
    refine Alike.orEmpty (s.alike_threadIds.bind fun ids _ _ => ?_)
    exact (alike_each fun _ _ _ => alike_skipCorrupt s.alike_fetchThread).bind fun _ _ _ =>
      alike_pure
  | saveMessages ms => exact Alike.map (s.alike_saveMessages single ms)
  | updateMessages us => exact Alike.map (s.alike_updateMessages single us)
  | listMessagesById ids => exact Alike.map (s.alike_listMessagesById single ids)
  | listMessages q => exact Alike.map (s.alike_listMessages single q)
  | listRecent thread n =>
    refine Alike.map ((alike_check _).bind fun _ _ _ => Alike.orEmpty ?_)
    exact OrderIndex.alike_snapshot.bind fun _ _ _ => s.alike_fetchMany _
  | getResource id => exact Alike.map (Alike.orEmpty s.alike_fetchResource)
  | saveResource r => exact Alike.map (s.alike_saveResource r)
  | updateResource id memory patch => exact Alike.map (s.alike_updateResource memory patch)
  | reconcileThread id => exact Alike.map s.alike_reconcileThread
  | migrateMessage id origin destination =>
    exact Alike.map (s.alike_migrateMessage origin destination)

/--
An operation gives the same answer and leaves the same tables with pointers and without, and each
message is still in one thread at most.
-/
theorem perform_tracked (s : Store) {w w' : World} (single : (s.keys.contents w.tables).Single)
    (labelled : s.keys.Labelled w.tables) (same : w'.tables.main = w.tables.main) (now : Instant)
    (op : Operation) :
    let tracked := (s.tracked.perform now op).run Faults.none w
    let untracked := (s.untracked.perform now op).run Faults.none w'
    untracked.1 = tracked.1 ∧ untracked.2.tables.main = tracked.2.tables.main ∧
      (s.keys.contents tracked.2.tables).Single ∧ s.keys.Labelled tracked.2.tables := by
  obtain ⟨answer, main, kept⟩ := s.alike_perform single now op labelled w'.tables same
  rw [outcome_eq_run _ w, outcome_eq_run _ w'] at answer main
  rw [outcome_eq_run _ w] at kept
  refine ⟨answer, main, ?_, kept⟩
  have dated : op.Dated RecordRule.telling.dates := op.dated_of_forall fun _ => trivial
  have step := step_perform s.tracked now Faults.none w single.toOrderly dated
  rw [eq_false Faults.not_active_none] at step
  exact step.single single

/-! ## Histories -/

theorem performAll_tracked (s : Store) : ∀ (history : List (Instant × Operation)) {w w' : World},
    (s.keys.contents w.tables).Single → s.keys.Labelled w.tables →
    w'.tables.main = w.tables.main →
    (s.untracked.performAll Faults.none history w').1
        = (s.tracked.performAll Faults.none history w).1 ∧
      (s.untracked.performAll Faults.none history w').2.tables.main
        = (s.tracked.performAll Faults.none history w).2.tables.main
  | [], _, _, _, _, same => ⟨rfl, same⟩
  | (now, op) :: rest, w, w', single, labelled, same => by
    obtain ⟨answer, main, single₁, labelled₁⟩ := s.perform_tracked single labelled same now op
    obtain ⟨answers, mains⟩ := performAll_tracked s rest single₁ labelled₁ main
    rw [performAll_cons, performAll_cons]
    exact ⟨List.cons_eq_cons.mpr ⟨answer, answers⟩, mains⟩

/--
Pointers are only a cache. Take tables in which every message is in one thread at most, and the same
tables with any pointers whatever. As long as no call fails, every history gets the same answers, and
leaves the same threads, messages and resources, from the store that keeps pointers as from the one
that does not.
-/
theorem performAll_tracking_irrelevant (s : Store) {w w' : World}
    (single : w.tables.Single s.keys) (same : w'.tables.main = w.tables.main)
    (history : List (Instant × Operation)) :
    (s.tracked.performAll Faults.none history w').1
        = (s.untracked.performAll Faults.none history w).1 ∧
      (s.tracked.performAll Faults.none history w').2.tables.main
        = (s.untracked.performAll Faults.none history w).2.tables.main := by
  obtain ⟨answers, main⟩ := s.performAll_tracked history (single.contents.of_main same)
    (single.labelled.of_main same) same.symm
  exact ⟨answers.symm, main.symm⟩

end Store

/-! ## A stale pointer -/

/-- Tables that agree with each other meet the assumption, if nothing has an empty id. -/
theorem Contents.Consistent.single {k : Keyspace} {t : Tables} {tracking : Bool}
    (h : (k.contents t).Consistent tracking) (blank : ∀ thread, k.stored t thread "" = none) :
    t.Single k := by
  have holds : ∀ {thread id}, id ≠ Keyspace.orderField → k.stored t thread id ≠ none →
      (k.contents t).Holds thread id := by
    refine fun {thread id} hid stored => holds_contents.mpr ⟨⟨fun e => stored ?_, hid⟩, stored⟩
    exact e ▸ blank thread
  refine ⟨fun hid stored => (h.hasThread (holds hid stored)).2, fun hid stored => ?_,
    fun hid hx => ?_, fun {thread other id} hid ht ho => ?_, fun thread => ?_⟩
  · obtain ⟨r, hr⟩ := Option.ne_none_iff_exists'.mp (holds hid stored)
    exact ⟨(h.placed hr).2.1, (h.placed hr).2.2.1⟩
  · have held := holds hid hx.ne_none
    obtain ⟨r, hr, hx⟩ := hx
    have hi := isMessage_of_holds held
    obtain ⟨told, named, _⟩ := h.isRecord ⟨r, (Keyspace.record_contents hi).trans hr, hx⟩
    exact ⟨told, named⟩
  · exact h.tables.unique thread other id (isMessage_of_holds (holds hid ht)) ht ho
  · by_cases there : t.get? .threads (k.thread thread) = none
    · rw [Keyspace.stored, ← Keyspace.order_eq_message, h.tables.closed thread there]
      exact StoredOrder.sorted_none.readable
    · obtain ⟨entries, he, _⟩ := h.tables.ordered thread there
      exact ⟨entries, he⟩

namespace Sample

/-- The message is in the second thread, and its pointer names the first one. -/
def stale : World :=
  { world false "b" with
    tables := (world false "b").tables.put .messageThreads ((store false).keys.pointer "m") (.str "a") }

theorem main_stale : stale.tables.main = (world false "b").tables.main := by
  have pointer : ∀ (t : Tables) (key : String) (v : Json),
      (t.put .messageThreads key v).main = t.main := fun _ _ _ => rfl
  exact pointer _ _ _

theorem single : (world false "b").tables.Single (store false).keys := by
  refine Contents.Consistent.single consistent fun thread => ?_
  refine Decidable.byContradiction fun stored => ?_
  have keys : (world false "b").tables.messages.entries.map (·.1)
      = ["messages:b:m", "messages:b:messages"] := by decide +kernel
  obtain ⟨r, hr⟩ := Option.ne_none_iff_exists'.mp stored
  have mem : (store false).keys.message thread ""
      ∈ (world false "b").tables.messages.entries.map (·.1) :=
    List.mem_map_of_mem (f := (·.1)) (Rows.mem_entries_iff.mpr hr)
  rw [keys, List.mem_cons, List.mem_singleton] at mem
  rcases mem with e | e
  · have e : (store false).keys.message thread "" = (store false).keys.message "b" "m" := e
    exact absurd ((Keyspace.message_eq_plain_iff (by decide) (by decide)).mp e).2 (by decide)
  · have e : (store false).keys.message thread "" = (store false).keys.message "b" "messages" := e
    exact absurd ((Keyspace.message_eq_plain_iff (by decide) (by decide)).mp e).2 (by decide)

end Sample

namespace Store

/-- A pointer that is not true makes no difference to a search, nor to a move. -/
theorem stale_pointer_irrelevant :
    let history : List (Instant × Operation) := [(Sample.now, .listMessagesById ["m"]),
      (Sample.now, .saveMessages [Sample.message "a"]), (Sample.now, .listMessagesById ["m"])]
    Sample.stale.tables.get? .messageThreads ((Sample.store false).keys.pointer "m")
        = some (.str "a") ∧
      (Sample.world false "b").tables.Single (Sample.store false).keys ∧
      Sample.stale.tables.main = (Sample.world false "b").tables.main ∧
      ((Sample.store false).tracked.performAll Faults.none history Sample.stale).1
        = ((Sample.store false).untracked.performAll Faults.none history
            (Sample.world false "b")).1 ∧
      ((Sample.store false).tracked.performAll Faults.none history Sample.stale).2.tables.main
        = ((Sample.store false).untracked.performAll Faults.none history
            (Sample.world false "b")).2.tables.main := by
  intro history
  refine ⟨?_, Sample.single, Sample.main_stale, ?_⟩
  · rw [Sample.stale, Tables.get?_put, if_pos ⟨rfl, rfl⟩]
  · exact performAll_tracking_irrelevant (Sample.store false) Sample.single Sample.main_stale history

end Store

end ChatMemory
