import ChatMemory.Proofs.Mending

/-!
# What a deletion removes

A deletion is told by the keys that go: their rows are gone and all other rows are as they were
(`Tables.Clears`). Two deletions, one after the other, are the deletion of the keys of both, so what
goes with a thread is the sum of what goes with its messages, of its order and of its record.

The messages to be deleted are found by the beginning of their keys. All keys with that beginning go,
among them that of the order, unless nothing follows the beginning. If identifiers are given and hold
no colon, the beginning tells the thread, and no row of another thread has it.

## Main statements

* `Tables.Clears.trans` — two deletions in a row.
* `clears_purgeMessage`, `clears_purge` — what goes with a message, and with some of them and a thread.
* `clears_deleteThread` — what goes with a thread, whatever the tables hold.
* `deletes_one_thread` — nothing of the thread is left, and nothing else is changed.
-/

namespace ChatMemory

/-! ## Rows that go -/

/-- The rows of some keys are gone, and all others are as they were. -/
def Tables.Clears (t t' : Tables) (gone : Table → String → Prop) : Prop :=
  ∀ table key, (gone table key → t'.get? table key = none) ∧
    (¬ gone table key → t'.get? table key = t.get? table key)

namespace Tables.Clears

variable {t t' t'' : Tables} {gone gone' : Table → String → Prop}

theorem nothing (t : Tables) : t.Clears t fun _ _ => False := fun _ _ => ⟨False.elim, fun _ => rfl⟩

theorem delete (t : Tables) (table : Table) (key : String) :
    t.Clears (t.delete table key) fun table' key' => table' = table ∧ key' = key := by
  intro table' key'
  rw [Tables.get?_delete]
  exact ⟨fun h => if_pos h, fun h => if_neg h⟩

theorem trans (h : t.Clears t' gone) (h' : t'.Clears t'' gone') :
    t.Clears t'' fun table key => gone table key ∨ gone' table key := by
  intro table key
  by_cases later : gone' table key
  · exact ⟨fun _ => (h' table key).1 later, fun kept => absurd (Or.inr later) kept⟩
  · have same := (h' table key).2 later
    exact ⟨fun gone => same.trans ((h table key).1 (gone.resolve_right later)),
      fun kept => same.trans ((h table key).2 fun first => kept (Or.inl first))⟩

/-- Keys that were not there may be counted among those that go. -/
theorem widen (h : t.Clears t' gone) (le : ∀ table key, gone table key → gone' table key)
    (absent : ∀ table key, gone' table key → ¬ gone table key → t.get? table key = none) :
    t.Clears t' gone' := by
  intro table key
  refine ⟨fun h' => ?_, fun kept => (h table key).2 fun first => kept (le _ _ first)⟩
  by_cases first : gone table key
  · exact (h table key).1 first
  · exact ((h table key).2 first).trans (absent table key h' first)

theorem congr (h : t.Clears t' gone) (same : ∀ table key, gone table key ↔ gone' table key) :
    t.Clears t' gone' :=
  h.widen (fun _ _ => (same _ _).mp) fun _ _ h' hno => absurd ((same _ _).mpr h') hno

/-- A row that is left was there before. -/
theorem get?_eq_some_iff (h : t.Clears t' gone) {table : Table} {key : String} {v : Json} :
    t'.get? table key = some v ↔ ¬ gone table key ∧ t.get? table key = some v := by
  by_cases first : gone table key
  · simp [(h table key).1 first, first]
  · simp [(h table key).2 first, first]

end Tables.Clears

namespace Keyspace

variable {k : Keyspace} {tracking : Bool} {t t' : Tables} {thread : String}

/-! ## What goes with messages -/

/-- The rows of some messages of a thread: their records, and those pointers that name the thread. -/
def Rowed (k : Keyspace) (tracking : Bool) (t : Tables) (thread : String) (ids : String → Prop) :
    Table → String → Prop
  | .messages, key => ∃ id, ids id ∧ key = k.message thread id
  | .messageThreads, key => tracking = true ∧ (∃ id, ids id ∧ key = k.pointer id) ∧
      t.get? .messageThreads key = some (.str thread)
  | .threads, _ => False
  | .resources, _ => False

/-- After the first message of a list, the rows of the others are those that they were. -/
theorem rowed_cons {id : String} {rest : List String}
    (h : t.Clears t' (k.Rowed tracking t thread (· = id))) (table : Table) (key : String) :
    k.Rowed tracking t thread (· = id) table key ∨ k.Rowed tracking t' thread (· ∈ rest) table key ↔
      k.Rowed tracking t thread (· ∈ id :: rest) table key := by
  cases table with
  | threads => simp [Rowed]
  | resources => simp [Rowed]
  | messages => simp [Rowed]
  | messageThreads =>
    simp only [Rowed, h.get?_eq_some_iff]
    constructor
    · rintro (⟨on, ⟨_, rfl, e⟩, names⟩ | ⟨on, ⟨other, hm, e⟩, _, names⟩)
      · exact ⟨on, ⟨_, List.mem_cons_self, e⟩, names⟩
      · exact ⟨on, ⟨other, List.mem_cons_of_mem _ hm, e⟩, names⟩
    · rintro ⟨on, ⟨other, hm, e⟩, names⟩
      by_cases first : ∃ x, x = id ∧ key = k.pointer x
      · exact Or.inl ⟨on, first, names⟩
      · refine Or.inr ⟨on, ⟨other, ?_, e⟩, fun h => first h.2.1, names⟩
        refine (List.mem_cons.mp hm).resolve_left ?_
        rintro rfl
        exact first ⟨_, rfl, e⟩

/-! ## What goes with a thread -/

/--
The rows of a thread: its record, all rows with its beginning among the messages, of which that of the
order is one, and the pointers of its messages that name it.
-/
def OfThread (k : Keyspace) (tracking : Bool) (t : Tables) (thread : String) : Table → String → Prop
  | .threads, key => key = k.thread thread
  | .messages, key => ∃ id, id ≠ "" ∧ key = k.message thread id
  | .messageThreads, key => tracking = true ∧ (∃ id, IsMessage id ∧ key = k.pointer id ∧
      k.stored t thread id ≠ none) ∧ t.get? .messageThreads key = some (.str thread)
  | .resources, _ => False

/-- The rows of the messages that are found in a thread, that of its order and its record. -/
def Purged (k : Keyspace) (tracking : Bool) (t : Tables) (thread : String) (ids : List String)
    (table : Table) (key : String) : Prop :=
  k.Rowed tracking t thread (· ∈ ids) table key ∨ (table = .messages ∧ key = k.order thread) ∨
    (table = .threads ∧ key = k.thread thread)

section Purged

variable {ids : List String}
  (mem : ∀ id, id ∈ ids ↔ IsMessage id ∧ k.stored t thread id ≠ none) {table : Table} {key : String}

include mem

theorem Purged.ofThread (h : k.Purged tracking t thread ids table key) :
    k.OfThread tracking t thread table key := by
  rcases h with rowed | ⟨rfl, rfl⟩ | ⟨rfl, rfl⟩
  · cases table with
    | threads => exact rowed.elim
    | resources => exact rowed.elim
    | messages =>
      obtain ⟨id, hid, rfl⟩ := rowed
      exact ⟨id, ((mem id).mp hid).1.1, rfl⟩
    | messageThreads =>
      obtain ⟨on, ⟨id, hid, e⟩, names⟩ := rowed
      obtain ⟨hi, hs⟩ := (mem id).mp hid
      exact ⟨on, ⟨id, hi, e, hs⟩, names⟩
  · exact ⟨orderField, by decide, rfl⟩
  · rfl

/-- A row with the beginning of a thread that is not purged is not there. -/
theorem absent_of_not_purged (h : k.OfThread tracking t thread table key)
    (stays : ¬ k.Purged tracking t thread ids table key) : t.get? table key = none := by
  cases table with
  | threads => exact absurd (Or.inr (Or.inr ⟨rfl, h⟩)) stays
  | resources => exact h.elim
  | messages =>
    obtain ⟨id, hne, rfl⟩ := h
    by_cases ho : id = orderField
    · subst ho
      exact absurd (Or.inr (Or.inl ⟨rfl, rfl⟩)) stays
    · refine Classical.byContradiction fun hs => stays (Or.inl ⟨id, ?_, rfl⟩)
      exact (mem id).mpr ⟨⟨hne, ho⟩, hs⟩
  | messageThreads =>
    obtain ⟨on, ⟨id, hi, e, hs⟩, names⟩ := h
    exact absurd (Or.inl ⟨on, ⟨id, (mem id).mpr ⟨hi, hs⟩, e⟩, names⟩) stays

end Purged

/-- The keys of what is stored among the messages name a thread and an id, with no colon in them. -/
def Identified (k : Keyspace) (t : Tables) : Prop :=
  ∀ thread id, k.stored t thread id ≠ none → (thread ≠ "" ∧ Plain thread) ∧ id ≠ "" ∧ Plain id

theorem identified_of_keys (names : List (String × String))
    (given : ∀ e ∈ names, (e.1 ≠ "" ∧ Plain e.1) ∧ e.2 ≠ "" ∧ Plain e.2)
    (keys : t.messages.entries.map (·.1) = names.map fun e => k.message e.1 e.2) :
    k.Identified t := by
  intro thread id hs
  obtain ⟨r, hr⟩ := Option.ne_none_iff_exists'.mp hs
  have mem : k.message thread id ∈ t.messages.entries.map (·.1) :=
    List.mem_map_of_mem (f := (·.1)) (Rows.mem_entries_iff.mpr hr)
  obtain ⟨e, he, same⟩ := List.mem_map.mp (keys ▸ mem)
  obtain ⟨rfl, rfl⟩ := (message_eq_plain_iff (given e he).1.2 (given e he).2.2).mp same.symm
  exact given e he

/-- A thread is removed, and nothing else. -/
structure Removes (k : Keyspace) (tracking : Bool) (thread : String) (t t' : Tables) : Prop where
  record : t'.get? .threads (k.thread thread) = none
  order : t'.get? .messages (k.order thread) = none
  messages : ∀ id, k.stored t' thread id = none
  /-- The records of all other threads are as they were. -/
  otherThreads : ∀ key, key ≠ k.thread thread → t'.get? .threads key = t.get? .threads key
  /-- So are the messages and the order of each. -/
  otherMessages : ∀ other, other ≠ thread → ∀ id, k.stored t' other id = k.stored t other id
  /-- So are all rows of the table that are not among those of the thread. -/
  otherRows : ∀ key, (∀ id, key ≠ k.message thread id) →
    t'.get? .messages key = t.get? .messages key
  resources : ∀ key, t'.get? .resources key = t.get? .resources key
  /-- With tracking on, the pointers that go are those of messages of the thread that name it. -/
  pointers : ∀ key,
    let goes := tracking = true ∧ ∃ id, id ≠ Keyspace.orderField ∧ key = k.pointer id ∧
      k.stored t thread id ≠ none ∧ t.get? .messageThreads key = some (.str thread)
    (goes → t'.get? .messageThreads key = none) ∧
      (¬ goes → t'.get? .messageThreads key = t.get? .messageThreads key)

/-- If identifiers are given and hold no colon, the rows of a thread are its own. -/
theorem Identified.removes (identified : k.Identified t) (plain : Plain thread)
    (h : t.Clears t' (k.OfThread tracking t thread)) : k.Removes tracking thread t t' := by
  have empty : k.stored t thread "" = none :=
    Classical.byContradiction fun hs => (identified thread "" hs).2.1 rfl
  have messages : ∀ id, k.stored t' thread id = none := by
    intro id
    by_cases hne : id = ""
    · subst hne
      by_cases goes : k.OfThread tracking t thread .messages (k.message thread "")
      · exact (h _ _).1 goes
      · exact ((h _ _).2 goes).trans empty
    · exact (h .messages (k.message thread id)).1 ⟨id, hne, rfl⟩
  refine ⟨(h .threads _).1 rfl, messages Keyspace.orderField, messages,
    fun key hne => (h .threads key).2 hne, fun other hne id => ?_,
    fun key hne => (h .messages key).2 fun ⟨id, _, e⟩ => hne id e, fun key => (h .resources key).2 id,
    fun key => ?_⟩
  · by_cases hs : k.stored t other id = none
    · by_cases goes : k.OfThread tracking t thread .messages (k.message other id)
      · exact ((h _ _).1 goes).trans hs.symm
      · exact (h _ _).2 goes
    · refine (h .messages _).2 ?_
      rintro ⟨id', _, e⟩
      exact hne ((message_eq_iff (identified other id hs).1.2 plain).mp e).1
  · have same : k.OfThread tracking t thread .messageThreads key ↔
        tracking = true ∧ ∃ id, id ≠ Keyspace.orderField ∧ key = k.pointer id ∧
          k.stored t thread id ≠ none ∧ t.get? .messageThreads key = some (.str thread) := by
      refine and_congr_right fun _ => ?_
      constructor
      · rintro ⟨⟨id, hi, e, hs⟩, names⟩
        exact ⟨id, hi.2, e, hs, names⟩
      · rintro ⟨id, ho, e, hs, names⟩
        exact ⟨⟨id, ⟨(identified thread id hs).2.1, ho⟩, e, hs⟩, names⟩
    exact ⟨fun goes => (h _ _).1 (same.mpr goes),
      fun stays => (h _ _).2 fun goes => stays (same.mp goes)⟩

end Keyspace

namespace Store

open Action

variable {s : Store} {t t' : Tables} {thread id : String} {u : Unit}

theorem yields_pointer {named : Option String} (h : (s.pointer id).Yields t named t')
    (given : thread ≠ "") : t' = t ∧ (named = some thread ↔
      t.get? .messageThreads (s.keys.pointer id) = some (.str thread)) := by
  obtain ⟨stored, _, h₁, h₂⟩ := yields_bind.mp h
  obtain ⟨rfl, e⟩ := yields_ask.mp h₁
  obtain ⟨rfl, rfl⟩ := yields_pure.mp h₂
  refine ⟨e, ?_⟩
  dsimp only [Request.answer]
  cases t.get? .messageThreads (s.keys.pointer id) with
  | none => simp
  | some v =>
    cases v with
    | str name =>
      simp only [Option.bind_some, Json.asText?, Option.filter_eq_some_iff, Option.some.injEq,
        Json.str.injEq, decide_eq_true_eq]
      exact and_iff_left_of_imp fun e => e ▸ given
    | _ => simp [Json.asText?]

/-- A pointer goes if pointers are kept and it names the thread. -/
theorem clears_forgetPointer (given : thread ≠ "") (h : (s.forgetPointer id thread).Yields t u t') :
    t.Clears t' fun table key => table = .messageThreads ∧ key = s.keys.pointer id ∧
      s.config.trackMessageThreads = true ∧ t.get? .messageThreads key = some (.str thread) := by
  rcases yields_ite.mp h with ⟨tracking, h⟩ | ⟨off, h⟩
  · obtain ⟨named, t₁, h₁, h₂⟩ := yields_bind.mp h
    obtain ⟨rfl, names⟩ := yields_pointer h₁ given
    rcases yields_ite.mp h₂ with ⟨e, h₂⟩ | ⟨ne, h₂⟩
    · obtain ⟨_, rfl⟩ := yields_ask.mp h₂
      refine (Tables.Clears.delete _ _ _).congr fun table key => ?_
      refine and_congr_right fun _ => (and_iff_left_of_imp ?_).symm
      rintro rfl
      exact ⟨tracking, names.mp e⟩
    · obtain ⟨_, rfl⟩ := yields_pure.mp h₂
      refine (Tables.Clears.nothing _).congr fun table key => ⟨False.elim, ?_⟩
      rintro ⟨_, rfl, _, h⟩
      exact ne (names.mpr h)
  · obtain ⟨_, rfl⟩ := yields_pure.mp h
    exact (Tables.Clears.nothing _).congr fun _ _ => ⟨False.elim, fun h => off h.2.2.1⟩

/-- The record of a message goes, and its pointer if that names the thread. -/
theorem clears_purgeMessage (given : thread ≠ "") (h : (s.purgeMessage thread id).Yields t u t') :
    t.Clears t' (s.keys.Rowed s.config.trackMessageThreads t thread (· = id)) := by
  obtain ⟨_, t₁, h₁, h₂⟩ := yields_bind.mp h
  obtain ⟨_, rfl⟩ := yields_ask.mp h₁
  refine ((Tables.Clears.delete _ _ _).trans (clears_forgetPointer given h₂)).congr
    fun table key => ?_
  cases table <;> simp [Keyspace.Rowed, Tables.get?_delete, and_left_comm]

/-- The rows of some messages go. -/
theorem clears_purgeMessages (given : thread ≠ "") : ∀ {ids : List String} {t : Tables},
    (Action.forAll (s.purgeMessage thread) ids).Yields t u t' →
      t.Clears t' (s.keys.Rowed s.config.trackMessageThreads t thread (· ∈ ids))
  | [], t, h => by
    obtain ⟨_, rfl⟩ := yields_done.mp h
    refine (Tables.Clears.nothing _).congr fun table key => ?_
    cases table <;> simp [Keyspace.Rowed]
  | id :: rest, t, h => by
    obtain ⟨_, t₁, h₁, h₂⟩ := yields_bind.mp h
    have first := clears_purgeMessage given h₁
    exact (first.trans (clears_purgeMessages given h₂)).congr (Keyspace.rowed_cons first)

/-- The rows of some messages go, and those of the order and the thread. -/
theorem clears_purge (given : thread ≠ "") {ids : List String}
    (h : (s.purge thread ids).Yields t u t') :
    t.Clears t' (s.keys.Purged s.config.trackMessageThreads t thread ids) := by
  rw [purge_inOrder] at h
  obtain ⟨_, t₁, h₁, after⟩ := yields_bind.mp h
  obtain ⟨_, t₂, h₂, h₃⟩ := yields_bind.mp after
  obtain ⟨_, rfl⟩ := yields_ask.mp (yields_exclusively.mp h₂)
  obtain ⟨_, rfl⟩ := yields_ask.mp h₃
  exact (clears_purgeMessages given h₁).trans
    ((Tables.Clears.delete _ _ _).trans (Tables.Clears.delete _ _ _))

/-- All rows of a thread go, whatever the tables hold. -/
theorem clears_deleteThread (h : (s.deleteThread thread).Yields t u t') :
    Identifier.Valid thread ∧
      t.Clears t' (s.keys.OfThread s.config.trackMessageThreads t thread) := by
  obtain ⟨_, t₁, h₁, after⟩ := yields_bind.mp h
  obtain ⟨valid, rfl⟩ := yields_check.mp h₁
  replace valid := Identifier.violations_eq_nil.mp valid
  have given := valid.ne_empty
  obtain ⟨found, t₂, h₂, after⟩ := yields_bind.mp after
  obtain ⟨rfl, _⟩ := yields_threadExists h₂
  cases found with
  | false => exact absurd after not_yields_fail
  | true =>
    obtain ⟨ids, t₃, h₃, purged⟩ := yields_bind.mp after
    obtain ⟨rfl, _, mem⟩ := yields_messageIds h₃
    exact ⟨valid, (clears_purge given purged).widen (fun _ _ => Keyspace.Purged.ofThread mem)
      fun _ _ => Keyspace.absent_of_not_purged mem⟩

/-- Nothing in a deletion handles an error, so one that goes well has had no failed call. -/
theorem strict_deleteThread (s : Store) (thread : String) : (s.deleteThread thread).Strict := by
  have reports : (s.deleteThread thread).Reports s.keys fun _ => True :=
    reports_bind (s.reports_check fun _ => trivial) fun _ =>
      reports_bind (s.reports_threadExists (fun _ _ => trivial) thread) fun _ => reports_ite
        (reports_bind (s.reports_messageIds thread) fun ids => s.reports_purge thread ids .inOrder)
        trivial
  exact reports.strict

/--
If a thread is deleted with success, whatever calls may fail, its record, its order and all rows with
its beginning are gone, and with tracking on the pointers of its messages that named it. Nothing else
is changed: no other record of a thread, no message of another thread, even if the id of that thread
begins with that of the deleted one or if it has a message of the same id, no resource and no other
pointer.
-/
theorem deletes_one_thread (s : Store) (faults : Faults) {w w' : World} {thread : String}
    (identified : s.keys.Identified w.tables)
    (run : (s.deleteThread thread).run faults w = (.ok (), w')) :
    s.keys.Removes s.config.trackMessageThreads thread w.tables w'.tables := by
  obtain ⟨valid, clears⟩ := clears_deleteThread (yields_of_run (s.strict_deleteThread thread) run)
  exact identified.removes valid.plain clears

end Store

/-! ## A sample -/

namespace Sample

/-- Two threads with a message each, the id of one being the beginning of that of the other, which has
a copy of its message. -/
def prefixed : World :=
  let s := store true
  let w := (s.performAll Faults.none [(now, .saveThread (.create now "a" "r")),
    (now, .saveThread (.create now "ab" "r")),
    (now, .saveMessages [message "a", { message "ab" with id := "n" }])] World.initial).2
  { w with tables := w.tables.put .messages (s.keys.message "ab" "m") ((message "ab").toRecord 0) }

theorem identified_prefixed : (store true).keys.Identified prefixed.tables :=
  Keyspace.identified_of_keys [("a", "m"), ("a", "messages"), ("ab", "m"), ("ab", "messages"),
    ("ab", "n")] (by decide) (by decide +kernel)

end Sample

/-- The copy and the pointer of the other message stay. -/
theorem Store.deletes_first_thread :
    (Sample.store true).keys.Identified Sample.prefixed.tables ∧
      ∃ w', ((Sample.store true).deleteThread "a").run Faults.none Sample.prefixed = (.ok (), w') ∧
        (Sample.store true).keys.Removes true "a" Sample.prefixed.tables w'.tables := by
  have succeeds : (((Sample.store true).deleteThread "a").run Faults.none
      Sample.prefixed).1.toOption = some () := by decide +kernel
  refine ⟨Sample.identified_prefixed, ?_⟩
  generalize run : ((Sample.store true).deleteThread "a").run Faults.none Sample.prefixed = out
    at succeeds
  obtain ⟨result, w'⟩ := out
  cases result with
  | error _ => exact absurd succeeds (by simp [Except.toOption])
  | ok _ =>
    exact ⟨w', rfl, deletes_one_thread (Sample.store true) Faults.none Sample.identified_prefixed run⟩

example : let t := (((Sample.store true).deleteThread "a").run Faults.none Sample.prefixed).2.tables
    (t.threads.entries.map (·.1), t.messages.entries.map (·.1), t.messageThreads.entries.map (·.1))
      = (["threads:ab"], ["messages:ab:m", "messages:ab:messages", "messages:ab:n"],
        ["message_threads:n"]) := by decide +kernel

end ChatMemory
