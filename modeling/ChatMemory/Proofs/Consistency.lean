import ChatMemory.Proofs.Repairs
import ChatMemory.Proofs.Rules
import ChatMemory.Proofs.Steps
import ChatMemory.Storage.Fault

/-!
# Histories without failures

As long as no call fails, whatever operations are performed, in whatever order and with whatever
arguments, the four tables agree with each other: messages stand under threads that exist and say so
themselves, each id is in one thread, the orders list exactly what the threads have, and the pointers
point exactly to where the messages are.

For one message that is said by its view (`View.Fine`), and each kind of step keeps it.

## Main statements

* `Step.consistent` — a step without failures keeps contents consistent.
* `performAll_consistent` — so does every history from empty tables on.
-/

namespace ChatMemory

namespace View

/-- A whole message whose pointer, if pointers are kept, points to where it is. -/
structure Fine (tracking : Bool) (has : String → Prop) (w : View) : Prop where
  whole : w.Whole has
  pointed : tracking = true → ∀ p, w.pointer = some p ↔ ∃ thread, p = .str thread ∧ w.Holds thread

variable {tracking : Bool} {has : String → Prop} {w w' : View} {now : Instant}
  {x v before after : Message} {u : MessageUpdate} {position : Nat}
  {thread origin destination : String}

theorem At.fine (h : w.At has thread) (pointer : tracking = true → w.pointer = some (.str thread)) :
    w.Fine tracking has where
  whole := Or.inr ⟨thread, h⟩
  pointed ht p := by
    rw [pointer ht, Option.some.injEq]
    constructor
    · rintro rfl
      exact ⟨thread, rfl, (h.holds thread).mpr rfl⟩
    · rintro ⟨other, rfl, ho⟩
      rw [(h.holds other).mp ho]

theorem Nowhere.fine (h : w.Nowhere has) (pointer : tracking = true → w.pointer = none) :
    w.Fine tracking has where
  whole := Or.inl h
  pointed ht p := by
    rw [pointer ht]
    refine ⟨fun e => absurd e (by simp), ?_⟩
    rintro ⟨other, _, ho⟩
    exact absurd ho (h.holds other)

theorem Fine.pointer (h : w.Fine tracking has) (at_ : w.At has thread) (ht : tracking = true) :
    w.pointer = some (.str thread) :=
  (h.pointed ht _).mpr ⟨thread, rfl, (at_.holds thread).mpr rfl⟩

theorem Fine.not_pointed (h : w.Fine tracking has) (nowhere : w.Nowhere has)
    (ht : tracking = true) : w.pointer = none := by
  cases hp : w.pointer with
  | none => rfl
  | some p =>
    obtain ⟨other, _, ho⟩ := (h.pointed ht p).mp hp
    exact absurd ho (nowhere.holds other)

theorem pointer_noted (w : View) (thread : String) (ht : tracking = true) :
    (w.noted tracking thread).pointer = some (.str thread) := by
  rw [noted, if_pos ht, pointer_setPointer]

/-! ## Moving, saving and changing -/

theorem Fine.moved (h : w.Fine tracking has) (finds : w.Holds origin)
    (apart : origin ≠ x.threadId) (there : has x.threadId) :
    (w.moved tracking now x origin).Fine tracking has := by
  rcases h.whole with nowhere | ⟨thread, at_⟩
  · exact absurd finds (nowhere.holds origin)
  · obtain rfl := (at_.holds origin).mp finds
    exact ((at_.torn x.threadId).moved apart there).fine fun ht => pointer_noted _ _ ht

theorem Fine.underway (h : w.Fine tracking has)
    (leaves : w.Leaves has origin before destination)
    (underway : w.Underway tracking now (before.into destination) origin False w') :
    w'.Fine tracking has := by
  rcases underway with ⟨failed, _⟩ | rfl
  · exact failed.elim
  · exact h.moved leaves.record.holds leaves.apart leaves.there

theorem Fine.homed (h : w.Fine tracking has)
    (homed : w.Homed tracking now has destination w') : w'.Fine tracking has := by
  rcases homed with ⟨_, rfl⟩ | ⟨_, rfl⟩ | ⟨origin, before, finds, leaves, rfl⟩
  · exact h
  · exact h
  · exact h.moved finds.holds leaves.apart leaves.there

theorem fine_saved (h : w.Nowhere has ∨ w.At has v.threadId) (there : has v.threadId) :
    (w.saved tracking v position).Fine tracking has :=
  (Whole.saved_at h there).fine fun ht => pointer_noted _ _ ht

theorem Fine.stored (h : w.Fine tracking has) (there : has v.threadId)
    (stored : w.Stored tracking v position now has w') : w'.Fine tracking has := by
  obtain ⟨w₁, homed, rfl⟩ := stored
  exact fine_saved (h.whole.homed homed) there

theorem Fine.storing (h : w.Fine tracking has) (there : has v.threadId)
    (storing : w.Storing tracking v position now has False w') : w'.Fine tracking has := by
  rcases storing with (rfl | ⟨origin, before, _, leaves, underway⟩) | ⟨w₁, homed, saving⟩
  · exact h
  · exact h.underway leaves underway
  · rcases saving with rfl | rfl | ⟨failed, _⟩
    · exact h.homed homed
    · exact fine_saved (h.whole.homed homed) there
    · exact failed.elim

theorem Fine.replaced (h : w.Fine tracking has) (holds : w.Holds after.threadId) :
    (w.replaced before after).Fine tracking has := by
  rcases h.whole with nowhere | ⟨thread, at_⟩
  · exact absurd holds (nowhere.holds _)
  · obtain rfl := (at_.holds _).mp holds
    refine at_.replaced.fine fun ht => ?_
    have same : (w.replaced before after).pointer = w.pointer := by
      unfold View.replaced
      split <;> rfl
    rw [same, h.pointer at_ ht]

theorem Fine.updated (h : w.Fine tracking has)
    (named : ∀ thread x, w.IsRecord thread x → x.threadId = thread) {y : Message}
    (updated : w.Updated tracking now has u y w') : w'.Fine tracking has := by
  obtain ⟨current, before, finds, record, ⟨_, rfl, rfl⟩ | ⟨destination, _, leaves, rfl, rfl⟩⟩ :=
    updated
  · exact h.replaced (record.holds_apply named u)
  · exact h.moved finds.holds leaves.apart leaves.there

theorem Fine.updating (h : w.Fine tracking has)
    (named : ∀ thread x, w.IsRecord thread x → x.threadId = thread)
    (updating : w.Updating tracking now has u False w') : w'.Fine tracking has := by
  rcases updating with rfl | ⟨current, before, finds, record, ⟨_, replacing⟩ |
    ⟨destination, _, leaves, underway⟩⟩
  · exact h
  · rcases replacing with rfl | rfl | ⟨failed, _⟩
    · exact h
    · exact h.replaced (record.holds_apply named u)
    · exact failed.elim
  · rcases underway with ⟨failed, _⟩ | rfl
    · exact failed.elim
    · exact h.moved finds.holds leaves.apart leaves.there

/-! ## Deleting and reconciling -/

/-- A message of a thread that was emptied is nowhere. -/
theorem Fine.emptied (h : w.Fine tracking has) (hne : thread ≠ "") (holds : w.Holds thread)
    (emptied : (w.setRecord thread none).Forgot tracking thread w') :
    (w'.setScore thread none).Fine tracking fun other => other ≠ thread ∧ has other := by
  rcases h.whole with nowhere | ⟨other, at_⟩
  · exact absurd holds (nowhere.holds thread)
  · obtain rfl := (at_.holds thread).mp holds
    refine Nowhere.fine ⟨fun other ho => ?_, fun other ht hl => ?_⟩ fun ht => ?_
    · rw [holds_setScore, emptied.holds, holds_setRecord_none, at_.holds] at ho
      exact ho.1 ho.2
    · rw [lists_setScore_none, emptied.lists, lists_setRecord, at_.lists other ht.2] at hl
      exact hl.1 hl.2
    · rcases emptied with ⟨_, _, rfl⟩ | ⟨hno, _⟩
      · rfl
      · exact absurd ⟨ht, h.pointer at_ ht, hne⟩ hno

/-- A message of another thread stays where it is. -/
theorem Fine.closed (h : w.Fine tracking has) (holds : ¬ w.Holds thread) :
    (w.setScore thread none).Fine tracking fun other => other ≠ thread ∧ has other := by
  rcases h.whole with nowhere | ⟨other, at_⟩
  · refine Nowhere.fine ⟨nowhere.holds, fun other ht hl => ?_⟩ (h.not_pointed nowhere)
    exact nowhere.lists other ht.2 (lists_setScore_none.mp hl).2
  · have hne : other ≠ thread := fun e => holds (e ▸ (at_.holds other).mpr rfl)
    have there : other ≠ thread ∧ has other := ⟨hne, at_.there⟩
    refine At.fine ⟨there, at_.holds, fun t ht => ?_⟩ (h.pointer at_)
    rw [lists_setScore_none, at_.lists t ht.2]
    exact ⟨fun hl => hl.2, fun e => ⟨ht.1, e⟩⟩

theorem Fine.reconciled (h : w.Fine tracking has) (housed : ∀ thread, w.Holds thread → has thread)
    (reconciled : w.Reconciled tracking thread w') : w'.Fine tracking has := by
  have whole := h.whole.reconciling housed (.finished reconciled)
  rcases reconciled with ⟨_, rfl⟩ | ⟨_, _, rfl⟩ | ⟨hx, stays, rfl⟩ | ⟨hx, goes, _⟩
  · exact ⟨whole, h.pointed⟩
  · exact h
  · have holds : ∀ y, ((w.kept thread y).noted tracking thread).Holds thread := fun y =>
      holds_noted.mpr hx.holds
    rcases whole with nowhere | ⟨other, at_⟩
    · exact absurd (holds _) (nowhere.holds thread)
    · obtain rfl := (at_.holds thread).mp (holds _)
      exact at_.fine fun ht => pointer_noted _ _ ht
  · rcases h.whole with nowhere | ⟨other, at_⟩
    · exact absurd hx.holds (nowhere.holds thread)
    · obtain rfl := (at_.holds thread).mp hx.holds
      exact absurd (Or.inl at_.listed) goes

/-- A thread that is new makes no difference to a message. -/
theorem Fine.created (h : w.Fine tracking has) (unlisted : ¬ has thread → ¬ w.Lists thread) :
    w.Fine tracking fun other => other = thread ∨ has other := by
  refine ⟨?_, h.pointed⟩
  have lists : ∀ other, (other = thread ∨ has other) → w.Lists other → has other := by
    rintro other (rfl | ht) hl
    · exact Classical.byContradiction fun hno => unlisted hno hl
    · exact ht
  rcases h.whole with nowhere | ⟨other, at_⟩
  · exact Or.inl ⟨nowhere.holds, fun t ht hl => nowhere.lists t (lists t ht hl) hl⟩
  · refine Or.inr ⟨other, Or.inr at_.there, at_.holds, fun t ht => ⟨fun hl => ?_, fun e => ?_⟩⟩
    · exact (at_.lists t (lists t ht hl)).mp hl
    · exact e ▸ at_.listed

end View

/-! ## Contents -/

namespace Contents

/-- Contents in which everything agrees. -/
structure Consistent (tracking : Bool) (c : Contents) : Prop extends Founded .written c where
  fine : ∀ id, (c.view id).Fine tracking c.HasThread
  sorted : ∀ thread, StoredOrder.Sorted (c.index thread)

variable {tracking : Bool} {now : Instant} {c c' : Contents} {names : String → Prop}

namespace Consistent

/-- Messages that are not named stay as they are. -/
theorem follows (h : Consistent tracking c) (f : Follows .written names c c')
    (view : ∀ id, names id → (c'.view id).Fine tracking c.HasThread) : Consistent tracking c' where
  toFounded := f.founded h.toFounded
  fine id := by
    rw [f.within.threads]
    by_cases hid : names id
    · exact view id hid
    · rw [f.within.view id hid]
      exact h.fine id
  sorted thread := f.within.sorted thread (h.sorted thread)

theorem updates (h : Consistent tracking c) {us : List MessageUpdate} {ys : List Message}
    (updates : Updates .written tracking now us ys c c') : Consistent tracking c' := by
  induction updates with
  | nil _ => exact h
  | @cons u _ _ _ c _ _ follows updated _ ih =>
    refine ih (h.follows follows ?_)
    rintro _ rfl
    exact (h.fine u.id).updated (h.named u.id) updated

theorem interrupted (h : Consistent tracking c) {us : List MessageUpdate}
    (interrupted : Interrupted .written tracking now False us c c') : Consistent tracking c' := by
  induction interrupted with
  | @here u _ c _ follows updating =>
    refine h.follows follows ?_
    rintro _ rfl
    exact (h.fine u.id).updating (h.named u.id) updating
  | @later u _ _ c _ _ follows updated _ ih =>
    refine ih (h.follows follows ?_)
    rintro _ rfl
    exact (h.fine u.id).updated (h.named u.id) updated

theorem created (h : Consistent tracking c) {thread : String} (valid : Identifier.Valid thread)
    (v : Json) : Consistent tracking (c.setThread thread (some v)) where
  toFounded := h.toFounded.created valid v
  fine id := by
    have has : (c.setThread thread (some v)).HasThread
        = fun other => other = thread ∨ c.HasThread other :=
      funext fun other => propext (hasThread_created valid.ne_empty v other)
    rw [has, view_setThread]
    refine (h.fine id).created fun hno => ?_
    rw [View.Lists, score_view, h.absent hno]
    exact fun hl => hl rfl
  sorted := h.sorted

theorem changed (h : Consistent tracking c) {thread : String} (there : c.thread thread ≠ none)
    (v : Json) : Consistent tracking (c.setThread thread (some v)) where
  toFounded := h.toFounded.changed there v
  fine id := by
    rw [hasThread_setThread there]
    exact h.fine id
  sorted := h.sorted

theorem closed (h : Consistent tracking c) {thread : String} {c₁ : Contents}
    (there : c.HasThread thread) (emptied : Emptied .written tracking thread c c₁) :
    Consistent tracking (c₁.closed thread) where
  toFounded := h.toFounded.closed emptied
  fine id := by
    have has : (c₁.closed thread).HasThread
        = fun other => other ≠ thread ∧ c.HasThread other := by
      funext other
      rw [← emptied.follows.within.threads]
      exact propext (hasThread_closed ..)
    rw [has, view_closed]
    by_cases hid : c.Holds thread id
    · exact (h.fine id).emptied there.1 hid (emptied.view id hid)
    · rw [emptied.follows.within.view id hid]
      exact (h.fine id).closed hid
  sorted other := by
    show StoredOrder.Sorted (if other = thread then none else c₁.index other)
    split
    · exact StoredOrder.sorted_none
    · exact emptied.follows.within.sorted other (h.sorted other)

end Consistent

theorem consistent_empty : Consistent tracking empty where
  toFounded := founded_empty
  fine _ := View.Nowhere.fine ⟨fun _ hh => hh rfl, fun _ _ hl => hl rfl⟩ fun _ => rfl
  sorted _ := StoredOrder.sorted_none

/-- A step without failures keeps contents consistent. -/
theorem Step.consistent {op : Operation} (step : Step .written tracking now False c c' op)
    (h : Consistent tracking c) : Consistent tracking c' := by
  cases step with
  | same e => exact e ▸ h
  | created valid e => exact e ▸ h.created valid _
  | changed there e => exact e ▸ h.changed there _
  | saved there f view =>
    refine h.follows f ?_
    rintro _ ⟨v, hv, rfl⟩
    obtain ⟨position, stored⟩ := view v hv
    exact (h.fine v.id).stored (there v hv) stored
  | saving there f view =>
    refine h.follows f ?_
    rintro _ ⟨v, hv, rfl⟩
    obtain ⟨position, storing⟩ := view v hv
    exact (h.fine v.id).storing (there v hv) storing
  | updated hu => exact h.updates hu
  | updating hu => exact h.interrupted hu
  | moved f leaves view =>
    refine h.follows f ?_
    rintro _ rfl
    exact (h.fine _).underway leaves view
  | deleted there emptied e => exact e ▸ h.closed there emptied
  | deleting failed _ _ _ => exact failed.elim
  | reconciled e hr =>
    cases hr with
    | existing _ f view =>
      exact h.follows f fun id _ => (h.fine id).reconciled (fun _ hh => h.housed hh) (view id)
    | gone absent e =>
      rcases e with rfl | rfl
      · exact h
      · rw [← h.absent fun ht => ht.2 absent, setIndex_self]
        exact h
  | reconciling failed _ _ => exact failed.elim

end Contents

/-! ## Tables -/

/-- Tables that agree with each other. -/
structure Tables.Consistent (k : Keyspace) (tracking : Bool) (t : Tables) : Prop where
  /-- A message stands under a thread that exists, and its record tells its id and its thread. -/
  placed : ∀ thread id r, IsMessage id → t.get? .messages (k.message thread id) = some r →
    t.get? .threads (k.thread thread) ≠ none ∧ r.field? "id" = some (.str id) ∧
      r.field? "threadId" = some (.str thread)
  /-- No message is in two threads. -/
  unique : ∀ thread other id, IsMessage id → t.get? .messages (k.message thread id) ≠ none →
    t.get? .messages (k.message other id) ≠ none → thread = other
  /-- The order of a thread decodes, is strictly sorted, and holds each message of the thread once. -/
  ordered : ∀ thread, t.get? .threads (k.thread thread) ≠ none →
    ∃ entries, OrderEntry.ofStored (t.get? .messages (k.order thread)) = .ok entries ∧
      OrderSnapshot.Tidy entries ∧ ∀ id, (∃ e ∈ entries, e.id = id) ↔
        IsMessage id ∧ t.get? .messages (k.message thread id) ≠ none
  /-- What is no thread has no order. -/
  closed : ∀ thread, t.get? .threads (k.thread thread) = none →
    t.get? .messages (k.order thread) = none
  /-- The pointers that are kept are those of the messages to their threads. -/
  pointed : tracking = true → ∀ id p, t.get? .messageThreads (k.pointer id) = some p ↔
    ∃ thread, p = .str thread ∧ IsMessage id ∧ t.get? .messages (k.message thread id) ≠ none

namespace Contents.Consistent

variable {k : Keyspace} {t : Tables} {tracking : Bool} {thread id : String}

theorem holds_contents : (k.contents t).Holds thread id ↔
    IsMessage id ∧ t.get? .messages (k.message thread id) ≠ none := by
  constructor
  · intro h
    have hi := isMessage_of_holds h
    exact ⟨hi, by rwa [Holds, record_contents hi] at h⟩
  · rintro ⟨hi, h⟩
    rwa [Holds, record_contents hi]

theorem lists_iff_holds {c : Contents} (h : Consistent tracking c) (thread id : String) :
    (c.view id).Lists thread ↔ c.Holds thread id := by
  by_cases there : c.HasThread thread
  · exact ((View.whole_iff fun _ hh => h.housed hh).mp (h.fine id).whole).2 thread there
  · refine ⟨fun hl => absurd ?_ hl, fun hh => absurd (h.hasThread hh) there⟩
    rw [score_view, h.absent there, StoredOrder.score?_none]

/-- The key of an order in front of which there is no thread is not taken by a message either. -/
theorem order_eq_none (h : Consistent tracking (k.contents t))
    (hno : t.get? .threads (k.thread thread) = none) :
    t.get? .messages (k.order thread) = none := by
  by_cases plain : Plain thread
  · rw [← index_contents plain]
    exact h.absent fun ht => ht.2 hno
  · obtain ⟨first, rest, _, same⟩ := Keyspace.message_of_not_plain k plain
    have joined := Keyspace.not_plain_joined rest Keyspace.orderField
    rw [Keyspace.order_eq_message, same, ← record_contents (Keyspace.isMessage_of_not_plain joined)]
    cases hr : (k.contents t).record first (rest ++ ":" ++ Keyspace.orderField) with
    | none => rfl
    | some r => exact absurd (h.placed hr).2.2.1.plain joined

/-- What consistent contents say of the tables. -/
theorem tables (h : Consistent tracking (k.contents t)) : t.Consistent k tracking where
  placed thread id r hi hr := by
    rw [← record_contents hi] at hr
    obtain ⟨there, _, _, x, rfl, rfl, hx⟩ := h.placed hr
    exact ⟨there.2, hx.field?⟩
  unique thread other id hi ht ho := by
    refine ((View.whole_iff fun _ hh => h.housed hh).mp (h.fine id).whole).1 thread other ?_ ?_
    · exact holds_contents.mpr ⟨hi, ht⟩
    · exact holds_contents.mpr ⟨hi, ho⟩
  ordered thread there := by
    have plain : Plain thread := by
      by_cases hne : thread = ""
      · rw [hne]
        decide
      · have there : (k.contents t).HasThread thread := ⟨hne, there⟩
        exact (h.valid there).plain
    obtain ⟨entries, he, tidy⟩ := h.sorted thread
    refine ⟨entries, by rwa [← index_contents plain], tidy, fun id => ?_⟩
    rw [← holds_contents, ← h.lists_iff_holds thread id, ← OrderSnapshot.contains_ofEntries]
    exact (StoredOrder.lists_iff_contains he).symm
  closed thread := h.order_eq_none
  pointed ht id p := by
    refine ((h.fine id).pointed ht p).trans ?_
    constructor
    · rintro ⟨thread, rfl, hh⟩
      exact ⟨thread, rfl, holds_contents.mp hh⟩
    · rintro ⟨thread, rfl, hh⟩
      exact ⟨thread, rfl, holds_contents.mpr hh⟩

end Contents.Consistent

/-- After every history without failures, from empty tables on, everything agrees. -/
theorem Store.contents_consistent (s : Store) (history : List (Instant × Operation)) :
    (s.keys.contents (s.performAll Faults.none history World.initial).2.tables).Consistent
      s.config.trackMessageThreads := by
  have inactive : Faults.none.Active = False := eq_false Faults.not_active_none
  refine performAll_invariant (R := .written)
    (I := Contents.Consistent s.config.trackMessageThreads) (fun _ h => h.toOrderly) history
    (fun e _ => ?_)
    (fun e _ c c' h step => ?_) ?_
  · exact e.2.dated_of_forall fun _ => trivial
  · rw [inactive] at step
    exact step.consistent h
  · show Contents.Consistent _ (s.keys.contents Tables.empty)
    rw [Contents.contents_empty]
    exact Contents.consistent_empty

/-- The tables agree with each other, too. -/
theorem Store.performAll_consistent (s : Store) (history : List (Instant × Operation)) :
    (s.performAll Faults.none history World.initial).2.tables.Consistent s.keys
      s.config.trackMessageThreads := (s.contents_consistent history).tables

/-- All messages can be read if all rows but those of orders can. -/
theorem Keyspace.isOk_of_rows {k : Keyspace} {t : Tables} {threads : List String}
    (plain : ∀ thread ∈ threads, Plain thread)
    (rows : ∀ e ∈ t.messages.entries, e.1 ∈ threads.map k.order ∨ (Message.ofRecord e.2).isOk = true)
    {thread id : String} {r : Json} (hr : (k.contents t).record thread id = some r) :
    (Message.ofRecord r).isOk = true := by
  have hi : IsMessage id := Contents.isMessage_of_holds (by rw [Contents.Holds, hr]; simp)
  rw [Contents.record_contents hi] at hr
  refine (rows _ (Rows.mem_entries_iff.mpr hr)).resolve_left fun hm => ?_
  obtain ⟨other, ho, same⟩ := List.mem_map.mp hm
  rw [order_eq_message] at same
  have named := (message_eq_plain_iff (plain other ho) plain_orderField).mp same.symm
  exact hi.2 named.2

/-! ## A sample -/

namespace Sample

def now : Instant := .ofNanos 0

def store (tracking : Bool) : Store := ⟨⟨""⟩, { trackMessageThreads := tracking }⟩

def message (thread : String) : Message := .user now "m" thread "r" "text"

/-- Two threads are created, and then a message in one of them. -/
def history (home : String) : List (Instant × Operation) :=
  [(now, .saveThread (.create now "a" "r")), (now, .saveThread (.create now "b" "r")),
    (now, .saveMessages [message home])]

def world (tracking : Bool) (home : String) : World :=
  ((store tracking).performAll Faults.none (history home) World.initial).2

/-- The order of a thread cannot be read. -/
def stopped (thread : String) : Faults :=
  FaultRule.faults [⟨some "get", none, some ("messages:" ++ thread ++ ":messages")⟩]

variable {tracking : Bool} {home thread : String} {t : Tables}

theorem consistent : ((store tracking).keys.contents (world tracking home).tables).Consistent
    (store tracking).config.trackMessageThreads := by
  unfold world
  exact (store tracking).contents_consistent (history home)

theorem holds_of_isSome (h : (t.get? .messages ((store tracking).keys.message thread "m")).isSome) :
    ((store tracking).keys.contents t).Holds thread "m" := by
  rw [Contents.Holds, Contents.record_contents (by decide)]
  exact Option.isSome_iff_ne_none.mp h

theorem decodes (h : t.threads.entries.all fun e => (Thread.ofJson e.2).isOk)
    (there : ((store tracking).keys.contents t).HasThread thread) :
    ∃ x, ((store tracking).keys.contents t).IsThread thread x := by
  obtain ⟨r, hr⟩ := Option.ne_none_iff_exists'.mp there.2
  have ok := List.all_eq_true.mp h _ (Rows.mem_entries_iff.mpr hr)
  cases hx : Thread.ofJson r with
  | ok x => exact ⟨x, r, hr, hx⟩
  | error cause => exact absurd ok (by simp [hx, Except.isOk, Except.toBool])

theorem mem_of_hasThread {threads : List String}
    (h : t.threads.entries.map (·.1) = threads.map (store tracking).keys.thread)
    (there : ((store tracking).keys.contents t).HasThread thread) : thread ∈ threads := by
  obtain ⟨r, hr⟩ := Option.ne_none_iff_exists'.mp there.2
  have mem : (store tracking).keys.thread thread ∈ t.threads.entries.map (·.1) :=
    List.mem_map_of_mem (f := (·.1)) (Rows.mem_entries_iff.mpr hr)
  rw [h, List.mem_map] at mem
  obtain ⟨other, hm, e⟩ := mem
  exact (store tracking).keys.thread_inj.mp e ▸ hm

theorem eq_of_hasThread (h : t.threads.entries.map (·.1) = ["threads:a", "threads:b"])
    (there : ((store tracking).keys.contents t).HasThread thread) : thread = "a" ∨ thread = "b" := by
  have mem : thread ∈ ["a", "b"] := mem_of_hasThread (h.trans rfl) there
  simpa using mem

end Sample

end ChatMemory
