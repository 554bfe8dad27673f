import ChatMemory.Proofs.Rules
import ChatMemory.Proofs.Settling
import ChatMemory.Proofs.Steps

/-!
# Messages in one thread only

As long as no call fails, no message gets into two threads if none was before, whatever the orders
list and whatever the pointers say (`Contents.Single`). A move is the only change that puts a copy
into another thread, and it comes to its end, since all orders can be read.

So wherever a search looks first, it finds the same thread.

## Main statements

* `Step.single` — a step without failures leaves every message in one thread at most.
* `Tables.Single.contents` — what is asked of the tables.
* `Contents.Single.finds_iff` — a search finds a message just where it is.
-/

namespace ChatMemory

namespace View

/-- No two threads hold the message. -/
def Single (w : View) : Prop := ∀ thread other, w.Holds thread → w.Holds other → thread = other

variable {w w' : View} {has : String → Prop} {tracking : Bool} {now : Instant}
  {x y v before : Message} {u : MessageUpdate} {position : Nat} {origin destination thread : String}

theorem Single.mono (h : w.Single) (less : ∀ thread, w'.Holds thread → w.Holds thread) :
    w'.Single := fun thread other ht ho => h thread other (less thread ht) (less other ho)

theorem single_of_only (only : ∀ other, w.Holds other → other = thread) : w.Single :=
  fun first second h h' => (only first h).trans (only second h').symm

/-! ## Moving, saving and changing -/

/-- A message that was in one thread only is in its new thread only after a move. -/
theorem Single.moved (h : w.Single) (held : w.Holds origin) :
    ∀ other, (w.moved tracking now x origin).Holds other → other = x.threadId := by
  intro other ho
  obtain ⟨hne, e | ho⟩ := (holds_moved ..).mp ho
  · exact e
  · exact absurd (h other origin ho held) hne

theorem Single.underway (h : w.Single) (held : w.Holds origin)
    (underway : w.Underway tracking now x origin False w') : w'.Single := by
  rcases underway with ⟨failed, _⟩ | rfl
  · exact failed.elim
  · exact single_of_only (h.moved held)

theorem Single.homed (h : w.Single) (homed : w.Homed tracking now has destination w') :
    ∀ other, w'.Holds other → other = destination := by
  rcases homed with ⟨hno, rfl⟩ | ⟨finds, rfl⟩ | ⟨origin, before, finds, _, rfl⟩
  · exact fun other ho => absurd ho (hno other)
  · exact fun other ho => h other destination ho finds.holds
  · exact h.moved finds.holds

theorem single_saved (only : ∀ other, w.Holds other → other = v.threadId) :
    (w.saved tracking v position).Single :=
  single_of_only fun other ho => (holds_saved.mp ho).elim id (only other)

theorem Single.stored (h : w.Single) (stored : w.Stored tracking v position now has w') :
    w'.Single := by
  obtain ⟨w₁, homed, rfl⟩ := stored
  exact single_saved (h.homed homed)

theorem Single.storing (h : w.Single) (storing : w.Storing tracking v position now has False w') :
    w'.Single := by
  rcases storing with (rfl | ⟨origin, before, finds, _, underway⟩) | ⟨w₁, homed, saving⟩
  · exact h
  · exact h.underway finds.holds underway
  · rcases saving with rfl | rfl | ⟨failed, _⟩
    · exact single_of_only (h.homed homed)
    · exact single_saved (h.homed homed)
    · exact failed.elim

theorem Single.replaced (h : w.Single) (held : w.Holds x.threadId) :
    (w.replaced before x).Single :=
  h.mono fun _ ho => (holds_replaced.mp ho).elim (fun e => e ▸ held) id

theorem Single.updated (h : w.Single) (named : ∀ thread x, w.IsRecord thread x → x.threadId = thread)
    (updated : w.Updated tracking now has u y w') : w'.Single := by
  obtain ⟨current, before, finds, record, ⟨_, rfl, rfl⟩ | ⟨destination, _, _, rfl, rfl⟩⟩ := updated
  · exact h.replaced (record.holds_apply named u)
  · exact single_of_only (h.moved finds.holds)

theorem Single.updating (h : w.Single) (named : ∀ thread x, w.IsRecord thread x → x.threadId = thread)
    (updating : w.Updating tracking now has u False w') : w'.Single := by
  rcases updating with rfl | ⟨current, before, finds, record, ⟨_, replacing⟩ |
    ⟨destination, _, _, underway⟩⟩
  · exact h
  · rcases replacing with rfl | rfl | ⟨failed, _⟩
    · exact h
    · exact h.replaced (record.holds_apply named u)
    · exact failed.elim
  · exact h.underway finds.holds underway

/-! ## Deleting and reconciling -/

theorem Single.erased (h : w.Single) (forgot : (w.setRecord thread none).Forgot tracking thread w') :
    w'.Single :=
  h.mono fun _ ho => (holds_setRecord_none.mp (by rwa [Holds, forgot.record] at ho)).2

theorem Single.reconciled (h : w.Single) (reconciled : w.Reconciled tracking thread w') :
    w'.Single := by
  rcases reconciled with ⟨_, rfl⟩ | ⟨_, _, rfl⟩ | ⟨_, _, rfl⟩ | ⟨_, _, forgot⟩
  · exact h
  · exact h
  · exact h.mono fun _ ho => holds_list.mp (holds_noted.mp ho)
  · exact h.erased forgot

end View

namespace Contents

/-- Records tell where they stand, all orders can be read, and no two threads hold a message. -/
structure Single (c : Contents) : Prop extends Orderly .telling c where
  orders : ∀ thread, StoredOrder.Readable (c.index thread)
  single : ∀ id, (c.view id).Single

variable {c c' c₁ : Contents} {names : String → Prop} {tracking : Bool} {now : Instant}
  {id thread : String}

namespace Single

theorem follows (h : Single c) (f : Follows .telling names c c')
    (view : ∀ id, names id → (c'.view id).Single) : Single c' where
  toOrderly := f.orderly
  orders thread := f.within.readable thread (h.orders thread)
  single id := by
    by_cases hid : names id
    · exact view id hid
    · rw [f.within.view id hid]
      exact h.single id

theorem homed (h : Single c) {v : Message} (f : Follows .telling (· = v.id) c c')
    (homed : (c.view v.id).Homed tracking now c.HasThread v.threadId (c'.view v.id)) :
    Single c' :=
  h.follows f fun _ hid => hid ▸ View.single_of_only ((h.single v.id).homed homed)

theorem updated (h : Single c) {u : MessageUpdate} {y : Message}
    (f : Follows .telling (· = u.id) c c')
    (updated : (c.view u.id).Updated tracking now c.HasThread u y (c'.view u.id)) : Single c' :=
  h.follows f fun _ hid => hid ▸ (h.single u.id).updated (h.named u.id) updated

theorem updates (h : Single c) {us : List MessageUpdate} {ys : List Message}
    (updates : Updates .telling tracking now us ys c c') : Single c' := by
  induction updates with
  | nil _ => exact h
  | cons f updated _ ih => exact ih (h.updated f updated)

theorem interrupted (h : Single c) {us : List MessageUpdate}
    (interrupted : Interrupted .telling tracking now False us c c') : Single c' := by
  induction interrupted with
  | @here u _ c _ f updating =>
    exact h.follows f fun id hid => hid ▸ (h.single u.id).updating (h.named u.id) updating
  | later f updated _ ih => exact ih (h.updated f updated)

theorem created (h : Single c) (valid : Identifier.Valid thread) (v : Json) :
    Single (c.setThread thread (some v)) where
  placed {other id r} hr := by
    obtain ⟨ht, admitted⟩ := h.placed hr
    exact ⟨(hasThread_created valid.ne_empty v other).mpr (Or.inr ht), admitted⟩
  readable _ := h.orders _
  orders := h.orders
  single := h.single

theorem changed (h : Single c) (there : c.thread thread ≠ none) (v : Json) :
    Single (c.setThread thread (some v)) where
  placed hr := by
    rw [hasThread_setThread there]
    exact h.placed hr
  readable _ := h.orders _
  orders := h.orders
  single := h.single

theorem closed (h : Single c) (emptied : Emptied .telling tracking thread c c₁) :
    Single (c₁.closed thread) where
  toOrderly := emptied.orderly_closed
  orders other := by
    show StoredOrder.Readable (if other = thread then none else c₁.index other)
    split
    · exact StoredOrder.sorted_none.readable
    · exact emptied.follows.within.readable other (h.orders other)
  single id := by
    have emptied : Single c₁ := h.follows emptied.follows fun id hid =>
      (h.single id).erased (emptied.view id hid)
    rw [view_closed]
    exact emptied.single id

theorem cleared (h : Single c) (thread : String) : Single (c.setIndex thread none) where
  toOrderly := h.toOrderly.setIndex thread StoredOrder.sorted_none.readable
  orders other := by
    rw [index_setIndex]
    split
    · exact StoredOrder.sorted_none.readable
    · exact h.orders other
  single id := by
    rw [view_cleared]
    exact h.single id

/-- A search finds a message just where it is. -/
theorem finds_iff (h : Single c) :
    (c.view id).Finds tracking c.HasThread thread ↔ c.Holds thread id := by
  refine ⟨View.Finds.holds, fun hh => ?_⟩
  exact View.finds_of_only (h.hasThread hh) hh fun other ho => h.single id other thread ho hh

end Single

/-- A step without failures leaves every message in one thread at most. -/
theorem Step.single {op : Operation} (step : Step .telling tracking now False c c' op)
    (h : Single c) : Single c' := by
  cases step with
  | same e => exact e ▸ h
  | created valid e => exact e ▸ h.created valid _
  | changed there e => exact e ▸ h.changed there _
  | saved _ f view =>
    refine h.follows f ?_
    rintro _ ⟨v, hv, rfl⟩
    obtain ⟨position, stored⟩ := view v hv
    exact (h.single v.id).stored stored
  | saving _ f view =>
    refine h.follows f ?_
    rintro _ ⟨v, hv, rfl⟩
    obtain ⟨position, storing⟩ := view v hv
    exact (h.single v.id).storing storing
  | updated hu => exact h.updates hu
  | updating hu => exact h.interrupted hu
  | moved f leaves view =>
    refine h.follows f ?_
    rintro _ rfl
    exact (h.single _).underway leaves.record.holds view
  | deleted _ emptied e => exact e ▸ h.closed emptied
  | deleting failed _ _ _ => exact failed.elim
  | reconciled _ hr =>
    cases hr with
    | existing _ f view => exact h.follows f fun id _ => (h.single id).reconciled (view id)
    | gone _ e =>
      rcases e with rfl | rfl
      · exact h
      · exact h.cleared _
  | reconciling failed _ _ => exact failed.elim

end Contents

/-! ## Tables -/

/--
Tables in which every message stands in one thread only, under identifiers that keep the rules, and
in which all orders can be read. The pointers may be anything.
-/
structure Tables.Single (k : Keyspace) (t : Tables) : Prop where
  /-- A message stands under a thread that exists. -/
  housed : ∀ {thread id}, id ≠ Keyspace.orderField → k.stored t thread id ≠ none →
    t.get? .threads (k.thread thread) ≠ none
  valid : ∀ {thread id}, id ≠ Keyspace.orderField → k.stored t thread id ≠ none →
    Identifier.Valid thread ∧ Identifier.ValidMessage id
  /-- A record tells the thread and the id of its key. -/
  told : ∀ {thread id} {x : Message}, id ≠ Keyspace.orderField → x.ReadFrom (k.stored t thread id) →
    x.threadId = thread ∧ x.id = id
  /-- No message is in two threads. -/
  unique : ∀ {thread other id}, id ≠ Keyspace.orderField → k.stored t thread id ≠ none →
    k.stored t other id ≠ none → thread = other
  /-- The orders decode. What they list does not matter. -/
  orders : ∀ thread, StoredOrder.Readable (k.stored t thread Keyspace.orderField)

namespace Tables.Single

variable {k : Keyspace} {t : Tables}

theorem readable_contents (h : t.Single k) (thread : String) :
    StoredOrder.Readable ((k.contents t).index thread) := by
  show StoredOrder.Readable (if Plain thread then k.stored t thread Keyspace.orderField else none)
  split
  · exact h.orders thread
  · exact StoredOrder.sorted_none.readable

/-- What is asked of the tables says that their contents are single. -/
theorem contents (h : t.Single k) : (k.contents t).Single where
  placed {thread id r} hr := by
    have held : (k.contents t).Holds thread id := by
      rw [Contents.Holds, hr]
      exact Option.some_ne_none r
    have hi := Contents.isMessage_of_holds held
    rw [Keyspace.record_contents hi] at hr
    have stored : k.stored t thread id ≠ none := by
      rw [hr]
      exact Option.some_ne_none r
    obtain ⟨valid, validMessage⟩ := h.valid hi.2 stored
    exact ⟨⟨valid.ne_empty, h.housed hi.2 stored⟩, valid, validMessage,
      fun x hx => h.told hi.2 ⟨r, hr, hx⟩⟩
  readable {thread} _ := h.readable_contents thread
  orders := h.readable_contents
  single id thread other ht ho := by
    have hi : IsMessage id := Contents.isMessage_of_holds ht
    refine h.unique hi.2 ?_ ?_
    · rwa [← Keyspace.record_contents hi]
    · rwa [← Keyspace.record_contents hi]

end Tables.Single

end ChatMemory
