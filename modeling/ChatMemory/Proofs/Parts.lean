import ChatMemory.Proofs.Finding
import ChatMemory.Store.Messages

/-!
# Parts of operations

How the actions end that the operations are made of: reading and touching a thread, reading and
writing a message, changing an order, and keeping pointers.

Each ends in one of two ways. When it goes well, the contents are said outright. When it fails, the
contents are as before, and the reason is a call that failed or a record that does not decode.

In orderly contents the orders of threads can be read, so there only a failed call stops a change. An
operation is a row of such changes, each of contents that follow those of the beginning.

## Main statements

* `ends_touchThread` — a thread whose date is moved on.
* `OrderIndex.ends_add`, `OrderIndex.ends_remove` — changes of an order.
* `Follows.ends_write`, `Follows.ends_add`, … — the changes that operations are rows of.
-/

namespace ChatMemory

namespace View

/-- A thread has a record of the message, which is that of `x`. -/
def IsRecord (w : View) (thread : String) (x : Message) : Prop :=
  ∃ r, w.record thread = some r ∧ Message.ofRecord r = .ok x

/-- The thread noted, if pointers are kept. -/
def noted (w : View) (tracking : Bool) (thread : String) : View :=
  if tracking then w.setPointer (some (.str thread)) else w

variable {w : View} {thread : String} {x y : Message}

@[simp]
theorem noted_noted {tracking : Bool} :
    (w.noted tracking thread).noted tracking thread = w.noted tracking thread := by
  unfold noted
  split <;> rfl

@[simp]
theorem record_noted {tracking : Bool} : (w.noted tracking thread).record = w.record := by
  unfold noted
  split <;> rfl

@[simp]
theorem score_noted {tracking : Bool} : (w.noted tracking thread).score = w.score := by
  unfold noted
  split <;> rfl

@[simp]
theorem holds_noted {tracking : Bool} {other : String} :
    (w.noted tracking thread).Holds other ↔ w.Holds other := by
  rw [Holds, record_noted, Holds]

@[simp]
theorem lists_noted {tracking : Bool} {other : String} :
    (w.noted tracking thread).Lists other ↔ w.Lists other := by
  rw [Lists, score_noted, Lists]

theorem IsRecord.holds (h : w.IsRecord thread x) : w.Holds thread := by
  obtain ⟨r, hr, _⟩ := h
  rw [Holds, hr]
  exact Option.some_ne_none r

theorem IsRecord.unique (h : w.IsRecord thread x) (h' : w.IsRecord thread y) : x = y := by
  obtain ⟨r, hr, hx⟩ := h
  obtain ⟨r', hr', hy⟩ := h'
  obtain rfl := Option.some.inj (hr.symm.trans hr')
  exact Except.ok.inj (hx.symm.trans hy)

end View

namespace Contents

/-- A thread has a record, which is that of `t`. -/
def IsThread (c : Contents) (thread : String) (t : Thread) : Prop :=
  ∃ r, c.thread thread = some r ∧ Thread.ofJson r = .ok t

/-- A thread has a record that does not decode. -/
def DamagedThread (c : Contents) (thread : String) : Prop :=
  ∃ r cause, c.thread thread = some r ∧ Thread.ofJson r = .error cause

/-- A thread has a record of a message that does not decode. -/
def DamagedRecord (c : Contents) (thread id : String) : Prop :=
  ∃ r cause, c.record thread id = some r ∧ Message.ofRecord r = .error cause

/-- The thread record with the date of change moved on. -/
def Touched (now : Instant) (thread : String) (c c' : Contents) : Prop :=
  ∃ t, c.IsThread thread t ∧ c' = c.setThread thread (some (t.touch now).toJson)

/-- The thread of a message noted, if pointers are kept. -/
def noted (c : Contents) (tracking : Bool) (id thread : String) : Contents :=
  if tracking then c.setPointer id (some (.str thread)) else c

variable {R : RecordRule} {names : String → Prop} {c c' c'' : Contents} {thread : String}
  {now : Instant}

theorem Follows.noted (h : Follows R names c c') {id : String} (hid : names id) (tracking : Bool)
    (thread : String) : Follows R names c (c'.noted tracking id thread) := by
  unfold Contents.noted
  split
  · exact h.setPointer hid _
  · exact h

theorem view_noted (c : Contents) (tracking : Bool) (id thread : String) :
    (c.noted tracking id thread).view id = (c.view id).noted tracking thread := by
  unfold Contents.noted View.noted
  split
  · exact view_setPointer_same ..
  · rfl

theorem view_noted_of_ne {id other : String} (hne : other ≠ id) (tracking : Bool)
    (thread : String) : (c.noted tracking id thread).view other = c.view other := by
  unfold Contents.noted
  split
  · rw [view_setPointer, if_neg hne]
  · rfl

/-- What is known of a message that is read from orderly contents. -/
theorem Orderly.isRecord (h : Orderly R c) {id : String} {x : Message}
    (hx : (c.view id).IsRecord thread x) : x.threadId = thread ∧ x.id = id ∧
      R.dates x.createdAt ∧ R.threads thread ∧ c.HasThread thread := by
  obtain ⟨r, hr, hx⟩ := hx
  obtain ⟨ht, admitted⟩ := h.placed hr
  obtain ⟨h₁, h₂⟩ := R.agrees admitted hx
  exact ⟨h₁, h₂, R.dated admitted hx, R.thread_of admitted, ht⟩

theorem Orderly.housed (h : Orderly R c) {id : String} (hh : (c.view id).Holds thread) :
    c.HasThread thread := h.hasThread hh

theorem Orderly.named (h : Orderly R c) (id thread : String) (x : Message)
    (hx : (c.view id).IsRecord thread x) : x.threadId = thread := (h.isRecord hx).1

theorem IsThread.hasThread {t : Thread} (h : c.IsThread thread t) (hne : thread ≠ "") :
    c.HasThread thread := by
  obtain ⟨r, hr, _⟩ := h
  exact ⟨hne, by rw [hr]; exact Option.some_ne_none r⟩

theorem Touched.view (h : Touched now thread c c') (id : String) : c'.view id = c.view id := by
  obtain ⟨t, _, rfl⟩ := h
  rfl

theorem Follows.touched (h : Follows R names c c') (ht : c'.HasThread thread)
    (hc : Touched now thread c' c'') : Follows R names c c'' := by
  obtain ⟨t, _, rfl⟩ := hc
  exact h.setThread ht _

end Contents

namespace Store

open Action Contents

variable {s : Store} {faults : Faults} {c : Contents}

theorem ends_check (violations : List Violation) : Ends s.keys faults (check violations) c
    (fun _ c' => c' = c ∧ violations = [])
    (fun e c' => c' = c ∧ violations ≠ [] ∧ e = .validation violations) := by
  refine ends_ofExcept (fun _ h => ⟨rfl, ?_⟩) (fun e h => ⟨rfl, ?_⟩)
  · rw [Identifier.report] at h
    split at h
    · next he => exact List.isEmpty_iff.mp he
    · exact absurd h (by simp)
  · rw [Identifier.report] at h
    split at h
    · exact absurd h (by simp)
    · next he => exact ⟨fun hv => he (by rw [hv]; rfl), (Except.error.inj h).symm⟩

/-! ## Threads -/

theorem ends_fetchThread (id : String) : Ends s.keys faults (s.fetchThread id) c
    (fun found c' => c' = c ∧ (found = none → c.thread id = none) ∧
      ∀ t, found = some t → c.IsThread id t)
    (fun _ c' => c' = c ∧ (faults.Active ∨ c.DamagedThread id)) := by
  refine Ends.bind (ends_getThread ?_ fun ha _ => ⟨rfl, Or.inl ha⟩)
  cases hr : c.thread id with
  | none => exact ends_pure ⟨rfl, fun _ => rfl, by simp⟩
  | some r =>
    dsimp only
    split
    · next t ht =>
      refine ends_pure ⟨rfl, by simp, fun t' h => ?_⟩
      obtain rfl := Option.some.inj h
      exact ⟨r, hr, ht⟩
    · next cause ht => exact ends_fail ⟨rfl, Or.inr ⟨r, cause, hr, ht⟩⟩

theorem ends_threadExists (id : String) : Ends s.keys faults (s.threadExists id) c
    (fun found c' => c' = c ∧ (found = false → c.thread id = none) ∧
      (found = true → ∃ t, c.IsThread id t))
    (fun _ c' => c' = c ∧ (faults.Active ∨ c.DamagedThread id)) := by
  refine (ends_fetchThread id).andThen (fun _ _ h => h) fun found c' => ?_
  rintro ⟨rfl, hnone, hsome⟩
  cases found with
  | none => exact ends_pure ⟨rfl, fun _ => hnone rfl, by simp⟩
  | some t => exact ends_pure ⟨rfl, by simp, fun _ => ⟨t, hsome t rfl⟩⟩

theorem ends_requireThread (id : String) : Ends s.keys faults (s.requireThread id) c
    (fun _ c' => c' = c ∧ ∃ t, c.IsThread id t) (fun _ c' => c' = c) := by
  refine (ends_threadExists id).andThen (fun _ _ h => h.1) fun found c' => ?_
  rintro ⟨rfl, _, hfound⟩
  cases found with
  | true => exact ends_pure ⟨rfl, hfound rfl⟩
  | false => exact ends_fail rfl

theorem ends_writeThread (t : Thread) (id : String) :
    Ends s.keys faults (writeThread t (s.keys.thread id)) c
      (fun _ c' => c' = c.setThread id (some t.toJson)) (fun _ c' => c' = c ∧ faults.Active) :=
  ends_putThread rfl fun ha _ => ⟨rfl, ha⟩

theorem ends_modifyThread (id : String) (change : Thread → Thread) :
    Ends s.keys faults (s.modifyThread id change) c
      (fun after c' => ∃ t, c.IsThread id t ∧ after = change t ∧
        c' = c.setThread id (some (change t).toJson))
      (fun _ c' => c' = c ∧ (faults.Active ∨ c.DamagedThread id ∨ c.thread id = none)) := by
  refine ends_exclusively ((ends_fetchThread id).andThen ?_ fun found c' => ?_)
  · rintro _ _ ⟨rfl, ha | hd⟩
    · exact ⟨rfl, Or.inl ha⟩
    · exact ⟨rfl, Or.inr (Or.inl hd)⟩
  · rintro ⟨rfl, hnone, hsome⟩
    cases found with
    | none => exact ends_fail ⟨rfl, Or.inr (Or.inr (hnone rfl))⟩
    | some t =>
      refine (ends_writeThread (change t) id).andThen (fun _ _ h => ⟨h.1, Or.inl h.2⟩)
        fun _ c'' => ?_
      rintro rfl
      exact ends_pure ⟨t, hsome t rfl, rfl, rfl⟩

theorem ends_touchThread (now : Instant) (id : String) :
    Ends s.keys faults (s.touchThread now id) c (fun _ c' => Touched now id c c')
      (fun _ c' => c' = c ∧ (faults.Active ∨ c.DamagedThread id ∨ c.thread id = none)) := by
  refine (ends_modifyThread id _).andThen (fun _ _ h => h) fun after c' => ?_
  rintro ⟨t, ht, _, rfl⟩
  exact ends_pure ⟨t, ht, rfl⟩

/-! ## Messages -/

theorem ends_fetchMessage {thread id : String} (hi : IsMessage id) :
    Ends s.keys faults (s.fetchMessage thread id) c
      (fun found c' => c' = c ∧ (found = none → c.record thread id = none) ∧
        ∀ x, found = some x → (c.view id).IsRecord thread x)
      (fun e c' => c' = c ∧ (faults.Active ∨
        (∃ key cause, e = .corrupt key cause) ∧ c.DamagedRecord thread id)) := by
  refine Ends.bind (ends_getMessage hi ?_ fun ha _ => ⟨rfl, Or.inl ha⟩)
  cases hr : c.record thread id with
  | none => exact ends_pure ⟨rfl, fun _ => rfl, by simp⟩
  | some r =>
    dsimp only
    split
    · next x hx =>
      refine ends_pure ⟨rfl, by simp, fun x' h => ?_⟩
      obtain rfl := Option.some.inj h
      exact ⟨r, hr, hx⟩
    · next cause hx => exact ends_fail ⟨rfl, Or.inr ⟨⟨_, _, rfl⟩, r, cause, hr, hx⟩⟩

theorem ends_writeMessage {x : Message} (r : Json) (ht : Plain x.threadId)
    (hi : Identifier.ValidMessage x.id) : Ends s.keys faults (s.writeMessage x r) c
      (fun _ c' => c' = c.setRecord x.threadId x.id (some r))
      (fun _ c' => c' = c ∧ faults.Active) :=
  ends_putMessage ht hi.plain hi.isMessage rfl fun ha _ => ⟨rfl, ha⟩

/-! ## Pointers -/

theorem ends_notePointer (id thread : String) : Ends s.keys faults (s.notePointer id thread) c
    (fun _ c' => c' = c.noted s.config.trackMessageThreads id thread)
    (fun _ c' => c' = c ∧ faults.Active) := by
  unfold notePointer noted
  cases s.config.trackMessageThreads with
  | true => exact ends_putPointer rfl fun ha _ => ⟨rfl, ha⟩
  | false => exact ends_pure rfl

theorem ends_forgetPointer (id thread : String) : Ends s.keys faults (s.forgetPointer id thread) c
    (fun _ c' => (s.config.trackMessageThreads = true ∧ (c.view id).Names thread ∧
        c' = c.setPointer id none) ∨
      (¬ (s.config.trackMessageThreads = true ∧ (c.view id).Names thread) ∧ c' = c))
    (fun _ c' => c' = c ∧ faults.Active) := by
  unfold forgetPointer
  split
  · next tracking =>
    refine (ends_pointer id).andThen (fun _ _ h => h) fun named c' => ?_
    rintro ⟨rfl, hn⟩
    refine ends_ite (fun h => ?_) fun h => ?_
    · exact ends_deletePointer (Or.inl ⟨tracking, (hn thread).mp h, rfl⟩) fun ha _ => ⟨rfl, ha⟩
    · exact ends_pure (Or.inr ⟨fun hno => h ((hn thread).mpr hno.2), rfl⟩)
  · next tracking => exact ends_pure (Or.inr ⟨fun h => tracking h.1, rfl⟩)

end Store

namespace OrderIndex

open Action Contents

variable {k : Keyspace} {faults : Faults} {c : Contents} {thread : String}

theorem ends_snapshot (ht : Plain thread) : Ends k faults (snapshot k thread) c
    (fun order c' => c' = c ∧ ∃ entries, OrderEntry.ofStored (c.index thread) = .ok entries ∧
      order = .ofEntries entries)
    (fun _ c' => c' = c ∧ (faults.Active ∨ ¬ StoredOrder.Readable (c.index thread))) := by
  refine Ends.bind (ends_getOrder ht ?_ fun ha _ => ⟨rfl, Or.inl ha⟩)
  split
  · next entries he => exact ends_pure ⟨rfl, entries, he, rfl⟩
  · next cause he =>
    refine ends_fail ⟨rfl, Or.inr ?_⟩
    rintro ⟨entries, h⟩
    exact absurd (h.symm.trans he) (by simp)

/-- A change of an order, which is read, changed and written back unless nothing changes. -/
theorem ends_merge (ht : Plain thread) (change : OrderSnapshot → Option OrderSnapshot) :
    Ends k faults (merge k thread change) c
      (fun _ c' => c' = c.setIndex thread (StoredOrder.changed change (c.index thread)))
      (fun _ c' => c' = c ∧ (faults.Active ∨ ¬ StoredOrder.Readable (c.index thread))) := by
  refine ends_exclusively ((ends_snapshot ht).andThen (fun _ _ h => h) fun order c' => ?_)
  rintro ⟨rfl, entries, he, rfl⟩
  rw [StoredOrder.changed_of_ofStored he]
  cases change (.ofEntries entries) with
  | none => exact ends_pure (setIndex_self c' thread).symm
  | some order => exact ends_putOrder ht rfl fun ha _ => ⟨rfl, Or.inl ha⟩

theorem ends_add (ht : Plain thread) (entries : List OrderEntry) :
    Ends k faults (add k thread entries) c
      (fun _ c' => c' = c.setIndex thread (StoredOrder.added (c.index thread) entries))
      (fun _ c' => c' = c ∧ (faults.Active ∨ ¬ StoredOrder.Readable (c.index thread))) := by
  unfold add
  split
  · next h =>
    rw [List.isEmpty_iff.mp h, StoredOrder.added_nil, setIndex_self]
    exact ends_pure rfl
  · exact ends_merge ht _

theorem ends_remove (ht : Plain thread) (ids : List String) :
    Ends k faults (remove k thread ids) c
      (fun _ c' => c' = c.setIndex thread (StoredOrder.removed (c.index thread) ids))
      (fun _ c' => c' = c ∧ (faults.Active ∨ ¬ StoredOrder.Readable (c.index thread))) := by
  unfold remove
  split
  · next h =>
    rw [List.isEmpty_iff.mp h, StoredOrder.removed_nil, setIndex_self]
    exact ends_pure rfl
  · exact ends_merge ht _

theorem ends_clear (ht : Plain thread) : Ends k faults (clear k thread) c
    (fun _ c' => c' = c.setIndex thread none) (fun _ c' => c' = c ∧ faults.Active) :=
  ends_exclusively (ends_deleteOrder ht rfl fun ha _ => ⟨rfl, ha⟩)

end OrderIndex

/-! ## Changes in a row -/

namespace Contents.Follows

open Action

variable {s : Store} {k : Keyspace} {faults : Faults} {R : RecordRule} {names : String → Prop}
  {c₀ c : Contents} {thread id : String}

/-- A record is written. -/
theorem ends_write (f : Follows R names c₀ c) {x : Message} {r : Json} (named : names x.id)
    (there : c₀.HasThread x.threadId) (ht : R.threads x.threadId)
    (hi : Identifier.ValidMessage x.id) (admitted : R.admits x.threadId x.id r) :
    Ends s.keys faults (s.writeMessage x r) c
      (fun _ c' => Follows R names c₀ c' ∧
        c'.view x.id = (c.view x.id).setRecord x.threadId (some r))
      (fun _ c' => c' = c ∧ faults.Active) := by
  refine (Store.ends_writeMessage r (R.plain ht) hi).mono (fun _ c' e => ?_) fun _ _ h => h
  rw [e]
  exact ⟨f.setRecord named (f.within.threads ▸ there) admitted, view_setRecord_same ..⟩

/-- A record is deleted. -/
theorem ends_erase (f : Follows R names c₀ c) (named : names id) (plain : Plain thread)
    (hi : IsMessage id) {code : String} {context : ErrorContext} :
    Ends k faults (ask (.delete .messages (k.message thread id)) code context) c
      (fun _ c' => Follows R names c₀ c' ∧ c'.view id = (c.view id).setRecord thread none)
      (fun _ c' => c' = c ∧ faults.Active) :=
  ends_deleteMessage plain hi f.orderly.parted
    ⟨f.eraseRecord thread named, view_setRecord_same ..⟩ fun ha _ => ⟨rfl, ha⟩

/-- An order gets some entries. -/
theorem ends_add (f : Follows R names c₀ c) (there : c₀.HasThread thread) (plain : Plain thread)
    {entries : List OrderEntry} (named : ∀ e ∈ entries, names e.id) :
    Ends k faults (OrderIndex.add k thread entries) c
      (fun _ c' => Follows R names c₀ c' ∧ ∀ id, c'.view id = (c.view id).setScore thread
        (((c.view id).score thread).or (entryScore entries id)))
      (fun _ c' => c' = c ∧ faults.Active) := by
  have there : c.HasThread thread := f.within.threads ▸ there
  have readable := f.orderly.readable there
  refine (OrderIndex.ends_add plain entries).mono (fun _ c' e => ?_) fun _ _ h => ?_
  · rw [e]
    exact ⟨f.added there named, view_added readable entries⟩
  · exact h.imp_right fun failed => failed.resolve_right (not_not_intro readable)

/-- An order gets an entry for one message. -/
theorem ends_list (f : Follows R names c₀ c) (there : c₀.HasThread thread) (plain : Plain thread)
    (named : names id) (score : Binary64) :
    Ends k faults (OrderIndex.add k thread [⟨id, score⟩]) c
      (fun _ c' => Follows R names c₀ c' ∧ c'.view id = (c.view id).list thread score)
      (fun _ c' => c' = c ∧ faults.Active) := by
  refine (f.ends_add there plain fun e he => ?_).mono (fun _ c' ⟨f', v⟩ => ⟨f', ?_⟩) fun _ _ h => h
  · rw [List.mem_singleton.mp he]
    exact named
  · rw [v, entryScore_singleton]
    rfl

/-- An order loses its entries for some messages. -/
theorem ends_remove (f : Follows R names c₀ c) (there : c₀.HasThread thread) (plain : Plain thread)
    {ids : List String} (named : ∀ id ∈ ids, names id) :
    Ends k faults (OrderIndex.remove k thread ids) c
      (fun _ c' => Follows R names c₀ c' ∧
        ∀ id, c'.view id = if id ∈ ids then (c.view id).setScore thread none else c.view id)
      (fun _ c' => c' = c ∧ faults.Active) := by
  have there : c.HasThread thread := f.within.threads ▸ there
  have readable := f.orderly.readable there
  refine (OrderIndex.ends_remove plain ids).mono (fun _ c' e => ?_) fun _ _ h => ?_
  · rw [e]
    exact ⟨f.removed there named, view_removed ids⟩
  · exact h.imp_right fun failed => failed.resolve_right (not_not_intro readable)

/-- An order loses its entry for one message. -/
theorem ends_unlist (f : Follows R names c₀ c) (there : c₀.HasThread thread) (plain : Plain thread)
    (named : names id) :
    Ends k faults (OrderIndex.remove k thread [id]) c
      (fun _ c' => Follows R names c₀ c' ∧ c'.view id = (c.view id).setScore thread none)
      (fun _ c' => c' = c ∧ faults.Active) := by
  refine (f.ends_remove there plain fun other he => ?_).mono (fun _ c' ⟨f', v⟩ => ⟨f', ?_⟩)
    fun _ _ h => h
  · rw [List.mem_singleton.mp he]
    exact named
  · rw [v, if_pos List.mem_cons_self]

/-- The thread of a message is noted. -/
theorem ends_note (f : Follows R names c₀ c) (named : names id) (thread : String) :
    Ends s.keys faults (s.notePointer id thread) c
      (fun _ c' => Follows R names c₀ c' ∧
        c'.view id = (c.view id).noted s.config.trackMessageThreads thread)
      (fun _ c' => c' = c ∧ faults.Active) := by
  refine (Store.ends_notePointer id thread).mono (fun _ c' e => ?_) fun _ _ h => h
  rw [e]
  exact ⟨f.noted named _ _, view_noted ..⟩

/-- A thread is touched, which no view shows. -/
theorem ends_touch (f : Follows R names c₀ c) (there : c₀.HasThread thread) (now : Instant) :
    Ends s.keys faults (s.touchThread now thread) c
      (fun _ c' => Follows R names c₀ c' ∧ ∀ id, c'.view id = c.view id)
      (fun _ c' => c' = c) :=
  (Store.ends_touchThread now thread).mono
    (fun _ _ touched => ⟨f.touched (f.within.threads ▸ there) touched, touched.view⟩)
    fun _ _ h => h.1

end Contents.Follows

end ChatMemory
