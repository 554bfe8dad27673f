import ChatMemory.Proofs.Consistency

/-!
# Repeating a call

A call that was stopped may be repeated. That leads to one copy of each message again if the message
is found where it was, since it is then moved once more. It does not if the message is found where it
was to go to: the new copy is then taken for the message, and what the first attempt had still to do is
left undone. Which copy is found depends on the pointers and on the names of the threads.

## Main statements

* `Torn.stored_iff`, `Paused.updated_iff` — when a repeated call joins a message.
* `retry_joins_iff` — when a repeated call leaves all messages in one place.
-/

namespace ChatMemory

namespace Operation

/-- Calls that save messages, and calls that change different messages. -/
def Retryable : Operation → Prop
  | .saveMessages _ => True
  | .updateMessages us => us.Pairwise (·.id ≠ ·.id)
  | _ => False

/-- The operation asks for a message to be in a thread. -/
def Asks (id thread : String) : Operation → Prop
  | .saveMessages ms => ∃ v ∈ ms, v.id = id ∧ v.threadId = thread
  | .updateMessages us => ∃ u ∈ us, u.id = id ∧ u.threadId = some thread
  | _ => False

/--
The operation finds nothing half done by an earlier attempt. A message to be saved that is found in
its thread is in no other. A message to be changed that is found where it stays is listed there.
-/
def Resumes (tracking : Bool) (c : Contents) : Operation → Prop
  | .saveMessages ms => ∀ v ∈ ms, (c.view v.id).Finds tracking c.HasThread v.threadId →
      ∀ thread, c.Holds thread v.id → thread = v.threadId
  | .updateMessages us => ∀ u ∈ us, ∀ thread, (c.view u.id).Finds tracking c.HasThread thread →
      (∀ destination, u.threadId = some destination → destination = thread) →
      (c.view u.id).Lists thread
  | _ => True

end Operation

namespace View

variable {has : String → Prop} {w w' : View} {tracking : Bool} {now : Instant} {v y : Message}
  {u : MessageUpdate} {position : Nat} {origin destination : String}

/-! ## One message -/

/-- Saving joins a torn message, unless it is found in its thread and another thread has it too. -/
theorem Torn.stored_iff (h : w.Torn has origin v.threadId) (there : has v.threadId)
    (stored : w.Stored tracking v position now has w') : w'.At has v.threadId ↔
      (w.Finds tracking has v.threadId → ∀ thread, w.Holds thread → thread = v.threadId) := by
  obtain ⟨w₁, homed, rfl⟩ := stored
  rcases homed with ⟨hno, rfl⟩ | ⟨finds, rfl⟩ | ⟨current, before, finds, leaves, rfl⟩
  · refine ⟨fun _ _ thread hh => absurd hh (hno thread), fun _ => ?_⟩
    exact saved_at there (fun thread hh => absurd hh (hno thread)) h.lists
  · constructor
    · intro at_ _ thread hh
      exact (at_.holds thread).mp (holds_saved.mpr (Or.inr hh))
    · intro only
      exact saved_at there (only finds) h.lists
  · constructor
    · intro _ finds'
      exact absurd (finds.unique finds') leaves.apart
    · intro _
      obtain rfl := (h.holds current finds.holds).resolve_right leaves.apart
      have joined : (w.moved tracking now (before.into v.threadId) current).At has v.threadId :=
        h.moved (x := before.into v.threadId) leaves.apart there
      exact Whole.saved_at (Or.inr joined) there

/-- A change joins a torn message, unless it stays where it is found and is not listed there. -/
theorem Paused.updated_iff (h : w.Paused has u origin destination)
    (housed : ∀ thread, w.Holds thread → has thread)
    (named : ∀ thread x, w.IsRecord thread x → x.threadId = thread)
    (updated : w.Updated tracking now has u y w') :
    (w'.Whole has ∧ ∀ thread, u.threadId = some thread → w'.At has thread) ↔
      ∀ thread, w.Finds tracking has thread →
        (∀ d, u.threadId = some d → d = thread) → w.Lists thread := by
  obtain ⟨current, before, finds, record, ⟨stays, rfl, rfl⟩ | ⟨d, hu, leaves, rfl, rfl⟩⟩ := updated
  · have here : (before.apply u).threadId = current := named current before record
    -- The message is found where it was to go to, or in the only thread that has it.
    have last : current = destination := by
      cases hu : u.threadId with
      | none =>
        have same := h.stays hu
        exact (h.holds current finds.holds).elim (fun e => e.trans same) id
      | some d => exact (stays d hu).symm.trans (h.goes d hu).symm
    subst last
    constructor
    · rintro ⟨whole, _⟩ thread finds' _
      obtain rfl := finds.unique finds'
      refine Classical.byContradiction fun unlisted => ?_
      have same : w.replaced before (before.apply u) = w.revised (before.apply u) :=
        if_pos (h.dated before record unlisted)
      rw [same] at whole
      have housed' : ∀ thread, (w.revised (before.apply u)).Holds thread → has thread := by
        intro thread hh
        rcases holds_revised.mp hh with rfl | hh
        · exact here ▸ housed current finds.holds
        · exact housed thread hh
      have held : (w.revised (before.apply u)).Holds current := holds_revised.mpr (Or.inl here.symm)
      have there := housed current finds.holds
      exact unlisted ((((whole_iff housed').mp whole).2 current there).mpr held)
    · intro resumes
      have listed := resumes current finds stays
      have there := housed current finds.holds
      have only : ∀ thread, w.Holds thread ↔ thread = current := by
        refine fun thread => ⟨fun hh => ?_, fun e => e ▸ finds.holds⟩
        rcases h.holds thread hh with rfl | e
        · exact Classical.byContradiction fun apart => h.torn apart there hh listed
        · exact e
      have at_ : w.At has (before.apply u).threadId := by
        rw [here]
        refine ⟨there, only, fun thread ht => ⟨fun hl => (only thread).mp (h.lists thread ht hl), ?_⟩⟩
        exact fun e => e ▸ listed
      refine ⟨Or.inr ⟨_, at_.replaced⟩, fun thread hu => ?_⟩
      rw [stays thread hu, ← here]
      exact at_.replaced
  · have last : d = destination := (h.goes d hu).symm
    subst last
    obtain rfl := (h.holds current finds.holds).resolve_right leaves.apart
    have joined : (w.moved tracking now ((before.apply u).into d) current).At has d :=
      h.moved leaves.apart leaves.there
    refine ⟨fun _ thread finds' stays => ?_, fun _ => ⟨Or.inr ⟨d, joined⟩, fun thread hu' => ?_⟩⟩
    · obtain rfl := finds.unique finds'
      exact absurd (stays d hu).symm leaves.apart
    · obtain rfl := Option.some.inj (hu.symm.trans hu')
      exact joined

end View

namespace Contents

variable {R : RecordRule} {tracking : Bool} {now : Instant} {active : Prop} {c c' : Contents}
  {us : List MessageUpdate} {ys : List Message} {k : Keyspace} {t : Tables} {thread id : String}

/-! ## Changes of different messages -/

/-- Changes of different messages are each made on the view that was there at first. -/
theorem Updates.versions (h : Updates R tracking now us ys c c')
    (distinct : us.Pairwise (·.id ≠ ·.id)) : ys.length = us.length ∧
      ∀ (k : Nat) u, us[k]? = some u → ∃ y, ys[k]? = some y ∧
        (c.view u.id).Updated tracking now c.HasThread u y (c'.view u.id) := by
  induction h with
  | nil _ => simp
  | @cons u us y ys c c₁ c' follows updated rest ih =>
    obtain ⟨apart, distinct⟩ := List.pairwise_cons.mp distinct
    obtain ⟨length, versions⟩ := ih distinct
    refine ⟨by simp [length], ?_⟩
    rintro (_ | k) u' hu'
    · obtain rfl := Option.some.inj hu'
      have same : c'.view u.id = c₁.view u.id :=
        rest.follows.within.view u.id fun ⟨v, hv, e⟩ => apart v hv e
      exact ⟨y, rfl, same ▸ updated⟩
    · obtain ⟨y', hy', updated'⟩ := versions k u' hu'
      have other : ¬ u'.id = u.id := fun e => apart u' (List.mem_of_getElem? hu') e.symm
      rw [follows.within.view u'.id other, follows.within.threads] at updated'
      exact ⟨y', hy', updated'⟩

theorem Updates.each (h : Updates R tracking now us ys c c') (distinct : us.Pairwise (·.id ≠ ·.id)) :
    ∀ u ∈ us, ∃ y, (c.view u.id).Updated tracking now c.HasThread u y (c'.view u.id) := by
  intro u hu
  obtain ⟨k, hk⟩ := List.mem_iff_getElem?.mp hu
  obtain ⟨y, _, updated⟩ := (h.versions distinct).2 k u hk
  exact ⟨y, updated⟩

/-- The same when the changes are stopped. -/
theorem Interrupted.each (h : Interrupted R tracking now active us c c')
    (distinct : us.Pairwise (·.id ≠ ·.id)) : ∀ u ∈ us,
    (∃ y, (c.view u.id).Updated tracking now c.HasThread u y (c'.view u.id)) ∨
      (c.view u.id).Updating tracking now c.HasThread u active (c'.view u.id) := by
  induction h with
  | @here u us c c' follows updating =>
    obtain ⟨apart, _⟩ := List.pairwise_cons.mp distinct
    intro u' hu'
    rcases List.mem_cons.mp hu' with rfl | hu'
    · exact Or.inr updating
    · exact Or.inr (Or.inl (follows.within.view u'.id fun e => apart u' hu' e.symm))
  | @later u us y c c₁ c' follows updated rest ih =>
    obtain ⟨apart, distinct⟩ := List.pairwise_cons.mp distinct
    intro u' hu'
    rcases List.mem_cons.mp hu' with rfl | hu'
    · have same : c'.view u'.id = c₁.view u'.id :=
        rest.follows.within.view u'.id fun ⟨v, hv, e⟩ => apart v hv e
      exact Or.inl ⟨y, same ▸ updated⟩
    · have := ih distinct u' hu'
      rwa [follows.within.view u'.id fun e => apart u' hu' e.symm, follows.within.threads] at this

/-! ## Aligned contents -/

/--
Aligned contents: a message stands under a thread that exists, its record tells its id and its thread,
no id is in two threads, and the order of each thread lists its messages.
-/
structure Aligned (c : Contents) : Prop where
  placed : ∀ {thread id r}, c.record thread id = some r →
    c.HasThread thread ∧ Message.Agrees thread id r
  unique : ∀ {thread other id}, c.Holds thread id → c.Holds other id → thread = other
  listed : ∀ {thread}, c.HasThread thread → StoredOrder.Readable (c.index thread) ∧
    ∀ id, c.Lists thread id ↔ c.Holds thread id

theorem Aligned.plain (h : (k.contents t).Aligned) (hh : (k.contents t).Holds thread id) :
    Plain thread := by
  refine plain_of_told (fun thread r => ∃ id, Message.Agrees thread id r)
    (fun {thread id r} hr => ⟨id, (h.placed hr).2⟩) ?_ hh
  rintro _ _ r ⟨_, hthread⟩ ⟨_, hother⟩
  exact hthread.unique hother

theorem Aligned.orderly (h : (k.contents t).Aligned) : Orderly .agreeing (k.contents t) where
  placed {thread id r} hr := by
    obtain ⟨there, agrees⟩ := h.placed hr
    have hh : (k.contents t).Holds thread id := by
      rw [Holds, hr]
      exact Option.some_ne_none r
    exact ⟨there, h.plain hh, isMessage_of_holds hh, agrees⟩
  readable ht := (h.listed ht).1

theorem Aligned.whole (h : c.Aligned) : c.Whole := by
  intro id
  refine (View.whole_iff fun thread hh => ?_).mpr ⟨fun _ _ => h.unique, fun thread ht => ?_⟩
  · obtain ⟨r, hr⟩ := Option.ne_none_iff_exists'.mp hh
    exact (h.placed hr).1
  · exact (h.listed ht).2 id

/-- Without failures contents are aligned. -/
theorem Consistent.aligned (h : Consistent tracking c) : c.Aligned where
  placed {thread id r} hr := by
    obtain ⟨there, _, _, x, rfl, rfl, hx⟩ := h.placed hr
    exact ⟨there, hx.agrees⟩
  unique {thread other id} hh ho :=
    ((View.whole_iff fun _ hh => h.housed hh).mp (h.fine id).whole).1 thread other hh ho
  listed {thread} ht := ⟨h.readable ht, fun id => h.lists_iff_holds thread id⟩

/-! ## The first attempt -/

/-- What the first attempt leaves of the messages that it names. -/
def Halted (c : Contents) : Operation → Prop
  | .saveMessages ms => ∀ v ∈ ms, ∃ origin, (c.view v.id).Torn c.HasThread origin v.threadId
  | .updateMessages us => ∀ u ∈ us, ∃ origin destination,
      (c.view u.id).Paused c.HasThread u origin destination
  | _ => True

/-- An attempt leaves the messages that it does not name as they were, and others torn at most. -/
theorem Step.halted {op : Operation} (step : Step R tracking now active c c' op)
    (retryable : op.Retryable) (h : Orderly R c) (whole : c.Whole) :
    Orderly R c' ∧ (∀ id, ¬ op.Names id → (c'.view id).Whole c'.HasThread) ∧ c'.Halted op := by
  have others : ∀ {names : String → Prop}, Follows R names c c' → ∀ id, ¬ names id →
      (c'.view id).Whole c'.HasThread := by
    intro names f id hid
    rw [f.within.threads, f.within.view id hid]
    exact whole id
  cases step with
  | same e =>
    subst e
    refine ⟨h, fun id _ => whole id, ?_⟩
    cases op with
    | saveMessages ms => exact fun v _ => (whole v.id).torn v.threadId
    | updateMessages us => exact fun u _ => (whole u.id).paused u
    | _ => trivial
  | saved there f view =>
    refine ⟨f.orderly, others f, fun v hv => ?_⟩
    obtain ⟨position, stored⟩ := view v hv
    rw [f.within.threads]
    exact ⟨v.threadId, ((whole v.id).stored (there v hv) stored).torn v.threadId⟩
  | saving there f view =>
    refine ⟨f.orderly, others f, fun v hv => ?_⟩
    obtain ⟨position, storing⟩ := view v hv
    rw [f.within.threads]
    exact ((whole v.id).storing (there v hv) storing).1
  | updated updates =>
    refine ⟨updates.follows.orderly, others updates.follows, fun u hu => ?_⟩
    exact (whole.updates h updates u.id).paused u
  | updating interrupted =>
    have f := interrupted.follows
    refine ⟨f.orderly, others f, fun u hu => ?_⟩
    rw [f.within.threads]
    rcases interrupted.each retryable u hu with ⟨y, updated⟩ | updating
    · exact View.Whole.paused (Or.inr ⟨_, ((whole u.id).updated (h.named u.id) updated).1⟩) u
    · exact ((whole u.id).updating (h.named u.id) updating).1
  | _ => exact retryable.elim

/-! ## The second attempt -/

/-- A batch that is saved at last is whole, and in its threads, just if it finds nothing half done. -/
theorem Halted.saved_iff {ms : List Message} (h : Halted c (.saveMessages ms))
    (others : ∀ id, ¬ (Operation.saveMessages ms).Names id → (c.view id).Whole c.HasThread)
    (there : ∀ v ∈ ms, c.HasThread v.threadId)
    (f : Follows R (fun id => ∃ v ∈ ms, id = v.id) c c')
    (stored : ∀ v ∈ ms, ∃ position,
      (c.view v.id).Stored tracking v position now c.HasThread (c'.view v.id)) :
    (c'.Whole ∧ ∀ id thread, (Operation.saveMessages ms).Asks id thread →
      (c'.view id).At c'.HasThread thread) ↔ (Operation.saveMessages ms).Resumes tracking c := by
  rw [Whole, f.within.threads]
  constructor
  · rintro ⟨_, placed⟩ v hv
    obtain ⟨origin, torn⟩ := h v hv
    obtain ⟨position, stored⟩ := stored v hv
    exact (torn.stored_iff (there v hv) stored).mp (placed v.id v.threadId ⟨v, hv, rfl, rfl⟩)
  · intro resumes
    have placed : ∀ v ∈ ms, (c'.view v.id).At c.HasThread v.threadId := by
      intro v hv
      obtain ⟨origin, torn⟩ := h v hv
      obtain ⟨position, stored⟩ := stored v hv
      exact (torn.stored_iff (there v hv) stored).mpr (resumes v hv)
    refine ⟨fun id => ?_, ?_⟩
    · by_cases hid : ∃ v ∈ ms, id = v.id
      · obtain ⟨v, hv, rfl⟩ := hid
        exact Or.inr ⟨v.threadId, placed v hv⟩
      · rw [f.within.view id hid]
        exact others id hid
    · rintro _ _ ⟨v, hv, rfl, rfl⟩
      exact placed v hv

/-- The same of changes of different messages. -/
theorem Halted.updated_iff (h : Halted c (.updateMessages us)) (orderly : Orderly R c)
    (others : ∀ id, ¬ (Operation.updateMessages us).Names id → (c.view id).Whole c.HasThread)
    (distinct : us.Pairwise (·.id ≠ ·.id)) (updates : Updates R tracking now us ys c c') :
    (c'.Whole ∧ ∀ id thread, (Operation.updateMessages us).Asks id thread →
      (c'.view id).At c'.HasThread thread) ↔ (Operation.updateMessages us).Resumes tracking c := by
  have f := updates.follows
  have one : ∀ u ∈ us, ((c'.view u.id).Whole c.HasThread ∧
      ∀ thread, u.threadId = some thread → (c'.view u.id).At c.HasThread thread) ↔
        ∀ thread, (c.view u.id).Finds tracking c.HasThread thread →
          (∀ d, u.threadId = some d → d = thread) → (c.view u.id).Lists thread := by
    intro u hu
    obtain ⟨origin, destination, paused⟩ := h u hu
    obtain ⟨y, updated⟩ := updates.each distinct u hu
    exact paused.updated_iff (fun _ hh => orderly.housed hh) (orderly.named u.id) updated
  rw [Whole, f.within.threads]
  constructor
  · rintro ⟨whole, placed⟩ u hu
    exact (one u hu).mp ⟨whole u.id, fun thread ht => placed u.id thread ⟨u, hu, rfl, ht⟩⟩
  · intro resumes
    refine ⟨fun id => ?_, ?_⟩
    · by_cases hid : ∃ u ∈ us, id = u.id
      · obtain ⟨u, hu, rfl⟩ := hid
        exact ((one u hu).mpr (resumes u hu)).1
      · rw [f.within.view id hid]
        exact others id hid
    · rintro _ thread ⟨u, hu, rfl, ht⟩
      exact ((one u hu).mpr (resumes u hu)).2 thread ht

end Contents

namespace Store

open Action Contents

/--
From aligned contents, a call may be stopped by any calls that fail. When it is then repeated without
failure, all messages are whole again, and those that it asks for are in their threads, just if the
repeated call finds nothing half done.
-/
theorem retry_joins_iff (s : Store) {w w₁ w₂ : World} (aligned : (s.keys.contents w.tables).Aligned)
    {op : Operation} (retryable : op.Retryable) (now : Instant) (faults : Faults)
    (h₁ : ((s.perform now op).run faults w).2 = w₁) (now' : Instant) {reply : Reply}
    (h₂ : (s.perform now' op).run Faults.none w₁ = (.ok reply, w₂)) :
    ((s.keys.contents w₂.tables).Whole ∧ ∀ id thread, op.Asks id thread →
      ((s.keys.contents w₂.tables).view id).At (s.keys.contents w₂.tables).HasThread thread) ↔
    op.Resumes s.config.trackMessageThreads (s.keys.contents w₁.tables) := by
  have dated : op.Dated (RecordRule.agreeing).dates := by
    cases op <;> simp [Operation.Dated, RecordRule.agreeing]
  have step := step_perform s now faults w aligned.orderly dated
  rw [h₁] at step
  obtain ⟨orderly, others, halted⟩ := step.halted retryable aligned.orderly aligned.whole
  have ends : Ends s.keys Faults.none (s.perform now' op) (s.keys.contents w₁.tables)
      (fun _ c' => (c'.Whole ∧ ∀ id thread, op.Asks id thread →
          (c'.view id).At c'.HasThread thread) ↔
        op.Resumes s.config.trackMessageThreads (s.keys.contents w₁.tables))
      (fun _ _ => True) := by
    cases op with
    | saveMessages ms =>
      refine Ends.map ((ends_saveMessages orderly dated).mono (fun _ c' hc => ?_) fun _ _ _ => trivial)
      obtain ⟨_, _, there, f, stored⟩ := hc
      have stored : ∀ v ∈ ms, ∃ position, ((s.keys.contents w₁.tables).view v.id).Stored
          s.config.trackMessageThreads v position now' (s.keys.contents w₁.tables).HasThread
          (c'.view v.id) := by
        intro v hv
        obtain ⟨position, hp⟩ := exists_position hv
        exact ⟨position, stored (v, position) hp⟩
      exact halted.saved_iff others (fun v hv => (there v hv).2) f stored
    | updateMessages us =>
      refine Ends.map ((ends_updateMessages orderly dated).mono (fun _ c' updates => ?_)
        fun _ _ _ => trivial)
      exact halted.updated_iff orderly others retryable updates
    | _ => exact retryable.elim
  exact ends.ok rfl h₂

end Store

/-! ## A sample -/

namespace Sample

open Action Contents

/-- After a batch was stopped that brings the message to another thread. -/
def halted (tracking : Bool) (home target : String) : World :=
  (((store tracking).perform now (.saveMessages [message target])).run (stopped home)
    (world tracking home)).2

/-- The batch is saved once more. -/
def repeated (tracking : Bool) (home target : String) : Except MemoryError Reply × World :=
  ((store tracking).perform now (.saveMessages [message target])).run Faults.none
    (halted tracking home target)

end Sample

namespace Store

open Contents

/-- A move to a later thread: the copy that is found is in the thread that the message was to leave. -/
theorem retry_joins_later : (Sample.repeated false "a" "b").1.isOk = true ∧
    ((Sample.store false).keys.contents (Sample.halted false "a" "b").tables).Holds "a" "m" ∧
    ((Sample.store false).keys.contents (Sample.halted false "a" "b").tables).Holds "b" "m" ∧
    ((Sample.store false).keys.contents (Sample.repeated false "a" "b").2.tables).Whole := by
  have ok : (Sample.repeated false "a" "b").1.isOk = true := by decide +kernel
  have left : ((Sample.store false).keys.contents (Sample.halted false "a" "b").tables).Holds "a" "m" :=
    Sample.holds_of_isSome (by decide +kernel)
  refine ⟨ok, left, Sample.holds_of_isSome (by decide +kernel), ?_⟩
  obtain ⟨reply, h₂⟩ := Action.exists_ok ok
  have there : ((Sample.store false).keys.contents (Sample.halted false "a" "b").tables).HasThread
      "a" := ⟨by decide, Option.isSome_iff_ne_none.mp (by decide +kernel)⟩
  have retryable : (Operation.saveMessages [Sample.message "b"]).Retryable := trivial
  refine ((retry_joins_iff (Sample.store false) Sample.consistent.aligned retryable Sample.now
    (Sample.stopped "a") rfl Sample.now h₂).mpr fun v hv finds => ?_).1
  obtain rfl := List.mem_singleton.mp hv
  exact absurd finds (View.not_finds_of_lt there left (by decide))

/-- A move to an earlier thread: the copy that is found is the new one, and the old one stays. -/
theorem retry_splits_earlier :
    ((Sample.store false).keys.contents (Sample.world false "b").tables).Aligned ∧
    (Sample.repeated false "b" "a").1.isOk = true ∧
    ¬ ((Sample.store false).keys.contents (Sample.repeated false "b" "a").2.tables).Whole := by
  refine ⟨Sample.consistent.aligned, by decide +kernel, fun whole => ?_⟩
  have holds : ∀ thread, thread = "a" ∨ thread = "b" → ((Sample.store false).keys.contents
      (Sample.repeated false "b" "a").2.tables).Holds thread "m" := by
    rintro _ (rfl | rfl)
    · exact Sample.holds_of_isSome (by decide +kernel)
    · exact Sample.holds_of_isSome (by decide +kernel)
  rcases whole "m" with nowhere | ⟨thread, at_⟩
  · exact nowhere.holds "a" (holds "a" (Or.inl rfl))
  · have ha := (at_.holds "a").mp (holds "a" (Or.inl rfl))
    have hb := (at_.holds "b").mp (holds "b" (Or.inr rfl))
    exact absurd (ha.trans hb.symm) (by decide)

end Store

end ChatMemory
