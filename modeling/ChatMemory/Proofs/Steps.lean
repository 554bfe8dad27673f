import ChatMemory.Proofs.Places
import ChatMemory.Proofs.Reconciling

/-!
# What operations do

One statement for all operations: from orderly contents each ends with one of a few kinds of change
(`Step`), whether it goes well or fails. Calls that fail are known to be the reason for all that is
left half done. An invariant of whole histories is then proved kind by kind.

The steps are those of operations in order. For operations that change messages they are the steps at any
schedule. A deletion at another schedule can leave messages without a thread, which no step does.

## Main statements

* `ends_performEdits` — an operation that changes messages makes a step, at any schedule.
* `ends_perform` — every operation makes a step.
* `Step.founded` — what all steps keep.
* `performAll_invariant` — what all steps of a history keep, the history keeps.
-/

namespace ChatMemory

/-- All dates that an operation gives to messages are of some kind. -/
def Operation.Dated (dates : Instant → Prop) : Operation → Prop
  | .saveMessages ms => ∀ v ∈ ms, dates v.createdAt
  | .updateMessages us => ∀ u ∈ us, ∀ date, u.createdAt = some date → dates date
  | _ => True

/-- Where any date will do, the dates of every operation do. -/
theorem Operation.dated_of_forall {dates : Instant → Prop} (any : ∀ date, dates date)
    (op : Operation) : op.Dated dates := by
  cases op <;> simp [Dated, any]

/-- The operation names a message that it may write. -/
def Operation.Names (id : String) : Operation → Prop
  | .saveMessages ms => ∃ v ∈ ms, id = v.id
  | .updateMessages us => ∃ u ∈ us, id = u.id
  | .migrateMessage message _ _ => id = message
  | _ => False

/-- Operations that change the messages that they name. -/
def Operation.Edits : Operation → Prop
  | .saveMessages _ | .updateMessages _ | .migrateMessage _ _ _ => True
  | _ => False

namespace Contents

section Steps

variable (R : RecordRule) (tracking : Bool) (now : Instant) (active : Prop) (c c' : Contents)

/-- What an operation does to the contents. -/
inductive Step : Operation → Prop where
  | same {op : Operation} (e : c' = c) : Step op
  | created {t : Thread} (valid : Identifier.Valid t.id)
      (e : c' = c.setThread t.id (some t.toJson)) : Step (.saveThread t)
  | changed {id title : String} {patch : Object} {v : Json} (there : c.thread id ≠ none)
      (e : c' = c.setThread id (some v)) : Step (.updateThread id title patch)
  | saved {ms : List Message} (there : ∀ v ∈ ms, c.HasThread v.threadId)
      (follows : Follows R (fun id => ∃ v ∈ ms, id = v.id) c c')
      (view : ∀ v ∈ ms, ∃ position, (c.view v.id).Stored tracking v position now c.HasThread
        (c'.view v.id)) : Step (.saveMessages ms)
  | saving {ms : List Message} (there : ∀ v ∈ ms, c.HasThread v.threadId)
      (follows : Follows R (fun id => ∃ v ∈ ms, id = v.id) c c')
      (view : ∀ v ∈ ms, ∃ position, (c.view v.id).Storing tracking v position now c.HasThread active
        (c'.view v.id)) : Step (.saveMessages ms)
  | updated {us : List MessageUpdate} {ys : List Message} (h : Updates R tracking now us ys c c') :
      Step (.updateMessages us)
  | updating {us : List MessageUpdate} (h : Interrupted R tracking now active us c c') :
      Step (.updateMessages us)
  | moved {id origin destination : String} {before : Message} (follows : Follows R (· = id) c c')
      (leaves : (c.view id).Leaves c.HasThread origin before destination)
      (view : (c.view id).Underway tracking now (before.into destination) origin active
        (c'.view id)) : Step (.migrateMessage id origin destination)
  | deleted {thread : String} {c₁ : Contents} (there : c.HasThread thread)
      (emptied : Emptied R tracking thread c c₁) (e : c' = c₁.closed thread) :
      Step (.deleteThread thread)
  | deleting {thread : String} {c₁ : Contents} (failed : active) (there : c.HasThread thread)
      (emptying : Emptying R tracking thread c c₁) (e : c' = c₁ ∨
        Emptied R tracking thread c c₁ ∧ c' = c₁.setIndex thread none) : Step (.deleteThread thread)
  | reconciled {thread : String} (e : c'.thread = c.thread)
      (h : Store.Reconciles R tracking thread c c') : Step (.reconcileThread thread)
  | reconciling {thread : String} (failed : active) (e : c'.thread = c.thread)
      (h : Store.Reconciling R tracking thread c c') : Step (.reconcileThread thread)

end Steps

variable {R : RecordRule} {tracking : Bool} {now : Instant} {active : Prop} {c c' : Contents}

/-! ## Foundations -/

/--
Orderly contents in which threads have identifiers that keep the rules, and in which what is no
thread has no order. So a new thread begins without an order.
-/
structure Founded (R : RecordRule) (c : Contents) : Prop extends Orderly R c where
  valid : ∀ {thread}, c.HasThread thread → Identifier.Valid thread
  absent : ∀ {thread}, ¬ c.HasThread thread → c.index thread = none

theorem Follows.founded {names : String → Prop} (f : Follows R names c c') (h : Founded R c) :
    Founded R c' where
  toOrderly := f.orderly
  valid ht := h.valid (by rwa [f.within.threads] at ht)
  absent {thread} ht := by
    rw [f.within.threads] at ht
    exact f.within.absent thread ht (h.absent ht)

theorem Updates.follows {us : List MessageUpdate} {ys : List Message}
    (h : Updates R tracking now us ys c c') : Follows R (fun id => ∃ u ∈ us, id = u.id) c c' := by
  induction h with
  | nil h => exact .refl h
  | @cons u us _ _ _ _ _ follows _ _ ih =>
    refine (follows.mono fun id hid => ⟨u, List.mem_cons_self, hid⟩).trans (ih.mono fun id hid => ?_)
    obtain ⟨v, hv, e⟩ := hid
    exact ⟨v, List.mem_cons_of_mem _ hv, e⟩

theorem Interrupted.follows {us : List MessageUpdate}
    (h : Interrupted R tracking now active us c c') :
    Follows R (fun id => ∃ u ∈ us, id = u.id) c c' := by
  induction h with
  | @here u us _ _ follows _ => exact follows.mono fun id hid => ⟨u, List.mem_cons_self, hid⟩
  | @later u us _ _ _ _ follows _ _ ih =>
    refine (follows.mono fun id hid => ⟨u, List.mem_cons_self, hid⟩).trans (ih.mono fun id hid => ?_)
    obtain ⟨v, hv, e⟩ := hid
    exact ⟨v, List.mem_cons_of_mem _ hv, e⟩

theorem hasThread_created {thread : String} (hne : thread ≠ "") (v : Json) (other : String) :
    (c.setThread thread (some v)).HasThread other ↔ other = thread ∨ c.HasThread other := by
  rw [HasThread, HasThread, thread_setThread]
  by_cases h : other = thread
  · simp [h, hne]
  · simp [h]

theorem Founded.created (h : Founded R c) {thread : String} (valid : Identifier.Valid thread)
    (v : Json) : Founded R (c.setThread thread (some v)) where
  placed {other id r} hr := by
    obtain ⟨ht, admitted⟩ := h.placed hr
    exact ⟨(hasThread_created valid.ne_empty v other).mpr (Or.inr ht), admitted⟩
  readable {other} _ := by
    show StoredOrder.Readable (c.index other)
    by_cases ht : c.HasThread other
    · exact h.readable ht
    · rw [h.absent ht]
      exact StoredOrder.sorted_none.readable
  valid {other} ht := by
    rcases (hasThread_created valid.ne_empty v other).mp ht with rfl | ht
    · exact valid
    · exact h.valid ht
  absent {other} ht := h.absent fun ht' =>
    ht ((hasThread_created valid.ne_empty v other).mpr (Or.inr ht'))

theorem Founded.changed (h : Founded R c) {thread : String} (there : c.thread thread ≠ none)
    (v : Json) : Founded R (c.setThread thread (some v)) where
  placed {other id r} hr := by
    rw [hasThread_setThread there]
    exact h.placed hr
  readable {other} ht := by
    rw [hasThread_setThread there] at ht
    exact h.readable ht
  valid {other} ht := by
    rw [hasThread_setThread there] at ht
    exact h.valid ht
  absent {other} ht := by
    rw [hasThread_setThread there] at ht
    exact h.absent ht

/-- An order that is deleted leaves contents founded. -/
theorem Founded.cleared (h : Founded R c) (thread : String) :
    Founded R (c.setIndex thread none) where
  toOrderly := h.toOrderly.setIndex thread StoredOrder.sorted_none.readable
  valid ht := h.valid ht
  absent {other} ht := by
    rw [index_setIndex]
    split
    · rfl
    · exact h.absent ht

theorem Founded.closed (h : Founded R c) {thread : String} {c₁ : Contents}
    (emptied : Emptied R tracking thread c c₁) : Founded R (c₁.closed thread) where
  toOrderly := emptied.orderly_closed
  valid {other} ht := (emptied.follows.founded h).valid ((hasThread_closed ..).mp ht).2
  absent {other} ht := by
    show (if other = thread then none else c₁.index other) = none
    split
    · rfl
    · next hne =>
      exact (emptied.follows.founded h).absent fun ht' => ht ((hasThread_closed ..).mpr ⟨hne, ht'⟩)

/-- Every step leaves contents founded. -/
theorem Step.founded {op : Operation} (step : Step R tracking now active c c' op)
    (h : Founded R c) : Founded R c' := by
  cases step with
  | same e => exact e ▸ h
  | created valid e => exact e ▸ h.created valid _
  | changed there e => exact e ▸ h.changed there _
  | saved _ f _ => exact f.founded h
  | saving _ f _ => exact f.founded h
  | updated hu => exact hu.follows.founded h
  | updating hu => exact hu.follows.founded h
  | moved f _ _ => exact f.founded h
  | deleted _ emptied e => exact e ▸ h.closed emptied
  | deleting _ _ emptying e =>
    rcases e with rfl | ⟨_, rfl⟩
    · exact emptying.follows.founded h
    · exact (emptying.follows.founded h).cleared _
  | reconciled _ hr =>
    cases hr with
    | existing _ f _ => exact f.founded h
    | gone _ e =>
      rcases e with rfl | rfl
      · exact h
      · exact h.cleared _
  | reconciling _ _ hr =>
    cases hr with
    | existing _ f _ => exact f.founded h
    | gone _ e => exact e ▸ h.cleared _

/-- Nothing stored. -/
def empty : Contents := ⟨fun _ => none, fun _ _ => none, fun _ => none, fun _ => none⟩

theorem contents_empty (k : Keyspace) : k.contents Tables.empty = empty := by
  refine ext' (fun _ => ?_) (fun _ _ => ?_) (fun _ => ?_) (fun _ => ?_)
  · simp [Keyspace.contents, empty]
  · simp [Keyspace.contents, empty]
  · simp [Keyspace.contents, empty]
  · simp [Keyspace.contents, empty]

theorem founded_empty : Founded R empty where
  placed hr := absurd hr (by simp [empty])
  readable ht := absurd rfl ht.2
  valid ht := absurd rfl ht.2
  absent _ := rfl

end Contents

namespace Store

open Action Contents

variable {s : Store} {faults : Faults} {R : RecordRule} {c : Contents} {now : Instant}

theorem aside_saveResource (s : Store) (r : Resource) : (s.saveResource r).Aside :=
  only_bind only_ofExcept fun _ => only_bind (only_exclusively aside_put) fun _ => trivial

theorem aside_updateResource (s : Store) (id : String) (memory : Option String)
    (patch : Option Object) : (s.updateResource now id memory patch).Aside :=
  only_bind only_ofExcept fun _ => only_exclusively
    (only_bind (s.reads_fetchResource id).aside fun _ => only_bind aside_put fun _ => trivial)

theorem ends_saveThread (t : Thread) : Ends s.keys faults (s.saveThread t) c
    (fun _ c' => Identifier.Valid t.id ∧ c' = c.setThread t.id (some t.toJson))
    (fun _ c' => c' = c ∧ (faults.Active ∨ ¬ (Identifier.Valid t.id ∧
      Identifier.Valid t.resourceId))) := by
  refine (ends_check _).andThen ?_ fun _ c' hc => ?_
  · rintro _ _ ⟨rfl, violated, _⟩
    refine ⟨rfl, Or.inr fun valid => violated (List.append_eq_nil_iff.mpr ?_)⟩
    exact valid.imp Identifier.violations_eq_nil.mpr Identifier.violations_eq_nil.mpr
  obtain ⟨rfl, checked⟩ := hc
  have valid := Identifier.violations_eq_nil.mp (List.append_eq_nil_iff.mp checked).1
  refine (ends_exclusively (ends_writeThread t t.id)).andThen (fun _ _ he => ⟨he.1, Or.inl he.2⟩)
    fun _ c' e => ?_
  exact ends_pure ⟨valid, e⟩

theorem ends_updateThread (id title : String) (patch : Object) :
    Ends s.keys faults (s.updateThread now id title patch) c
      (fun _ c' => c.thread id ≠ none ∧ ∃ v, c' = c.setThread id (some v)) (fun _ c' => c' = c) := by
  refine (ends_modifyThread id _).mono (fun _ c' h => ?_) fun _ _ he => he.1
  obtain ⟨t, ⟨r, hr, _⟩, _, e⟩ := h
  exact ⟨by rw [hr]; exact Option.some_ne_none r, _, e⟩

/-- An operation that changes messages makes a step, at any schedule. -/
theorem ends_performEdits (h : Orderly R c) {op : Operation} (edits : op.Edits)
    (hd : op.Dated R.dates) (schedule : Schedule) :
    Ends s.keys faults (s.perform now op schedule) c
      (fun _ c' => Step R s.config.trackMessageThreads now faults.Active c c' op)
      (fun _ c' => Step R s.config.trackMessageThreads now faults.Active c c' op) := by
  cases op with
  | saveMessages ms =>
    refine Ends.map ((ends_saveMessages h hd).mono (fun _ c' hc => ?_) fun _ c' hc => ?_)
    · obtain ⟨_, _, there, f, v⟩ := hc
      refine .saved (fun x hx => (there x hx).2) f fun x hx => ?_
      obtain ⟨position, hp⟩ := exists_position hx
      exact ⟨position, v (x, position) hp⟩
    · rcases hc with e | ⟨there, f, v⟩
      · exact .same e
      · refine .saving there f fun x hx => ?_
        obtain ⟨position, hp⟩ := exists_position hx
        exact ⟨position, v (x, position) hp⟩
  | updateMessages us =>
    refine Ends.map ((ends_updateMessages h hd).mono (fun _ c' hc => .updated hc) fun _ c' hc => ?_)
    rcases hc with e | hc
    · exact .same e
    · exact .updating hc
  | migrateMessage id origin destination =>
    refine Ends.map ((ends_migrateMessage h id origin destination).mono (fun _ c' hc => ?_)
      fun _ c' hc => ?_)
    · obtain ⟨f, before, _, ⟨_, _, e⟩ | ⟨leaves, rfl, v⟩⟩ := hc
      · exact .same e
      · exact .moved f leaves (Or.inr v)
    · rcases hc with e | ⟨f, before, leaves, v⟩
      · exact .same e
      · exact .moved f leaves v
  | _ => exact edits.elim

theorem step_performEdits (s : Store) (now : Instant) (faults : Faults) (w : World) {op : Operation}
    (schedule : Schedule) (edits : op.Edits) (h : Orderly R (s.keys.contents w.tables))
    (hd : op.Dated R.dates) :
    Step R s.config.trackMessageThreads now faults.Active (s.keys.contents w.tables)
      (s.keys.contents ((s.perform now op schedule).run faults w).2.tables) op :=
  (ends_performEdits h edits hd schedule).always rfl

/-- Every operation makes a step, when it goes well as well as when it fails. -/
theorem ends_perform (h : Orderly R c) {op : Operation} (hd : op.Dated R.dates) :
    Ends s.keys faults (s.perform now op) c
      (fun _ c' => Step R s.config.trackMessageThreads now faults.Active c c' op)
      (fun _ c' => Step R s.config.trackMessageThreads now faults.Active c c' op) := by
  have reading : op.Reading → Ends s.keys faults (s.perform now op) c
      (fun _ c' => Step R s.config.trackMessageThreads now faults.Active c c' op)
      (fun _ c' => Step R s.config.trackMessageThreads now faults.Active c c' op) :=
    fun hr => (s.reads_perform now hr).ends.mono (fun _ _ e => .same e) fun _ _ e => .same e
  have aside : ∀ {α : Type} {p : Action α} {f : α → Reply}, p.Aside → Ends s.keys faults (f <$> p) c
      (fun _ c' => Step R s.config.trackMessageThreads now faults.Active c c' op)
      (fun _ c' => Step R s.config.trackMessageThreads now faults.Active c c' op) :=
    fun ha => (Aside.ends (only_map ha)).mono (fun _ _ e => .same e) fun _ _ e => .same e
  cases op with
  | saveThread t =>
    refine Ends.map ((ends_saveThread t).mono (fun _ c' hc => ?_) fun _ _ he => .same he.1)
    exact .created hc.1 hc.2
  | updateThread id title patch =>
    refine Ends.map ((ends_updateThread id title patch).mono (fun _ c' hc => ?_)
      fun _ _ e => .same e)
    obtain ⟨there, v, e⟩ := hc
    exact .changed there e
  | deleteThread id =>
    refine Ends.map ((ends_deleteWholeThread h id).mono (fun _ c' hc => ?_) fun _ c' hc => ?_)
    · obtain ⟨there, c₁, emptied, e⟩ := hc
      exact .deleted there emptied e
    · rcases hc with e | ⟨ha, there, c₁, emptying, e⟩
      · exact .same e
      · exact .deleting ha there emptying e
  | saveMessages ms =>
    have edits : (Operation.saveMessages ms).Edits := trivial
    exact ends_performEdits h edits hd .inOrder
  | updateMessages us =>
    have edits : (Operation.updateMessages us).Edits := trivial
    exact ends_performEdits h edits hd .inOrder
  | migrateMessage id origin destination =>
    have edits : (Operation.migrateMessage id origin destination).Edits := trivial
    exact ends_performEdits h edits hd .inOrder
  | reconcileThread id =>
    refine Ends.map ((ends_reconcileThread h id).mono (fun _ c' hc => ?_) fun _ c' hc => ?_)
    · exact .reconciled hc.2.1 hc.2.2
    · rcases hc with ⟨e, _⟩ | ⟨_, ha, same, hc⟩
      · exact .same e
      · exact .reconciling ha same hc
  | saveResource r => exact aside (aside_saveResource s r)
  | updateResource id memory patch => exact aside (aside_updateResource s id memory patch)
  | _ => exact reading trivial

theorem step_perform (s : Store) (now : Instant) (faults : Faults) (w : World) {op : Operation}
    (h : Orderly R (s.keys.contents w.tables)) (hd : op.Dated R.dates) :
    Step R s.config.trackMessageThreads now faults.Active (s.keys.contents w.tables)
      (s.keys.contents ((s.perform now op).run faults w).2.tables) op :=
  (ends_perform h hd).always rfl

/-! ## Histories -/

theorem performAll_cons (op : Operation) (rest : List (Instant × Operation)) (w : World) :
    s.performAll faults ((now, op) :: rest) w =
      (((s.perform now op).run faults w).1 ::
          (s.performAll faults rest ((s.perform now op).run faults w).2).1,
        (s.performAll faults rest ((s.perform now op).run faults w).2).2) := rfl

theorem performAll_append (s : Store) (faults : Faults) :
    ∀ (first second : List (Instant × Operation)) (w : World),
      (s.performAll faults (first ++ second) w).2
        = (s.performAll faults second (s.performAll faults first w).2).2
  | [], _, _ => rfl
  | (_, _) :: rest, second, _ => performAll_append s faults rest second _

/-- What every step of a history keeps, the history keeps. -/
theorem performAll_invariant {I : Contents → Prop} (orderly : ∀ c, I c → Orderly R c) :
    ∀ (history : List (Instant × Operation)) {w : World},
    (∀ e ∈ history, e.2.Dated R.dates) →
    (∀ e ∈ history, ∀ c c', I c →
      Step R s.config.trackMessageThreads e.1 faults.Active c c' e.2 → I c') →
    I (s.keys.contents w.tables) →
    I (s.keys.contents (s.performAll faults history w).2.tables)
  | [], _, _, _, h => h
  | e :: rest, w, dated, step, h => by
    refine performAll_invariant orderly rest (fun e' he => dated e' (List.mem_cons_of_mem _ he))
      (fun e' he => step e' (List.mem_cons_of_mem _ he)) ?_
    exact step e List.mem_cons_self _ _ h
      (step_perform s e.1 faults w (orderly _ h) (dated e List.mem_cons_self))

/-- Every history leaves contents founded. -/
theorem performAll_founded (s : Store) (faults : Faults) {history : List (Instant × Operation)}
    (dated : ∀ e ∈ history, e.2.Dated R.dates) :
    Founded R (s.keys.contents (s.performAll faults history World.initial).2.tables) := by
  refine performAll_invariant (I := Founded R) (fun _ h => h.toOrderly) history dated
    (fun _ _ _ _ h step => step.founded h) ?_
  show Founded R (s.keys.contents Tables.empty)
  rw [contents_empty]
  exact founded_empty

end Store

end ChatMemory
