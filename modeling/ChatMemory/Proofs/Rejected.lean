import ChatMemory.Proofs.Errors
import ChatMemory.Proofs.Rules
import ChatMemory.Proofs.Steps

/-!
# Rejected calls

For some errors the caller is to blame: arguments that break the rules, and threads and messages that
are not there. An operation finds them out before it writes anything. What it does after that it does
*blamelessly* (`Action.Blameless`), which takes contents as the operations leave them: the threads
that were looked up are still there when they are touched, and a message that was found can be moved,
since its thread has an identifier that keeps the rules.

Changes of messages are applied one after the other, so a list of changes is rejected in the middle.
The changes in front of the one that is rejected stay.

## Main statements

* `blameless_fetchHome`, `blameless_saveInto`, … — the parts of operations that write.
* `upfront_perform`, `upfront_updateMessage` — what is rejected is rejected up front.
* `rejected_unchanged` — a rejected call leaves the tables as they were.
-/

namespace ChatMemory

namespace MemoryError

/-- The caller is not to blame for the error. -/
def Blameless (e : MemoryError) : Prop := e.category ≠ .user

theorem blameless_corrupt (key : String) (cause : DecodeError) : (corrupt key cause).Blameless := by
  simp [Blameless, category]

/-- The error is that a thread or a message is not there. -/
def IsMissing (e : MemoryError) : Prop :=
  (∃ id, e = .threadNotFound id) ∨ ∃ id, e = .messageNotFound id

theorem IsMissing.user {e : MemoryError} (h : e.IsMissing) : e.category = .user := by
  rcases h with ⟨_, rfl⟩ | ⟨_, rfl⟩ <;> rfl

end MemoryError

theorem Operation.dated_written (op : Operation) : op.Dated RecordRule.written.dates :=
  op.dated_of_forall fun _ => trivial

/-! ## Blameless actions -/

namespace Action

variable {α β : Type} {k k' : Keyspace} {c : Contents} {Q Q' : α → Contents → Prop}
  {E : MemoryError → Contents → Prop} {kind : MemoryError → Prop} {t t' : Tables} {e : MemoryError}

theorem outcome_pure_ne {a : α} : (pure a : Action α).outcome t ≠ (.error e, t') :=
  fun h => absurd (congrArg Prod.fst h) (by simp [pure, outcome])

/-- An error of a sequence is one of its first action, or one of the rest when that went well. -/
theorem outcome_bind_error {p : Action α} {f : α → Action β}
    (hp : (p >>= f).outcome t = (.error e, t')) :
    p.outcome t = (.error e, t') ∨ ∃ a t₁, p.Yields t a t₁ ∧ (f a).outcome t₁ = (.error e, t') := by
  rw [outcome_bind] at hp
  cases hout : p.outcome t with
  | mk r t₁ =>
    rw [hout] at hp
    cases r with
    | ok a => exact Or.inr ⟨a, t₁, hout, hp⟩
    | error e₁ =>
      obtain ⟨h₁, rfl⟩ := Prod.mk.inj hp
      obtain rfl := Except.error.inj h₁
      exact Or.inl rfl

/-- When no call fails, the action ends with `Q`, or with an error for which the caller is not to
blame. -/
abbrev Blameless (k : Keyspace) (p : Action α) (c : Contents) (Q : α → Contents → Prop) : Prop :=
  Ends k Faults.none p c Q fun e _ => e.Blameless

theorem Reports.ends {p : Action α} (h : p.Reports k kind) :
    Ends k' Faults.none p c (fun _ _ => True) fun e _ => kind e := by
  rintro w rfl
  have errors : ∀ e, (p.run Faults.none w).1 = .error e → kind e := fun _ => h.error_kind
  split
  · trivial
  · next e heq => exact errors _ (by rw [heq])

/-- What is known of an action that ends with no blame is known with it. -/
theorem Ends.blameless {p : Action α} (h : Ends k Faults.none p c Q E)
    (blameless : Blameless k p c Q') : Blameless k p c Q :=
  (h.and blameless).mono (fun _ _ h => h.1) fun _ _ h => h.2

theorem Ends.reported {p : Action α} (h : Ends k Faults.none p c Q E)
    (reports : p.Reports k' MemoryError.Blameless) : Blameless k p c Q := h.blameless reports.ends

theorem Spares.blameless {p : Action α} (h : p.Spares) (reports : p.Reports k' MemoryError.Blameless) :
    Blameless k p c fun _ c' => c'.thread = c.thread := h.ends.reported reports

/-- If the action fails, its arguments are not the reason, and if the caller is to blame nothing has
changed. -/
def Upfront (p : Action α) (t : Tables) : Prop := ∀ e t', p.outcome t = (.error e, t') →
  e.isValidation = false ∧ (e.category = .user → t' = t)

theorem Reports.outcome_kind {p : Action α} (h : p.Reports k kind)
    (hp : p.outcome t = (.error e, t')) : kind e := by
  rw [outcome_eq_run p ⟨t, .idle, 0⟩] at hp
  exact h.error_kind (Prod.mk.inj hp).1

theorem Ends.outcome_error {p : Action α} (h : Ends k Faults.none p (k.contents t) Q E)
    (hp : p.outcome t = (.error e, t')) : E e (k.contents t') := by
  have ending := h ⟨t, .idle, 0⟩ rfl
  obtain ⟨e₁, e₂⟩ := Prod.mk.inj ((outcome_eq_run p ⟨t, .idle, 0⟩).symm.trans hp)
  split at ending
  · next value w' run =>
    rw [run] at e₁
    exact absurd e₁ (by simp)
  · next error w' run =>
    rw [run] at e₁ e₂
    obtain rfl := Except.error.inj e₁
    exact e₂ ▸ ending

theorem Ends.upfront {p : Action α} (h : Blameless k p (k.contents t) Q) : p.Upfront t := by
  intro e t' hp
  have blameless := h.outcome_error hp
  refine ⟨?_, fun user => absurd user blameless⟩
  cases e with
  | validation _ => exact absurd rfl blameless
  | _ => rfl

/-- The rule for an action that begins with a reading. -/
theorem upfront_bind {p : Action α} {f : α → Action β} (reads : p.Reads)
    (reports : p.Reports k (·.isValidation = false))
    (hf : ∀ a, p.Yields t a t → (f a).Upfront t) : (p >>= f).Upfront t := by
  intro e t' hp
  rcases outcome_bind_error hp with first | ⟨a, t₁, hy, rest⟩
  · have same : t' = t := by simpa [first] using reads.tables t
    exact ⟨reports.outcome_kind first, fun _ => same⟩
  · obtain rfl := reads.yields hy
    exact hf a hy e t' rest

theorem outcome_map_error {f : α → β} {p : Action α}
    (hp : (f <$> p).outcome t = (.error e, t')) : p.outcome t = (.error e, t') := by
  rw [← bind_pure_comp] at hp
  rcases outcome_bind_error hp with first | ⟨_, _, _, rest⟩
  · exact first
  · exact absurd rest outcome_pure_ne

theorem upfront_map {f : α → β} {p : Action α} (h : p.Upfront t) : (f <$> p).Upfront t :=
  fun e t' hp => h e t' (outcome_map_error hp)

theorem Reports.upfront {p : Action α} (h : p.Reports k MemoryError.Blameless) : p.Upfront t :=
  Ends.upfront (k := k) h.ends

theorem upfront_exclusively {key : String} {p : Action α} (h : p.Upfront t) :
    (exclusively key p).Upfront t := fun e t' hp => h e t' (by rwa [outcome_exclusively] at hp)

theorem upfront_ite {p : Prop} [Decidable p] {x y : Action α} (hx : p → x.Upfront t)
    (hy : ¬ p → y.Upfront t) : (if p then x else y).Upfront t := by
  split
  · next h => exact hx h
  · next h => exact hy h

theorem upfront_pure {a : α} : (pure a : Action α).Upfront t :=
  fun _ _ hp => absurd hp outcome_pure_ne

theorem upfront_fail (h : e.isValidation = false) :
    (fail e : Action α).Upfront t := by
  intro e' t' hp
  obtain ⟨h₁, rfl⟩ := Prod.mk.inj hp
  obtain rfl := Except.error.inj h₁
  exact ⟨h, fun _ => rfl⟩

/-- The first error of many actions: those in front of it have gone well. -/
theorem outcome_each_error {f : α → Action β} : ∀ {l : List α} {t t' : Tables},
    (each f l).outcome t = (.error e, t') → ∃ before a after bs t₁, l = before ++ a :: after ∧
      (each f before).Yields t bs t₁ ∧ (f a).outcome t₁ = (.error e, t')
  | [], _, _, h => absurd h outcome_pure_ne
  | a :: rest, t, t', h => by
    have h : (f a >>= fun b => each f rest >>= fun bs => pure (b :: bs)).outcome t
        = (.error e, t') := h
    rcases outcome_bind_error h with first | ⟨b, t₁, ha, h⟩
    · exact ⟨[], a, rest, [], t, rfl, yields_pure.mpr ⟨rfl, rfl⟩, first⟩
    rcases outcome_bind_error h with later | ⟨bs, t₂, _, h⟩
    · obtain ⟨before, u, after, bs, t₃, rfl, hb, hu⟩ := outcome_each_error later
      refine ⟨a :: before, u, after, b :: bs, t₃, rfl, ?_, hu⟩
      exact yields_bind.mpr ⟨b, t₁, ha, yields_bind.mpr ⟨bs, t₃, hb, yields_pure.mpr ⟨rfl, rfl⟩⟩⟩
    · exact absurd h outcome_pure_ne

end Action

namespace Store

open Action Contents

variable {s : Store} {R : RecordRule} {c : Contents} {now : Instant} {t t' : Tables}

/-! ## Parts that write -/

theorem check_nil {violations : List Violation} (h : violations = []) :
    check violations = pure () := by
  rw [h]
  rfl

theorem check_violated {violations : List Violation} (h : violations ≠ []) :
    check violations = .fail (.validation violations) := by
  rw [check, Identifier.report, if_neg fun he => h (List.isEmpty_iff.mp he)]
  rfl

/-- A thread that is there can be touched, and stays. -/
theorem blameless_touchThread {id : String} (there : c.thread id ≠ none) :
    Blameless s.keys (s.touchThread now id) c
      fun _ c' => ∀ other, c.thread other ≠ none → c'.thread other ≠ none := by
  have fetched := (ends_fetchThread (c := c) id).reported
    (s.reports_fetchThread MemoryError.blameless_corrupt id)
  have modified : Blameless s.keys (s.modifyThread id (Thread.touch now)) c
      fun _ c' => ∀ other, c.thread other ≠ none → c'.thread other ≠ none := by
    refine ends_exclusively (fetched.andThen (fun _ _ h => h) fun found c' => ?_)
    rintro ⟨rfl, hnone, _⟩
    cases found with
    | none => exact absurd (hnone rfl) there
    | some x =>
      have written := (ends_writeThread (s := s) (c := c') (x.touch now) id).reported
        (reports_ask .putThread)
      refine written.andThen (fun _ _ h => h) fun _ c'' e => ends_pure fun other ho => ?_
      rw [e, thread_setThread]
      split
      · exact Option.some_ne_none _
      · exact ho
  exact modified.andThen (fun _ _ h => h) fun _ _ h => ends_pure h

theorem blameless_touchBoth {origin destination : String} {x : Message}
    (here : c.thread origin ≠ none) (there : c.thread destination ≠ none) :
    Blameless s.keys (do
      s.touchThread now origin
      s.touchThread now destination
      return x) c fun _ _ => True := by
  refine (blameless_touchThread here).andThen (fun _ _ h => h) fun _ c₁ stay => ?_
  refine (blameless_touchThread (stay _ there)).andThen (fun _ _ h => h) fun _ _ _ => ?_
  exact ends_pure trivial

theorem spares_relocate (s : Store) (now : Instant) (x : Message) (origin : String) :
    (s.relocate now x origin).Spares :=
  only_bind (spares_put (by decide)) fun _ =>
    only_bind (only_ite trivial (s.spares_merge _ _)) fun _ =>
      only_bind (spares_delete (by decide)) fun _ =>
        only_bind (only_ite trivial (s.spares_merge _ _)) fun _ => s.spares_notePointer _ _

theorem blameless_relocateAndTouch (x : Message) {origin destination : String}
    (here : c.thread origin ≠ none) (there : c.thread destination ≠ none) :
    Blameless s.keys (do
      s.relocate now x origin
      s.touchThread now origin
      s.touchThread now destination
      return x) c fun _ _ => True := by
  have moved := Spares.blameless (k := s.keys) (c := c) (spares_relocate s now x origin)
    (s.reports_relocate MemoryError.blameless_corrupt now x origin)
  refine moved.andThen (fun _ _ h => h) fun _ c₁ same => ?_
  exact blameless_touchBoth (by rwa [same]) (by rwa [same])

/-- A message that is stored can be moved to a thread that is there. -/
theorem blameless_migrateMessage (h : Founded R c) {id origin destination : String}
    (hi : Identifier.ValidMessage id) (held : c.Holds origin id)
    (valid : Identifier.Valid destination) (there : c.thread destination ≠ none) :
    Blameless s.keys (s.migrateMessage now id origin destination) c fun _ _ => True := by
  have here := h.hasThread held
  have checked : Identifier.messageViolations "messageId" id
      ++ Identifier.violations "fromThreadId" origin
      ++ Identifier.violations "toThreadId" destination = [] := by
    rw [Identifier.messageViolations_eq_nil.mpr hi, Identifier.violations_eq_nil.mpr (h.valid here),
      Identifier.violations_eq_nil.mpr valid]
    rfl
  rw [migrateMessage, check_nil checked, pure_bind]
  have fetched := (ends_fetchMessage (c := c) hi.isMessage).reported
    (s.reports_fetchMessage MemoryError.blameless_corrupt origin id)
  refine fetched.andThen (fun _ _ h => h) fun found c' => ?_
  rintro ⟨rfl, hnone, _⟩
  cases found with
  | none => exact absurd (hnone rfl) held
  | some m =>
    refine ends_ite (fun _ => ends_pure trivial) fun _ => ?_
    have looked := (ends_threadExists (c := c') destination).reported
      (s.reports_threadExists MemoryError.blameless_corrupt destination)
    refine looked.andThen (fun _ _ h => h) fun found c'' => ?_
    rintro ⟨rfl, absent, _⟩
    cases found with
    | false => exact absurd (absent rfl) there
    | true => exact blameless_relocateAndTouch _ here.2 there

/-- A message is moved to the thread that it names, if this thread is there. -/
theorem blameless_fetchHome (h : Founded R c) {v : Message} (hi : Identifier.ValidMessage v.id)
    (valid : Identifier.Valid v.threadId) (there : c.thread v.threadId ≠ none) :
    Blameless s.keys (s.fetchHome now v) c
      fun _ c' => Founded R c' ∧ c'.HasThread = c.HasThread := by
  suffices moves : Blameless s.keys (s.fetchHome now v) c fun _ _ => True from
    ((ends_fetchHome h.toOrderly hi).blameless moves).mono
      (fun _ _ hc => ⟨hc.1.founded h, hc.1.within.threads⟩) fun _ _ h => h
  have searched := (ends_findMessage h.toOrderly hi.isMessage).reported
    (s.reports_findMessage v.id)
  refine searched.andThen (fun _ _ h => h) fun found c' => ?_
  rintro ⟨rfl, _, hsome⟩
  cases found with
  | none => exact ends_pure trivial
  | some current =>
    refine ends_ite (fun _ => ends_pure trivial) fun _ => ?_
    have held : c'.Holds current v.id := (hsome current rfl).holds
    refine (blameless_migrateMessage h hi held valid there).andThen (fun _ _ h => h) fun _ _ _ => ?_
    exact ends_pure trivial

theorem blameless_saveInto (messages : List Message) {thread : String}
    (there : c.thread thread ≠ none) : Blameless s.keys (s.saveInto now messages thread) c
      fun _ c' => ∀ other, c.thread other ≠ none → c'.thread other ≠ none := by
  have spares : ∀ entry, (s.writeOfBatch entry).Spares := fun _ =>
    only_bind (spares_put (by decide)) fun _ => s.spares_notePointer _ _
  have written := Spares.blameless (k := s.keys) (c := c)
    (only_forAll spares (batchOf messages thread)) (reports_forAll s.reports_writeOfBatch _)
  rw [saveInto_inOrder]
  refine written.andThen (fun _ _ h => h) fun _ c₁ same₁ => ?_
  have ordered := fun entries => Spares.blameless (k := s.keys) (c := c₁)
    (p := OrderIndex.add s.keys thread entries) (only_ite trivial (s.spares_merge thread _))
    (s.reports_add MemoryError.blameless_corrupt thread entries)
  refine (ordered _).andThen (fun _ _ h => h) fun _ c₂ same₂ => ?_
  rw [← same₁, ← same₂] at there ⊢
  exact blameless_touchThread there

theorem blameless_updateInPlace {current : String} (before after : Message)
    (there : c.thread current ≠ none) :
    Blameless s.keys (s.updateInPlace now current before after) c fun _ _ => True := by
  have touched : ∀ {c₁ : Contents}, c₁.thread = c.thread → Blameless s.keys (do
      s.touchThread now current
      return after) c₁ fun _ _ => True := fun same =>
    (blameless_touchThread (by rwa [same])).andThen (fun _ _ h => h) fun _ _ _ => ends_pure trivial
  have written := Spares.blameless (k := s.keys) (c := c) (spares_put (by decide))
    (s.reports_writeMessage after (after.toRecord 0))
  refine written.andThen (fun _ _ h => h) fun _ c₁ same₁ => ?_
  refine ends_ite (fun _ => touched same₁) fun _ => ?_
  have spares : (s.rescore after).Spares := only_bind (only_ite trivial (s.spares_merge _ _))
    fun _ => only_ite trivial (s.spares_merge _ _)
  have rescored := Spares.blameless (k := s.keys) (c := c₁) spares
    (s.reports_rescore MemoryError.blameless_corrupt after)
  exact rescored.andThen (fun _ _ h => h) fun _ c₂ same₂ => touched (same₂.trans same₁)

/-- What a batch still does when its threads have been looked up. -/
theorem blameless_saveAll (h : Founded R c) {messages : List Message}
    (valid : ∀ v ∈ messages, Identifier.ValidMessage v.id ∧ Identifier.Valid v.threadId)
    (there : ∀ v ∈ messages, c.HasThread v.threadId) :
    Blameless s.keys (do
      Action.forAll (s.fetchHome now) messages
      Action.forAll (s.saveInto now messages ·) (batchThreads messages)
      return messages) c fun _ _ => True := by
  refine Ends.andThen (Q := fun _ c' => c'.HasThread = c.HasThread) ?_ (fun _ _ h => h)
    fun _ c₁ same => ?_
  · refine (Ends.forAll (I := fun rest c' => (∀ v ∈ rest, v ∈ messages) ∧ Founded R c' ∧
      c'.HasThread = c.HasThread) ?_ ⟨fun _ hv => hv, h, rfl⟩).mono (fun _ _ h => h.2.2)
      fun _ _ h => h
    rintro v rest c' ⟨mem, founded, same⟩
    have hv := mem v List.mem_cons_self
    have there' : c'.HasThread v.threadId := by
      rw [same]
      exact there v hv
    refine (blameless_fetchHome founded (valid v hv).1 (valid v hv).2 there'.2).mono ?_
      fun _ _ h => h
    rintro _ c'' ⟨founded', same'⟩
    exact ⟨fun u hu => mem u (List.mem_cons_of_mem _ hu), founded', same'.trans same⟩
  · refine Ends.andThen (Q := fun _ _ => True) ?_ (fun _ _ h => h) fun _ _ _ => ends_pure trivial
    refine (Ends.forAll (I := fun rest c' => ∀ t ∈ rest, c'.thread t ≠ none) ?_ ?_).mono
      (fun _ _ _ => trivial) fun _ _ h => h
    · intro thread rest c' stand
      refine (blameless_saveInto messages (stand thread List.mem_cons_self)).mono ?_ fun _ _ h => h
      exact fun _ c'' stay t ht => stay t (stand t (List.mem_cons_of_mem _ ht))
    · intro thread ht
      obtain ⟨v, hv, rfl⟩ := mem_batchThreads.mp ht
      have there₁ : c₁.HasThread v.threadId := by
        rw [same]
        exact there v hv
      exact there₁.2

/-! ## Up front -/

section Upfront

variable (s : Store) (now : Instant) (h : Founded R (s.keys.contents t))
include h

theorem upfront_saveMessages {messages : List Message}
    (checked : batchViolations [] 0 messages = []) : (s.saveMessages now messages).Upfront t := by
  have valid := (batchViolations_eq_nil.mp checked).1
  rw [saveMessages, check_nil checked, pure_bind]
  refine upfront_ite (fun _ => upfront_pure) fun _ => ?_
  refine upfront_bind (only_forAll s.reads_requireThread _)
    (reports_forAll (s.reports_requireThread (fun _ _ => rfl) fun _ => rfl) _) fun _ hy => ?_
  obtain ⟨_, known⟩ := (ends_requireThreads (batchThreads messages)).yields hy
  refine (blameless_saveAll h (fun v hv => ⟨(valid v hv).1, (valid v hv).2.1⟩) fun v hv => ?_).upfront
  obtain ⟨x, hx⟩ := known v.threadId (mem_batchThreads.mpr ⟨v, hv, rfl⟩)
  exact hx.hasThread (valid v hv).2.1.ne_empty

theorem upfront_migrateMessage {id origin destination : String}
    (checked : (Operation.migrateMessage id origin destination).violations = []) :
    (s.migrateMessage now id origin destination).Upfront t := by
  rw [Operation.violations] at checked
  rw [migrateMessage, check_nil checked, pure_bind]
  simp only [List.append_eq_nil_iff, Identifier.messageViolations_eq_nil]
    at checked
  refine upfront_bind (s.reads_fetchMessage origin id)
    (s.reports_fetchMessage (fun _ _ => rfl) origin id) fun found hy => ?_
  obtain ⟨_, _, hsome⟩ := (ends_fetchMessage checked.1.1.isMessage).yields hy
  cases found with
  | none => exact upfront_fail rfl
  | some m =>
    have here := h.hasThread (hsome m rfl).holds
    refine upfront_ite (fun _ => upfront_pure) fun _ => ?_
    refine upfront_bind (s.reads_threadExists destination)
      (s.reports_threadExists (fun _ _ => rfl) destination) fun found hy => ?_
    obtain ⟨_, there⟩ := yields_threadExists hy
    cases found with
    | false => exact upfront_fail rfl
    | true => exact (blameless_relocateAndTouch _ here.2 (there.mp rfl)).upfront

theorem upfront_updateMessage {u : MessageUpdate} (hi : Identifier.ValidMessage u.id) :
    (s.updateMessage now u).Upfront t := by
  refine upfront_bind (s.reads_findMessage u.id) (s.reports_findMessage u.id) fun found hy => ?_
  obtain ⟨_, _, hsome⟩ := (ends_findMessage h.toOrderly hi.isMessage).yields hy
  cases found with
  | none => exact upfront_fail rfl
  | some current =>
    have here := h.hasThread (hsome current rfl).holds
    refine upfront_bind (s.reads_fetchMessage current u.id)
      (s.reports_fetchMessage (fun _ _ => rfl) current u.id) fun found _ => ?_
    cases found with
    | none => exact upfront_fail rfl
    | some before =>
      dsimp only
      split
      · next destination _ =>
        refine upfront_bind (s.reads_requireThread destination)
          (s.reports_requireThread (fun _ _ => rfl) (fun _ => rfl) destination) fun _ hy => ?_
        obtain ⟨_, x, r, hr, _⟩ := (ends_requireThread destination).yields hy
        refine (blameless_relocateAndTouch _ here.2 ?_).upfront
        rw [hr]
        exact Option.some_ne_none r
      · exact (blameless_updateInPlace before _ here.2).upfront

/-- An operation whose arguments keep the rules finds out up front what is not there. -/
theorem upfront_perform {op : Operation} (changes : op.fallback? = none)
    (checked : op.violations = []) (one : ∀ us, op ≠ .updateMessages us) :
    (s.perform now op).Upfront t := by
  cases op with
  | getThread _ | listThreads _ | listMessagesById _ | listMessages _ | listRecent _ _
  | getResource _ => exact absurd changes (Option.some_ne_none _)
  | updateMessages us => exact absurd rfl (one us)
  | saveMessages ms => exact upfront_map (s.upfront_saveMessages now h checked)
  | migrateMessage id origin destination => exact upfront_map (s.upfront_migrateMessage now h checked)
  | saveThread x => exact (reports_map (s.reports_saveThread x (absurd checked))).upfront
  | saveResource r => exact (reports_map (s.reports_saveResource r (absurd checked))).upfront
  | updateResource id memory patch =>
    exact (reports_map (s.reports_updateResource MemoryError.blameless_corrupt now id memory patch
      (absurd checked))).upfront
  | reconcileThread id =>
    exact (reports_map (s.reports_reconcileThread MemoryError.blameless_corrupt id
      (absurd checked) .inOrder)).upfront
  | updateThread id title patch =>
    refine upfront_map (upfront_exclusively ?_)
    refine upfront_bind (s.reads_fetchThread id) (s.reports_fetchThread (fun _ _ => rfl) id) ?_
    intro found _
    cases found with
    | none => exact upfront_fail rfl
    | some x =>
      refine Reports.upfront (k := s.keys) ?_
      exact reports_bind (reports_ask .putThread) fun _ => trivial
  | deleteThread id =>
    rw [Operation.violations] at checked
    refine upfront_map ?_
    rw [deleteThread, check_nil checked, pure_bind]
    refine upfront_bind (s.reads_threadExists id) (s.reports_threadExists (fun _ _ => rfl) id) ?_
    refine fun found _ => upfront_ite (fun _ => ?_) fun _ => upfront_fail rfl
    exact (reports_bind (s.reports_messageIds id) fun ids => s.reports_purge id ids .inOrder).upfront

end Upfront

/-! ## Arguments that break the rules -/

theorem perform_violated (s : Store) (now : Instant) {op : Operation} (h : op.violations ≠ []) :
    s.perform now op = .fail (.validation op.violations) := by
  have checked : ∀ {α : Type} (p : Action α) (f : α → Reply) {violations : List Violation},
      violations ≠ [] → f <$> (check violations >>= fun _ => p) = .fail (.validation violations) := by
    intro _ p f violations hv
    rw [check_violated hv]
    rfl
  have twice : ∀ {α : Type} (p : Action α) (f : α → Reply) {first second : List Violation},
      (if first = [] then second else first) ≠ [] →
      f <$> (check first >>= fun _ => check second >>= fun _ => p)
        = .fail (.validation (if first = [] then second else first)) := by
    intro _ p f first second hv
    by_cases hf : first = []
    · rw [if_pos hf] at hv ⊢
      rw [check_nil hf, pure_bind]
      exact checked p f hv
    · rw [if_neg hf]
      exact checked _ f hf
  cases op with
  | getThread _ | updateThread _ _ _ | listMessagesById _ | getResource _ => exact absurd rfl h
  | listThreads q => exact twice _ _ h
  | listMessages q => exact twice _ _ h
  | _ => exact checked _ _ h

theorem updateViolations_append : ∀ {us vs : List MessageUpdate} {position : Nat},
    updateViolations position (us ++ vs) = [] → updateViolations position us = []
  | [], _, _, _ => rfl
  | u :: us, vs, position, h => by
    obtain ⟨h₁, h₂⟩ := List.append_eq_nil_iff.mp h
    exact List.append_eq_nil_iff.mpr ⟨h₁, updateViolations_append h₂⟩

/-! ## Rejections -/

/-- The tables after a call that was rejected because something is not there: those in front of it,
and for a list of changes those after the changes that went well. -/
def Untouched (s : Store) (now : Instant) (op : Operation) (e : MemoryError) (w : World)
    (t : Tables) : Prop :=
  match op with
  | .updateMessages us => ∃ before u after ys w₁, us = before ++ u :: after ∧
    (s.perform now (.updateMessages before)).run Faults.none w = (.ok (.messages ys), w₁) ∧
    ((s.updateMessage now u).run Faults.none w₁).1 = .error e ∧ t = w₁.tables
  | _ => t = w.tables

/-- A list of changes is rejected at one of them, when those in front of it have been applied. -/
theorem rejected_updateMessages {us : List MessageUpdate} {w : World} {e : MemoryError}
    (h : Founded .written (s.keys.contents w.tables)) (checked : updateViolations 0 us = [])
    (missing : e.IsMissing) (hp : (s.updateMessages now us).outcome w.tables = (.error e, t')) :
    s.Untouched now (.updateMessages us) e w t' := by
  rw [updateMessages, check_nil checked, pure_bind] at hp
  obtain ⟨before, u, after, ys, t₁, rfl, hbefore, hu⟩ := outcome_each_error hp
  have valid := valid_of_updateViolations checked
  have applied : (s.perform now (.updateMessages before)).Yields w.tables (.messages ys) t₁ := by
    rw [perform, updateMessages, check_nil (updateViolations_append checked), pure_bind,
      ← bind_pure_comp]
    exact yields_bind.mpr ⟨ys, t₁, hbefore, yields_pure.mpr ⟨rfl, rfl⟩⟩
  obtain ⟨result, tables⟩ := applied.run
  have founded : Founded .written (s.keys.contents t₁) := by
    refine (Updates.follows ((ends_eachUpdate h.toOrderly fun v hv => ?_).yields hbefore)).founded h
    exact ⟨valid v (List.mem_append_left _ hv), fun _ _ => trivial⟩
  have hi := (valid u (List.mem_append_right _ List.mem_cons_self)).1
  obtain ⟨_, same⟩ := s.upfront_updateMessage now founded hi e t' hu
  refine ⟨before, u, after, ys, _, rfl, Prod.ext result rfl, ?_, (same missing.user).trans tables.symm⟩
  rw [← tables, outcome_eq_run] at hu
  exact (Prod.mk.inj hu).1

/-- An operation whose arguments keep the rules is not rejected for them, and if it is rejected for
what is not there it has changed nothing or, if it is a list of changes, those in front. -/
theorem accepted_perform (s : Store) (now : Instant) (faults : Faults) {op : Operation} {w : World}
    (h : Founded .written (s.keys.contents w.tables)) (checked : op.violations = []) :
    (∀ e, ((s.perform now op).run faults w).1 = .error e → e.isValidation = false) ∧
    ∀ e : MemoryError, e.IsMissing → ((s.perform now op).run faults w).1 = .error e →
      s.Untouched now op e w ((s.perform now op).run faults w).2.tables := by
  cases changes : op.fallback? with
  | some empty =>
    have answers : ∀ e, ((s.perform now op).run faults w).1 ≠ .error e := fun e he =>
      ((s.fallsBack_perform now changes faults w).2 e he).1 checked
    exact ⟨fun e he => absurd he (answers e), fun e _ he => absurd he (answers e)⟩
  | none =>
    rcases (s.reports_changes now changes .inOrder).run_or_broken faults w with ⟨_, same⟩ | broken
    · rw [same]
      have outcome : ∀ e, ((s.perform now op).run Faults.none w).1 = .error e →
          (s.perform now op).outcome w.tables
            = (.error e, ((s.perform now op).run Faults.none w).2.tables) := fun e he => by
        rw [outcome_eq_run, he]
      cases op with
      | updateMessages us =>
        have unobjecting : (s.perform now (.updateMessages us)).Reports s.keys
            (·.isValidation = false) :=
          s.reports_perform now rfl (absurd checked) (fun _ h => by simp at h) (fun _ _ => rfl)
            (fun _ => rfl) (fun _ => rfl) .inOrder
        refine ⟨fun e => unobjecting.error_kind, fun e missing he => ?_⟩
        exact rejected_updateMessages h checked missing (outcome_map_error (outcome e he))
      | _ =>
        have upfront := s.upfront_perform now h changes checked (by simp)
        exact ⟨fun e he => (upfront e _ (outcome e he)).1, fun e missing he =>
          (upfront e _ (outcome e he)).2 missing.user⟩
    · obtain ⟨_, _, _, _, _, _, _, _, result⟩ := broken
      have backend : ∀ e, ((s.perform now op).run faults w).1 = .error e →
          e.isValidation = false ∧ ¬ e.IsMissing := fun e he => by
        obtain rfl := Except.error.inj (result.symm.trans he)
        exact ⟨rfl, by rintro (⟨_, h⟩ | ⟨_, h⟩) <;> simp at h⟩
      exact ⟨fun e he => (backend e he).1, fun e missing he => absurd missing (backend e he).2⟩

/--
After a history without failures, whatever calls fail now: whether a call is rejected for its
arguments depends on them alone, and then nothing is done at all. If a call is rejected because a
thread or a message is not there, the tables are as before; a list of changes is rejected at one of
them, and leaves the tables as those in front of it do.
-/
theorem rejected_unchanged (s : Store) (history : List (Instant × Operation)) (now : Instant)
    (op : Operation) (faults : Faults) :
    let w := (s.performAll Faults.none history World.initial).2
    let out := (s.perform now op).run faults w
    ((∃ violations, out.1 = .error (.validation violations)) ↔ op.violations ≠ []) ∧
    (op.violations ≠ [] → out = (.error (.validation op.violations), w)) ∧
    ∀ e : MemoryError, e.IsMissing → out.1 = .error e → s.Untouched now op e w out.2.tables := by
  intro w out
  have founded : Founded .written (s.keys.contents w.tables) :=
    performAll_founded s Faults.none fun e _ => e.2.dated_written
  have violated : op.violations ≠ [] → out = (.error (.validation op.violations), w) := fun h => by
    show (s.perform now op).run faults w = _
    rw [s.perform_violated now h, run_fail]
  by_cases checked : op.violations = []
  · have accepted := s.accepted_perform now faults founded checked
    refine ⟨⟨fun ⟨violations, hv⟩ => ?_, fun h => absurd checked h⟩, violated, fun e missing he => ?_⟩
    · exact absurd (accepted.1 _ hv) (by simp [MemoryError.isValidation])
    · exact accepted.2 e missing he
  · have rejected := violated checked
    refine ⟨⟨fun _ => checked, fun _ => ⟨_, by rw [rejected]⟩⟩, violated, fun e missing he => ?_⟩
    rw [rejected] at he
    obtain rfl := Except.error.inj he
    rcases missing with ⟨_, h⟩ | ⟨_, h⟩
    · exact absurd h (by simp)
    · exact absurd h (by simp)

end Store

end ChatMemory
