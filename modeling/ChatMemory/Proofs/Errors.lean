import ChatMemory.Proofs.Failures

/-!
# The errors of operations

The parts of operations and the operations themselves report failed calls. Besides, each ends only
with errors of the causes that its lemma names: a record that does not decode (`corrupt`), a thread or
a message that is not there (`thread`, `message`), arguments that break the rules (`invalid`).

## Main statements

* `reports_updateMessage`, `reports_collectPage`, … — one for each operation, up to its checks.
* `reports_perform` — the errors of an operation that changes something.
* `fallsBack_perform` — a reading falls back on its empty answer.
* `perform_failures` — what failed calls can do.
-/

namespace ChatMemory

/-! ## Arguments and answers -/

namespace Operation

/-- What is wrong with the arguments of an operation. Of two checks that follow each other the first
that finds something counts. -/
def violations : Operation → List Violation
  | .getThread _ | .updateThread _ _ _ | .listMessagesById _ | .getResource _ => []
  | .saveThread t => Identifier.violations "id" t.id ++ Identifier.violations "resourceId" t.resourceId
  | .deleteThread id | .listRecent id _ | .reconcileThread id => Identifier.violations "threadId" id
  | .listThreads q =>
    if Identifier.pageViolations q.page = [] then Identifier.violations "resourceId" q.resourceId
    else Identifier.pageViolations q.page
  | .saveMessages ms => Store.batchViolations [] 0 ms
  | .updateMessages us => Store.updateViolations 0 us
  | .listMessages q =>
    if Identifier.pageViolations q.page = [] then Store.queryViolations q
    else Identifier.pageViolations q.page
  | .saveResource r => Identifier.violations "id" r.id
  | .updateResource id _ _ => Identifier.violations "resourceId" id
  | .migrateMessage message origin destination =>
    Identifier.messageViolations "messageId" message ++ Identifier.violations "fromThreadId" origin
      ++ Identifier.violations "toThreadId" destination

/-- The empty answer of a reading. Operations that change something have none. -/
def fallback? : Operation → Option Reply
  | .getThread _ => some (.thread none)
  | .listThreads q => some (.threads (.empty q))
  | .listMessagesById _ | .listRecent _ _ => some (.messages [])
  | .listMessages q => some (.page (.empty q))
  | .getResource _ => some (.resource none)
  | _ => none

theorem reading_iff {op : Operation} : op.Reading ↔ op.fallback? ≠ none := by
  cases op <;> simp [Reading, fallback?]

end Operation

/-! ## Parts of operations -/

namespace Store

open Action

variable (s : Store) {kind : MemoryError → Prop}

/-- A check ends with an error if there are violations, and with no other. -/
theorem reports_check {violations : List Violation}
    (invalid : violations ≠ [] → kind (.validation violations)) :
    (check violations).Reports s.keys kind := by
  rw [check, Identifier.report]
  split
  · trivial
  · next h => exact invalid fun e => h (by rw [e]; rfl)

/-! ### Without other errors -/

theorem reports_threadIds : s.threadIds.Reports s.keys kind :=
  reports_bind (reports_ask .listThreads) fun _ => trivial

theorem reports_messageIds (thread : String) : (s.messageIds thread).Reports s.keys kind :=
  reports_bind (reports_ask .listMessages) fun _ => trivial

theorem reports_holds (thread id : String) : (s.holds thread id).Reports s.keys kind :=
  reports_bind (reports_ask .getMessage) fun _ => trivial

theorem reports_firstHolder (id : String) :
    ∀ threads : List String, (s.firstHolder id threads).Reports s.keys kind
  | [] => trivial
  | thread :: rest => reports_bind (s.reports_holds thread id) fun _ =>
    reports_ite trivial (reports_firstHolder id rest)

theorem reports_holdersAmong (id : String) :
    ∀ threads : List String, (s.holdersAmong id threads).Reports s.keys kind
  | [] => trivial
  | thread :: rest => reports_bind (s.reports_holds thread id) fun _ =>
    reports_bind (reports_holdersAmong id rest) fun _ => trivial

theorem reports_pointer (id : String) : (s.pointer id).Reports s.keys kind :=
  reports_bind (reports_ask .getPointer) fun _ => trivial

theorem reports_verifiedPointer (id : String) : (s.verifiedPointer id).Reports s.keys kind := by
  refine reports_ite (reports_bind (s.reports_pointer id) fun named => ?_) trivial
  cases named with
  | none => trivial
  | some thread =>
    exact reports_bind (s.reports_holds thread id) fun _ => reports_ite trivial trivial

theorem reports_findMessage (id : String) : (s.findMessage id).Reports s.keys kind := by
  refine reports_bind (s.reports_verifiedPointer id) fun named => ?_
  cases named with
  | some thread => trivial
  | none => exact reports_bind s.reports_threadIds (s.reports_firstHolder id)

theorem reports_locateByPointer :
    ∀ (ids : List String) (l : Located), (s.locateByPointer l ids).Reports s.keys kind
  | [], _ => trivial
  | id :: rest, l => by
    refine reports_ite (reports_locateByPointer rest l) ?_
    refine reports_bind (s.reports_verifiedPointer id) fun named => ?_
    cases named with
    | some thread => exact reports_locateByPointer rest _
    | none => exact reports_locateByPointer rest _

theorem reports_locateMany (ids : List String) : (s.locateMany ids).Reports s.keys kind := by
  refine reports_bind (s.reports_locateByPointer ids {}) fun l => reports_ite trivial ?_
  refine reports_bind s.reports_threadIds fun threads => ?_
  refine reports_bind (reports_each (fun thread => ?_) threads) fun _ => trivial
  exact reports_bind (s.reports_messageIds thread) fun _ => trivial

theorem reports_notePointer (id thread : String) :
    (s.notePointer id thread).Reports s.keys kind :=
  reports_ite (reports_ask .putPointer) trivial

theorem reports_forgetPointer (id thread : String) :
    (s.forgetPointer id thread).Reports s.keys kind :=
  reports_ite (reports_bind (s.reports_pointer id) fun _ =>
    reports_ite (reports_ask .deletePointer) trivial) trivial

theorem reports_writeMessage (m : Message) (record : Json) :
    (s.writeMessage m record).Reports s.keys kind := reports_ask .putMessage

theorem reports_writeOfBatch (entry : Message × Nat) :
    (s.writeOfBatch entry).Reports s.keys kind :=
  reports_bind (s.reports_writeMessage _ _) fun _ => s.reports_notePointer _ _

theorem reports_loadCopy (thread id : String) : (s.loadCopy thread id).Reports s.keys kind := by
  refine reports_bind (reports_ask .getMessage) fun stored => ?_
  cases stored with
  | none => trivial
  | some record =>
    dsimp only
    split <;> trivial

theorem reports_movedFrom (origin id : String) :
    ∀ threads : List String, (s.movedFrom origin id threads).Reports s.keys kind
  | [] => trivial
  | thread :: rest => reports_bind (s.reports_loadCopy thread id) fun _ =>
    reports_ite trivial (reports_movedFrom origin id rest)

theorem reports_purges (thread : String) (ids : List String) :
    ∀ p ∈ s.purges thread ids, p.Reports s.keys kind := by
  intro p hp
  rcases List.mem_append.mp hp with hp | hp
  · obtain ⟨id, _, rfl⟩ := List.mem_map.mp hp
    exact reports_bind (reports_ask .purgeMessage) fun _ => s.reports_forgetPointer id thread
  · rcases List.mem_cons.mp hp with rfl | hp
    · exact reports_exclusively (reports_ask .deleteOrder)
    · obtain rfl := List.mem_singleton.mp hp
      exact reports_ask .deleteThread

theorem reports_purge (thread : String) (ids : List String) (schedule : Schedule) :
    (s.purge thread ids schedule).Reports s.keys kind :=
  reports_together _ (s.reports_purges thread ids)

theorem reports_saveThread (t : Thread) (invalid : (Operation.saveThread t).violations ≠ [] →
      kind (.validation (Operation.saveThread t).violations)) :
    (s.saveThread t).Reports s.keys kind := by
  refine reports_bind (s.reports_check invalid) fun _ => ?_
  exact reports_bind (reports_exclusively (reports_ask .putThread)) fun _ => trivial

theorem reports_saveResource (r : Resource) (invalid : (Operation.saveResource r).violations ≠ [] →
      kind (.validation (Operation.saveResource r).violations)) :
    (s.saveResource r).Reports s.keys kind := by
  refine reports_bind (s.reports_check invalid) fun _ => ?_
  exact reports_bind (reports_exclusively (reports_ask .putResource)) fun _ => trivial

/-- A reading that takes an undecodable record for none ends with no other error. -/
theorem reports_skipCorrupt {α : Type} {p : Action (Option α)}
    (h : p.Reports s.keys fun e => ∃ key cause, e = .corrupt key cause) :
    (skipCorrupt p).Reports s.keys kind := by
  refine reports_recover ?_ ?_ h
  · exact fun _ _ _ => rfl
  · rintro _ ⟨key, cause, rfl⟩
    trivial

/-! ### Records that do not decode -/

section Corrupt

variable (corrupt : ∀ key cause, kind (.corrupt key cause))
include corrupt

theorem reports_fetchThread (id : String) : (s.fetchThread id).Reports s.keys kind := by
  refine reports_bind (reports_ask .getThread) fun stored => ?_
  cases stored with
  | none => trivial
  | some record =>
    dsimp only
    split
    · trivial
    · exact corrupt _ _

theorem reports_threadExists (id : String) : (s.threadExists id).Reports s.keys kind :=
  reports_bind (s.reports_fetchThread corrupt id) fun _ => trivial

theorem reports_fetchMessage (thread id : String) :
    (s.fetchMessage thread id).Reports s.keys kind := by
  refine reports_bind (reports_ask .getMessage) fun stored => ?_
  cases stored with
  | none => trivial
  | some record =>
    dsimp only
    split
    · trivial
    · exact corrupt _ _

theorem reports_fetchResource (id : String) : (s.fetchResource id).Reports s.keys kind := by
  refine reports_bind (reports_ask .getResource) fun stored => ?_
  cases stored with
  | none => trivial
  | some record =>
    dsimp only
    split
    · trivial
    · exact corrupt _ _

theorem reports_updateResource (now : Instant) (id : String) (memory : Option String)
    (patch : Option Object) (invalid : (Operation.updateResource id memory patch).violations ≠ [] →
      kind (.validation (Operation.updateResource id memory patch).violations)) :
    (s.updateResource now id memory patch).Reports s.keys kind := by
  refine reports_bind (s.reports_check invalid) fun _ => reports_exclusively ?_
  exact reports_bind (s.reports_fetchResource corrupt id) fun _ =>
    reports_bind (reports_ask .putResource) fun _ => trivial

theorem reports_snapshot (thread : String) :
    (OrderIndex.snapshot s.keys thread).Reports s.keys kind := by
  refine reports_bind (reports_ask .getOrder) fun stored => ?_
  split
  · trivial
  · exact corrupt _ _

theorem reports_merge (thread : String) (change : OrderSnapshot → Option OrderSnapshot) :
    (OrderIndex.merge s.keys thread change).Reports s.keys kind := by
  refine reports_exclusively (reports_bind (s.reports_snapshot corrupt thread) fun order => ?_)
  cases change order with
  | none => trivial
  | some order' => exact reports_ask .putOrder

theorem reports_add (thread : String) (entries : List OrderEntry) :
    (OrderIndex.add s.keys thread entries).Reports s.keys kind :=
  reports_ite trivial (s.reports_merge corrupt thread _)

theorem reports_remove (thread : String) (ids : List String) :
    (OrderIndex.remove s.keys thread ids).Reports s.keys kind :=
  reports_ite trivial (s.reports_merge corrupt thread _)

theorem reports_rescore (m : Message) : (s.rescore m).Reports s.keys kind :=
  reports_bind (s.reports_remove corrupt _ _) fun _ => s.reports_add corrupt _ _

theorem reports_relocate (now : Instant) (m : Message) (origin : String) :
    (s.relocate now m origin).Reports s.keys kind :=
  reports_bind (s.reports_writeMessage _ _) fun _ =>
    reports_bind (s.reports_remove corrupt _ _) fun _ =>
      reports_bind (reports_ask .moveMessage) fun _ =>
        reports_bind (s.reports_add corrupt _ _) fun _ => s.reports_notePointer _ _

theorem reports_indexedAmong (id : String) :
    ∀ threads : List String, (s.indexedAmong id threads).Reports s.keys kind
  | [] => trivial
  | thread :: rest => reports_bind (s.reports_snapshot corrupt thread) fun _ =>
    reports_ite trivial (reports_indexedAmong id rest)

theorem reports_keepCopy (thread : String) (copy : StoredCopy) (order : OrderSnapshot) :
    (s.keepCopy thread copy order).Reports s.keys kind := by
  refine reports_bind (reports_bind s.reports_threadIds fun _ => s.reports_holdersAmong _ _)
    fun holders => reports_ite trivial ?_
  refine reports_bind (s.reports_indexedAmong corrupt _ holders) fun _ => reports_ite trivial ?_
  refine reports_ite trivial (reports_ite trivial ?_)
  exact reports_bind (s.reports_movedFrom _ _ holders) fun _ => trivial

theorem reports_settleCopy (thread id : String) (order : OrderSnapshot) :
    (s.settleCopy thread order id).Reports s.keys kind := by
  refine reports_bind (s.reports_loadCopy thread id) fun found => ?_
  cases found with
  | none => trivial
  | some copy =>
    refine reports_ite trivial (reports_bind (s.reports_keepCopy corrupt thread copy order) ?_)
    refine fun _ => reports_ite (reports_ite trivial ?_) ?_
    · exact reports_bind (reports_ask .rewriteMessage) fun _ => trivial
    · refine reports_bind ?_ fun _ => trivial
      exact reports_bind (reports_ask .reconcileMessage) fun _ => s.reports_forgetPointer id thread

theorem reports_reconcileExisting (thread : String) (ids : List String) :
    (s.reconcileExisting thread ids).Reports s.keys kind := by
  refine reports_bind (s.reports_snapshot corrupt thread) fun order => ?_
  refine reports_bind (reports_each (fun id => s.reports_settleCopy corrupt thread id order) ids) ?_
  refine fun _ => reports_bind (s.reports_remove corrupt thread _) fun _ => ?_
  refine reports_bind (s.reports_add corrupt thread _) fun _ => ?_
  exact reports_bind (reports_forAll (fun m : Message => s.reports_notePointer m.id thread) _)
    fun _ => trivial

theorem reports_reconcileGone (thread : String) (ids : List String) (schedule : Schedule) :
    (s.reconcileGone thread ids schedule).Reports s.keys kind := by
  refine reports_bind (s.reports_snapshot corrupt thread) fun order => reports_ite trivial ?_
  exact reports_bind (s.reports_purge thread ids schedule) fun _ => trivial

theorem reports_reconcileThread (id : String)
    (invalid : (Operation.reconcileThread id).violations ≠ [] →
      kind (.validation (Operation.reconcileThread id).violations)) (schedule : Schedule) :
    (s.reconcileThread id schedule).Reports s.keys kind := by
  refine reports_bind (s.reports_check invalid) fun _ => ?_
  refine reports_bind (s.reports_messageIds id) fun ids => ?_
  refine reports_bind (s.reports_threadExists corrupt id) fun _ => ?_
  exact reports_ite (s.reports_reconcileExisting corrupt id ids)
    (s.reports_reconcileGone corrupt id ids schedule)

/-! #### Pages -/

theorem reports_loadOrder (orders : Orders) (thread : String) :
    (s.loadOrder orders thread).Reports s.keys kind := by
  unfold loadOrder
  split
  · trivial
  · exact reports_bind (s.reports_snapshot corrupt thread) fun _ => trivial

theorem reports_loadTargets : ∀ (threads : List String) (orders : Orders),
    (s.loadTargets orders threads).Reports s.keys kind
  | [], _ => trivial
  | thread :: rest, orders => reports_ite (reports_loadTargets rest orders) <|
    reports_bind (s.reports_loadOrder corrupt orders thread) fun loaded =>
      reports_bind (reports_loadTargets rest loaded.2) fun _ => trivial

omit corrupt in
theorem reports_fetchMany (targets : List (String × String)) :
    (s.fetchMany targets).Reports s.keys kind := by
  refine reports_bind (reports_each (fun target => s.reports_skipCorrupt ?_) targets) fun _ => trivial
  exact s.reports_fetchMessage (fun key cause => ⟨key, cause, rfl⟩) _ _

theorem reports_window (q : MessageQuery) : (s.window q).Reports s.keys kind := by
  have filtered : (s.filteredWindow q).Reports s.keys kind :=
    reports_bind (s.reports_loadTargets corrupt q.threadIds []) fun _ =>
      reports_bind (s.reports_fetchMany _) fun _ => trivial
  unfold window
  split
  · refine reports_ite filtered ?_
    exact reports_bind (s.reports_snapshot corrupt _) fun _ =>
      reports_bind (s.reports_fetchMany _) fun _ => trivial
  · exact filtered

theorem reports_firstIndexing (id : String) : ∀ (threads : List String) (orders : Orders),
    (s.firstIndexing orders id threads).Reports s.keys kind
  | [], _ => trivial
  | thread :: rest, orders =>
    reports_bind (s.reports_loadOrder corrupt orders thread) fun loaded =>
      reports_ite trivial (reports_firstIndexing id rest loaded.2)

theorem reports_includeThread (q : MessageQuery) (orders : Orders) (r : IncludeRequest) :
    (s.includeThread q orders r).Reports s.keys kind := by
  unfold includeThread
  split
  · trivial
  · refine reports_bind (s.reports_firstIndexing corrupt r.id q.threadIds orders) ?_
    rintro ⟨thread?, orders'⟩
    cases thread? with
    | some thread => trivial
    | none => exact reports_bind (s.reports_findMessage r.id) fun _ => trivial

theorem reports_includeTargets (q : MessageQuery) :
    ∀ (requests : List IncludeRequest) (orders : Orders),
      (s.includeTargets q orders requests).Reports s.keys kind
  | [], _ => trivial
  | r :: rest, orders => by
    refine reports_bind (s.reports_includeThread corrupt q orders r) fun found => ?_
    obtain ⟨thread?, orders'⟩ := found
    cases thread? with
    | none => exact reports_includeTargets q rest orders'
    | some thread =>
      exact reports_bind (s.reports_loadOrder corrupt orders' thread) fun loaded =>
        reports_bind (reports_includeTargets q rest loaded.2) fun _ => trivial

theorem reports_collectPage (q : MessageQuery) : (s.collectPage q).Reports s.keys kind :=
  reports_bind (s.reports_window corrupt q) fun loaded =>
    reports_bind (s.reports_includeTargets corrupt q q.includes loaded.2) fun found =>
      reports_bind (s.reports_fetchMany (distinct found.1)) fun _ => trivial

/-! ### What is not there -/

section Thread

variable (thread : ∀ id, kind (.threadNotFound id))
include thread

theorem reports_requireThread (id : String) : (s.requireThread id).Reports s.keys kind :=
  reports_bind (s.reports_threadExists corrupt id) fun _ => reports_ite trivial (thread id)

theorem reports_modifyThread (id : String) (change : Thread → Thread) :
    (s.modifyThread id change).Reports s.keys kind := by
  refine reports_exclusively (reports_bind (s.reports_fetchThread corrupt id) fun found => ?_)
  cases found with
  | none => exact thread id
  | some t => exact reports_bind (reports_ask .putThread) fun _ => trivial

theorem reports_touchThread (now : Instant) (id : String) :
    (s.touchThread now id).Reports s.keys kind :=
  reports_bind (s.reports_modifyThread corrupt thread id _) fun _ => trivial

theorem reports_saveInto (now : Instant) (ms : List Message) (id : String) (schedule : Schedule) :
    (s.saveInto now ms id schedule).Reports s.keys kind := by
  refine reports_bind (reports_together _ fun p hp => ?_) fun _ =>
    reports_bind (s.reports_add corrupt _ _) fun _ => s.reports_touchThread corrupt thread now id
  obtain ⟨entry, _, rfl⟩ := List.mem_map.mp hp
  exact s.reports_writeOfBatch entry

variable (message : ∀ id, kind (.messageNotFound id))
include message

theorem reports_migrateMessage (now : Instant) (id origin destination : String)
    (invalid : (Operation.migrateMessage id origin destination).violations ≠ [] →
      kind (.validation (Operation.migrateMessage id origin destination).violations)) :
    (s.migrateMessage now id origin destination).Reports s.keys kind := by
  refine reports_bind (s.reports_check invalid) fun _ => ?_
  refine reports_bind (s.reports_fetchMessage corrupt origin id) fun found => ?_
  cases found with
  | none => exact message id
  | some m =>
    refine reports_ite trivial (reports_bind (s.reports_threadExists corrupt destination) fun _ => ?_)
    refine reports_ite ?_ (thread destination)
    refine reports_bind (s.reports_relocate corrupt now _ origin) fun _ => ?_
    exact reports_bind (s.reports_touchThread corrupt thread now origin) fun _ =>
      reports_bind (s.reports_touchThread corrupt thread now destination) fun _ => trivial

theorem reports_updateMessage (now : Instant) (u : MessageUpdate) :
    (s.updateMessage now u).Reports s.keys kind := by
  refine reports_bind (s.reports_findMessage u.id) fun found => ?_
  cases found with
  | none => exact message u.id
  | some current =>
    refine reports_bind (s.reports_fetchMessage corrupt current u.id) fun stored => ?_
    cases stored with
    | none => exact message u.id
    | some before =>
      dsimp only
      split
      · exact reports_bind (s.reports_requireThread corrupt thread _) fun _ =>
          reports_bind (s.reports_relocate corrupt now _ _) fun _ =>
            reports_bind (s.reports_touchThread corrupt thread now _) fun _ =>
              reports_bind (s.reports_touchThread corrupt thread now _) fun _ => trivial
      · have touch := fun m : Message =>
          reports_bind (s.reports_touchThread corrupt thread now current)
            (f := fun _ => pure m) fun _ => trivial
        exact reports_bind (s.reports_writeMessage _ _) fun _ => reports_ite (touch _)
          (reports_bind (s.reports_rescore corrupt _) fun _ => touch _)

end Thread

end Corrupt

end Store

/-! ## Operations -/

namespace Store

open Action

/-- The errors of an operation that changes something, besides those of failed calls. A batch that is
saved checks again what it moves. -/
theorem reports_perform (s : Store) (now : Instant) {op : Operation} {kind : MemoryError → Prop}
    (changes : op.fallback? = none) (invalid : op.violations ≠ [] → kind (.validation op.violations))
    (inner : ∀ ms, op = .saveMessages ms → ∀ violations, kind (.validation violations))
    (corrupt : ∀ key cause, kind (.corrupt key cause)) (thread : ∀ id, kind (.threadNotFound id))
    (message : ∀ id, kind (.messageNotFound id)) (schedule : Schedule) :
    (s.perform now op schedule).Reports s.keys kind := by
  have check := s.reports_check invalid
  cases op with
  | getThread _ | listThreads _ | listMessagesById _ | listMessages _ | listRecent _ _
  | getResource _ => exact absurd changes (Option.some_ne_none _)
  | saveThread t => exact reports_map (s.reports_saveThread t invalid)
  | updateThread id title patch => exact reports_map (s.reports_modifyThread corrupt thread id _)
  | deleteThread id =>
    refine reports_map (reports_bind check fun _ => ?_)
    refine reports_bind (s.reports_threadExists corrupt id) fun _ => reports_ite ?_ (thread id)
    exact reports_bind (s.reports_messageIds id) fun ids => s.reports_purge id ids schedule
  | saveMessages ms =>
    refine reports_map (reports_bind check fun _ => reports_ite trivial ?_)
    refine reports_bind (reports_forAll (s.reports_requireThread corrupt thread) _) fun _ => ?_
    refine reports_bind (reports_forAll (fun m => ?_) ms) fun _ => ?_
    · refine reports_bind (s.reports_findMessage m.id) fun found => ?_
      cases found with
      | none => trivial
      | some current =>
        refine reports_ite trivial (reports_bind ?_ fun _ => trivial)
        exact s.reports_migrateMessage corrupt thread message now _ _ _ fun _ => inner ms rfl _
    · have part := fun id => s.reports_saveInto corrupt thread now ms id schedule
      exact reports_bind (reports_forAll part _) fun _ => trivial
  | updateMessages us =>
    refine reports_map (reports_bind check fun _ => ?_)
    exact reports_each (s.reports_updateMessage corrupt thread message now) us
  | saveResource r => exact reports_map (s.reports_saveResource r invalid)
  | updateResource id memory patch =>
    exact reports_map (s.reports_updateResource corrupt now id memory patch invalid)
  | reconcileThread id => exact reports_map (s.reports_reconcileThread corrupt id invalid schedule)
  | migrateMessage id origin destination =>
    exact reports_map (s.reports_migrateMessage corrupt thread message now id origin destination
      invalid)

/-- An operation that changes something reports failures. -/
theorem reports_changes (s : Store) (now : Instant) {op : Operation} (changes : op.fallback? = none)
    (schedule : Schedule) : (s.perform now op schedule).Reports s.keys fun _ => True :=
  s.reports_perform now changes (fun _ => trivial) (fun _ _ _ => trivial) (fun _ _ => trivial)
    (fun _ => trivial) (fun _ => trivial) schedule

/-- A reading falls back on its empty answer. -/
theorem fallsBack_perform (s : Store) (now : Instant) {op : Operation} {empty : Reply}
    (reading : op.fallback? = some empty) :
    (s.perform now op).FallsBack op.violations empty := by
  have corrupt : ∀ key cause, (MemoryError.corrupt key cause).isValidation = false :=
    fun _ _ => rfl
  cases op with
  | getThread id =>
    obtain rfl := Option.some.inj reading
    exact (s.reports_fetchThread corrupt id).fallsBack.map
  | listThreads q =>
    obtain rfl := Option.some.inj reading
    refine (fallsBack_checks (fallsBack_check (Reports.fallsBack (k := s.keys) ?_))).map
    refine reports_bind s.reports_threadIds fun ids => ?_
    refine reports_bind (reports_each (fun id => s.reports_skipCorrupt ?_) ids) fun _ => trivial
    exact s.reports_fetchThread (fun key cause => ⟨key, cause, rfl⟩) id
  | listMessagesById ids =>
    obtain rfl := Option.some.inj reading
    refine FallsBack.map ?_
    rw [listMessagesById]
    split
    · exact fallsBack_pure
    · refine Reports.fallsBack (reports_bind (s.reports_locateMany ids) fun _ => ?_)
      exact reports_bind (s.reports_fetchMany _) fun _ => trivial
  | listMessages q =>
    obtain rfl := Option.some.inj reading
    exact (fallsBack_checks (fallsBack_check (s.reports_collectPage corrupt q).fallsBack)).map
  | listRecent id n =>
    obtain rfl := Option.some.inj reading
    refine (fallsBack_check (Reports.fallsBack (k := s.keys) ?_)).map
    exact reports_bind (s.reports_snapshot corrupt id) fun _ => s.reports_fetchMany _
  | getResource id =>
    obtain rfl := Option.some.inj reading
    exact (s.reports_fetchResource corrupt id).fallsBack.map
  | _ => exact absurd reading (by simp [Operation.fallback?])

/--
What failed calls can do. A reading leaves the tables as they are and answers as it does without
failures or, if it cannot, with its empty answer; the only error that it ever ends with is that of
its arguments. Any other operation is broken off by the first call that fails, with the failure of
this call; so any other end means that no call has failed.
-/
theorem perform_failures (s : Store) (now : Instant) (op : Operation) (faults : Faults) (w : World) :
    match op.fallback? with
    | some empty =>
      ((s.perform now op).run faults w).2.tables = w.tables ∧
      (((s.perform now op).run faults w).1 = ((s.perform now op).run Faults.none w).1 ∨
        ((s.perform now op).run faults w).1 = .ok empty) ∧
      ∀ error, ((s.perform now op).run faults w).1 = .error error →
        error = .validation op.violations
    | none =>
      ((∃ c ∈ (s.perform now op).log faults w, c.2 ≠ none) →
        (s.perform now op).Broken s.keys faults w) ∧
      ((∀ code context source,
          ((s.perform now op).run faults w).1 ≠ .error (.backend code context source)) →
        ∀ c ∈ (s.perform now op).log faults w, c.2 = none) := by
  cases h : op.fallback? with
  | some empty =>
    have reading : op.Reading := Operation.reading_iff.mpr (by rw [h]; exact Option.some_ne_none _)
    obtain ⟨answer, errors⟩ := s.fallsBack_perform now h faults w
    exact ⟨(s.reads_perform now reading).run w, answer, fun error e => (errors error e).2⟩
  | none =>
    rcases (s.reports_changes now h .inOrder).run_or_broken faults w with ⟨well, _⟩ | broken
    · exact ⟨fun ⟨c, hc, failed⟩ => absurd (well c hc) failed, fun _ => well⟩
    · refine ⟨fun _ => broken, fun other => ?_⟩
      obtain ⟨_, _, failure, code, context, _, _, _, result⟩ := broken
      exact absurd result (other code context failure)

end Store

end ChatMemory
