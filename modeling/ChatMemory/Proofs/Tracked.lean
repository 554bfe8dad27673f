import ChatMemory.Proofs.Labels

/-!
# The same store with and without pointers

What a store does when it keeps pointers (`Store.tracked`) and when it keeps none
(`Store.untracked`). The parts of operations that do not search for a message are alike, call by call:
a pointer that they note or forget is all that makes a difference.

## Main statements

* `alike_notePointer`, `alike_forgetPointer` — pointers that are written.
* `alike_relocate`, `alike_migrateMessage` — moves.
* `alike_reconcileThread` — reconciling, which looks at all threads instead of pointers.
-/

namespace ChatMemory

namespace Store

open Action

/-- The store, keeping pointers. -/
def tracked (s : Store) : Store :=
  { s with config := s.config.withMessageThreadTracking true }

/-- The store, keeping no pointers. -/
def untracked (s : Store) : Store :=
  { s with config := s.config.withMessageThreadTracking false }

variable (s : Store) {I : Tables → Prop} {t : Tables} {thread id : String} {now : Instant}

/-! ## Reading -/

theorem alike_check (violations : List Violation) :
    Alike I t (check violations) (check violations) := by
  unfold check
  cases Identifier.report violations with
  | ok _ => exact alike_pure
  | error _ => exact alike_fail

theorem alike_threadIds : Alike I t s.tracked.threadIds s.untracked.threadIds :=
  (alike_list (by decide)).bind fun _ _ _ => alike_pure

theorem alike_messageIds :
    Alike I t (s.tracked.messageIds thread) (s.untracked.messageIds thread) :=
  (alike_list (by decide)).bind fun _ _ _ => alike_pure

theorem alike_skipCorrupt {α : Type} {p q : Action (Option α)} (h : Alike I t p q) :
    Alike I t (skipCorrupt p) (skipCorrupt q) :=
  h.recover fun e _ => by
    cases e <;> first | exact alike_pure | exact alike_fail

theorem alike_fetchThread : Alike I t (s.tracked.fetchThread id) (s.untracked.fetchThread id) := by
  refine (alike_get (by decide)).bind fun stored _ _ => ?_
  cases stored with
  | none => exact alike_pure
  | some record =>
    dsimp only
    cases Thread.ofJson record with
    | ok _ => exact alike_pure
    | error _ => exact alike_fail

theorem alike_threadExists :
    Alike I t (s.tracked.threadExists id) (s.untracked.threadExists id) :=
  s.alike_fetchThread.bind fun _ _ _ => alike_pure

theorem alike_fetchMessage :
    Alike I t (s.tracked.fetchMessage thread id) (s.untracked.fetchMessage thread id) := by
  refine (alike_get (by decide)).bind fun stored _ _ => ?_
  cases stored with
  | none => exact alike_pure
  | some record =>
    dsimp only
    cases Message.ofRecord record with
    | ok _ => exact alike_pure
    | error _ => exact alike_fail

theorem alike_fetchMany (targets : List (String × String)) :
    Alike I t (s.tracked.fetchMany targets) (s.untracked.fetchMany targets) :=
  (alike_each fun _ _ _ => alike_skipCorrupt s.alike_fetchMessage).bind fun _ _ _ => alike_pure

theorem alike_fetchResource :
    Alike I t (s.tracked.fetchResource id) (s.untracked.fetchResource id) := by
  refine (alike_get (by decide)).bind fun stored _ _ => ?_
  cases stored with
  | none => exact alike_pure
  | some record =>
    dsimp only
    cases Resource.ofJson record with
    | ok _ => exact alike_pure
    | error _ => exact alike_fail

theorem alike_loadOrder (orders : Orders) :
    Alike I t (s.tracked.loadOrder orders thread) (s.untracked.loadOrder orders thread) := by
  unfold loadOrder
  cases orders.lookup thread with
  | some _ => exact alike_pure
  | none => exact OrderIndex.alike_snapshot.bind fun _ _ _ => alike_pure

theorem alike_loadTargets : ∀ (threads : List String) (orders : Orders) {t : Tables},
    Alike I t (s.tracked.loadTargets orders threads) (s.untracked.loadTargets orders threads)
  | [], _, _ => alike_pure
  | thread :: rest, orders, _ => by
    refine alike_ite (fun _ => alike_loadTargets rest orders) fun _ => ?_
    refine (s.alike_loadOrder orders).bind fun loaded _ _ => ?_
    exact (alike_loadTargets rest loaded.2).bind fun _ _ _ => alike_pure

theorem alike_window (q : MessageQuery) :
    Alike I t (s.tracked.window q) (s.untracked.window q) := by
  have filtered : Alike I t (s.tracked.filteredWindow q) (s.untracked.filteredWindow q) :=
    (s.alike_loadTargets q.threadIds []).bind fun _ _ _ =>
      (s.alike_fetchMany _).bind fun _ _ _ => alike_pure
  unfold window
  split
  · refine alike_ite (fun _ => filtered) fun _ => ?_
    exact OrderIndex.alike_snapshot.bind fun _ _ _ =>
      (s.alike_fetchMany _).bind fun _ _ _ => alike_pure
  · exact filtered

theorem alike_firstIndexing : ∀ (threads : List String) (orders : Orders) {t : Tables},
    Alike I t (s.tracked.firstIndexing orders id threads)
      (s.untracked.firstIndexing orders id threads)
  | [], _, _ => alike_pure
  | thread :: rest, orders, _ => by
    refine (s.alike_loadOrder orders).bind fun loaded _ _ => ?_
    exact alike_ite (fun _ => alike_pure) fun _ => alike_firstIndexing rest loaded.2

/-! ## Copies -/

theorem alike_holdersAmong : ∀ (threads : List String) {t : Tables},
    Alike I t (s.tracked.holdersAmong id threads) (s.untracked.holdersAmong id threads)
  | [], _ => alike_pure
  | thread :: rest, _ => by
    refine Alike.bind ((alike_get (by decide)).bind fun _ _ _ => alike_pure) fun _ _ _ => ?_
    exact (alike_holdersAmong rest).bind fun _ _ _ => alike_pure

theorem alike_loadCopy :
    Alike I t (s.tracked.loadCopy thread id) (s.untracked.loadCopy thread id) := by
  refine (alike_get (by decide)).bind fun stored _ _ => ?_
  cases stored with
  | none => exact alike_pure
  | some record =>
    dsimp only
    cases Message.ofRecord record <;> exact alike_pure

theorem alike_indexedAmong : ∀ (threads : List String) {t : Tables},
    Alike I t (s.tracked.indexedAmong id threads) (s.untracked.indexedAmong id threads)
  | [], _ => alike_pure
  | thread :: rest, _ => by
    refine OrderIndex.alike_snapshot.bind fun order _ _ => ?_
    exact alike_ite (fun _ => alike_pure) fun _ => alike_indexedAmong rest

theorem alike_movedFrom (origin : String) : ∀ (threads : List String) {t : Tables},
    Alike I t (s.tracked.movedFrom origin id threads) (s.untracked.movedFrom origin id threads)
  | [], _ => alike_pure
  | thread :: rest, _ => by
    refine s.alike_loadCopy.bind fun copy _ _ => ?_
    exact alike_ite (fun _ => alike_pure) fun _ => alike_movedFrom origin rest

theorem alike_keepCopy (copy : StoredCopy) (order : OrderSnapshot) :
    Alike I t (s.tracked.keepCopy thread copy order) (s.untracked.keepCopy thread copy order) := by
  refine Alike.bind ?_ fun holders _ _ => ?_
  · exact s.alike_threadIds.bind fun _ _ _ => s.alike_holdersAmong _
  refine alike_ite (fun _ => alike_pure) fun _ => ?_
  refine (s.alike_indexedAmong holders).bind fun _ _ _ => ?_
  refine alike_ite (fun _ => alike_pure) fun _ => alike_ite (fun _ => alike_pure) fun _ => ?_
  refine alike_ite (fun _ => alike_pure) fun _ => ?_
  exact (s.alike_movedFrom thread holders).bind fun _ _ _ => alike_pure

/-! ## Pointers -/

/-- To note a thread in a pointer makes no difference. -/
theorem alike_notePointer : Alike s.keys.Labelled t (s.tracked.notePointer id thread)
    (s.untracked.notePointer id thread) :=
  Notes.alike (fun _ _ h same => h.of_main same) (notes_notePointer ..)
    ⟨_, yields_ask.mpr ⟨rfl, rfl⟩⟩

theorem alike_forgetPointer : Alike s.keys.Labelled t (s.tracked.forgetPointer id thread)
    (s.untracked.forgetPointer id thread) := by
  refine Notes.alike (fun _ _ h same => h.of_main same) (notes_forgetPointer ..) ?_
  have ends : ∀ named : Option String, ∃ t', (if named = some thread then
      ask (.delete .messageThreads (s.keys.pointer id)) "STORAGE_KV_DELETE_MESSAGE_POINTER_FAILED"
        (pointerContext id thread) else pure ()).Yields t () t' := by
    intro named
    split
    · exact ⟨_, yields_ask.mpr ⟨rfl, rfl⟩⟩
    · exact ⟨_, yields_pure.mpr ⟨rfl, rfl⟩⟩
  obtain ⟨t', h⟩ := ends _
  refine ⟨t', yields_bind.mpr ⟨_, t, ?_, h⟩⟩
  exact yields_bind.mpr ⟨_, _, yields_ask.mpr ⟨rfl, rfl⟩, yields_pure.mpr ⟨rfl, rfl⟩⟩

/-! ## Threads and resources -/

theorem alike_modifyThread (change : Thread → Thread) :
    Alike s.keys.Labelled t (s.tracked.modifyThread id change)
      (s.untracked.modifyThread id change) := by
  refine Alike.exclusively (s.alike_fetchThread.bind fun found _ _ => ?_)
  cases found with
  | none => exact alike_fail
  | some x =>
    exact (alike_putAside (by decide) (by decide)).bind fun _ _ _ => alike_pure

theorem alike_touchThread : Alike s.keys.Labelled t (s.tracked.touchThread now id)
    (s.untracked.touchThread now id) :=
  (s.alike_modifyThread _).bind fun _ _ _ => alike_pure

theorem alike_saveThread (x : Thread) :
    Alike s.keys.Labelled t (s.tracked.saveThread x) (s.untracked.saveThread x) := by
  refine (alike_check _).bind fun _ _ _ => ?_
  refine Alike.bind ?_ fun _ _ _ => alike_pure
  exact Alike.exclusively (alike_putAside (by decide) (by decide))

theorem alike_requireThread :
    Alike I t (s.tracked.requireThread id) (s.untracked.requireThread id) :=
  s.alike_threadExists.bind fun _ _ _ => alike_ite (fun _ => alike_pure) fun _ => alike_fail

theorem alike_saveResource (r : Resource) :
    Alike s.keys.Labelled t (s.tracked.saveResource r) (s.untracked.saveResource r) := by
  refine (alike_check _).bind fun _ _ _ => ?_
  refine Alike.bind ?_ fun _ _ _ => alike_pure
  exact Alike.exclusively (alike_putAside (by decide) (by decide))

theorem alike_updateResource (memory : Option String) (patch : Option Object) :
    Alike s.keys.Labelled t (s.tracked.updateResource now id memory patch)
      (s.untracked.updateResource now id memory patch) := by
  refine (alike_check _).bind fun _ _ _ => Alike.exclusively ?_
  refine s.alike_fetchResource.bind fun _ _ _ => ?_
  exact (alike_putAside (by decide) (by decide)).bind fun _ _ _ => alike_pure

/-! ## Deleting -/

theorem alike_purge (messages : List String) :
    Alike s.keys.Labelled t (s.tracked.purge thread messages)
      (s.untracked.purge thread messages) := by
  rw [purge_inOrder, purge_inOrder]
  refine (alike_forAll fun _ _ _ => ?_).bind fun _ _ _ => ?_
  · exact (alike_delete (by decide)).bind fun _ _ _ => s.alike_forgetPointer
  · exact OrderIndex.alike_clear.bind fun _ _ _ => alike_delete (by decide)

theorem alike_deleteThread :
    Alike s.keys.Labelled t (s.tracked.deleteThread id) (s.untracked.deleteThread id) := by
  refine (alike_check _).bind fun _ _ _ => s.alike_threadExists.bind fun _ _ _ => ?_
  refine alike_ite (fun _ => ?_) fun _ => alike_fail
  exact s.alike_messageIds.bind fun ids _ _ => s.alike_purge ids

/-! ## Writing and moving -/

theorem alike_relocate {x : Message} (hx : x.id ≠ "") (origin : String) :
    Alike s.keys.Labelled t (s.tracked.relocate now x origin)
      (s.untracked.relocate now x origin) := by
  refine Alike.bind (alike_putMessage hx ?_) fun _ _ _ => ?_
  · rintro y ⟨_, e, hy⟩
    obtain rfl := Option.some.inj e
    rwa [Message.eq_of_ofRecord_toMovedRecord hy]
  refine OrderIndex.alike_remove.bind fun _ _ _ => (alike_delete (by decide)).bind fun _ _ _ => ?_
  exact OrderIndex.alike_add.bind fun _ _ _ => s.alike_notePointer

theorem alike_writeRecord {x : Message} (hx : x.id ≠ "") (position : Nat) {code : String}
    {context : ErrorContext} :
    Alike s.keys.Labelled t
      (ask (.put .messages (s.keys.message x.threadId x.id) (x.toRecord position)) code context)
      (ask (.put .messages (s.keys.message x.threadId x.id) (x.toRecord position)) code context) :=
  alike_putMessage hx fun _ hy => hy.of_toRecord ▸ hx

/-- A message that is fetched is read from what is stored under its thread and id. -/
theorem readFrom_of_fetched {found : Option Message} {t₁ : Tables}
    (h : (s.fetchMessage thread id).Yields t found t₁) :
    ∀ x, found = some x → x.ReadFrom (s.keys.stored t thread id) := by
  rintro x rfl
  obtain ⟨stored, _, h₁, h₂⟩ := yields_bind.mp h
  have e : s.keys.stored t thread id = stored := (yields_ask.mp h₁).1.symm
  cases stored with
  | none => exact absurd (yields_pure.mp h₂).1 (by simp)
  | some r =>
    dsimp only at h₂
    split at h₂
    · next y hy =>
      obtain rfl := Option.some.inj (yields_pure.mp h₂).1
      exact ⟨r, e, hy⟩
    · exact absurd h₂ not_yields_fail

theorem alike_migrateMessage (origin destination : String) :
    Alike s.keys.Labelled t (s.tracked.migrateMessage now id origin destination)
      (s.untracked.migrateMessage now id origin destination) := by
  refine (alike_check _).bind fun _ t _ => Alike.assuming fun labelled => ?_
  refine s.alike_fetchMessage.bind fun found _ hf => ?_
  have read := s.tracked.readFrom_of_fetched hf
  cases found with
  | none => exact alike_fail
  | some x =>
    have label : x.id ≠ "" := labelled.label (read x rfl)
    refine alike_ite (fun _ => alike_pure) fun _ => s.alike_threadExists.bind fun _ _ _ => ?_
    refine alike_ite (fun _ => ?_) fun _ => alike_fail
    refine Alike.bind (s.alike_relocate (x := x.into destination) label origin) fun _ _ _ => ?_
    exact s.alike_touchThread.bind fun _ _ _ => s.alike_touchThread.bind fun _ _ _ => alike_pure

theorem alike_saveInto {messages : List Message} (labels : ∀ v ∈ messages, v.id ≠ "") :
    Alike s.keys.Labelled t (s.tracked.saveInto now messages thread)
      (s.untracked.saveInto now messages thread) := by
  rw [saveInto_inOrder, saveInto_inOrder]
  refine (alike_forAll fun e he _ => ?_).bind fun _ _ _ => ?_
  · have label := labels e.1 (List.fst_mem_of_mem_zipIdx (mem_batchOf.mp he).1)
    exact Alike.bind (s.alike_writeRecord label e.2) fun _ _ _ => s.alike_notePointer
  · exact OrderIndex.alike_add.bind fun _ _ _ => s.alike_touchThread

theorem alike_updateInPlace (before : Message) {after : Message} (label : after.id ≠ "") :
    Alike s.keys.Labelled t (s.tracked.updateInPlace now thread before after)
      (s.untracked.updateInPlace now thread before after) := by
  have touch : ∀ {t}, Alike s.keys.Labelled t
      (do s.tracked.touchThread now thread; return after)
      (do s.untracked.touchThread now thread; return after) :=
    s.alike_touchThread.bind fun _ _ _ => alike_pure
  refine Alike.bind (s.alike_writeRecord label 0) fun _ _ _ => ?_
  refine alike_ite (fun _ => touch) fun _ => Alike.bind ?_ fun _ _ _ => touch
  exact OrderIndex.alike_remove.bind fun _ _ _ => OrderIndex.alike_add

theorem alike_updateAndMove (destination : String) {after : Message} (label : after.id ≠ "") :
    Alike s.keys.Labelled t (s.tracked.updateAndMove now thread destination after)
      (s.untracked.updateAndMove now thread destination after) := by
  refine s.alike_requireThread.bind fun _ _ _ => ?_
  refine Alike.bind (s.alike_relocate (x := after.into destination) label thread) fun _ _ _ => ?_
  exact s.alike_touchThread.bind fun _ _ _ => s.alike_touchThread.bind fun _ _ _ => alike_pure

/-! ## Reconciling -/

theorem alike_settleCopy (order : OrderSnapshot) :
    Alike s.keys.Labelled t (s.tracked.settleCopy thread order id)
      (s.untracked.settleCopy thread order id) := by
  refine Alike.assuming fun labelled => s.alike_loadCopy.bind fun found _ hf => ?_
  obtain ⟨_, _, hsome⟩ := yields_loadCopy hf
  cases found with
  | none => exact alike_pure
  | some copy =>
    refine alike_ite (fun _ => alike_pure) fun _ => (s.alike_keepCopy copy order).bind fun _ _ _ => ?_
    refine alike_ite (fun _ => alike_ite (fun _ => alike_pure) fun _ => ?_) fun _ => ?_
    · have label : copy.message.id ≠ "" := labelled.label (hsome copy rfl).1
      refine Alike.bind (s.alike_writeRecord (x := copy.message.under thread) label 0) fun _ _ _ => ?_
      exact alike_pure
    · refine Alike.bind ?_ fun _ _ _ => alike_pure
      exact (alike_delete (by decide)).bind fun _ _ _ => s.alike_forgetPointer

theorem alike_reconcileThread : Alike s.keys.Labelled t (s.tracked.reconcileThread id)
    (s.untracked.reconcileThread id) := by
  refine (alike_check _).bind fun _ _ _ => s.alike_messageIds.bind fun ids _ _ => ?_
  refine s.alike_threadExists.bind fun _ _ _ => alike_ite (fun _ => ?_) fun _ => ?_
  · refine OrderIndex.alike_snapshot.bind fun order _ _ => ?_
    refine (alike_each fun _ _ _ => s.alike_settleCopy order).bind fun fates _ _ => ?_
    refine OrderIndex.alike_remove.bind fun _ _ _ => OrderIndex.alike_add.bind fun _ _ _ => ?_
    exact (alike_forAll fun _ _ _ => s.alike_notePointer).bind fun _ _ _ => alike_pure
  · refine OrderIndex.alike_snapshot.bind fun order _ _ => alike_ite (fun _ => alike_pure) fun _ => ?_
    exact (s.alike_purge ids).bind fun _ _ _ => alike_pure

end Store

end ChatMemory
