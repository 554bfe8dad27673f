import ChatMemory.Store.Operation

/-!
# How operations are put together

An action tree may take and give up turns anywhere. The operations of the store do not: all of them
are put together from calls, from sequences, from handlers of errors, and from parts that are run
during a turn as a whole (`Action.Composed`). So a judgement that holds of single calls, and that
each of these ways to put actions together respects, holds of every operation, without another look
at it.

## Main statements

* `composed_saveMessages`, `composed_reconcileThread`, … — one for each operation and its parts.
* `composed_perform` — all operations.
-/

namespace ChatMemory

namespace Action

variable {α β : Type}

/-- Actions that take turns as a whole only. -/
inductive Composed : {α : Type} → Action α → Prop where
  | done {α : Type} (a : α) : Composed (.done a)
  | fail {α : Type} (error : MemoryError) : Composed (.fail error : Action α)
  | ask (r : Request) (code : String) (context : ErrorContext) : Composed (ask r code context)
  | bind {α β : Type} {p : Action α} {f : α → Action β} (hp : Composed p)
    (hf : ∀ a, Composed (f a)) : Composed (p >>= f)
  | recover {α : Type} {p : Action α} {handler : MemoryError → Action α} (hp : Composed p)
    (hh : ∀ error, Composed (handler error)) : Composed (p.recover handler)
  | exclusively {α : Type} {p : Action α} (key : String) (hp : Composed p) :
    Composed (exclusively key p)

theorem composed_ask {r : Request} {code : String} {context : ErrorContext} :
    (ask r code context).Composed := .ask r code context

theorem composed_map {f : α → β} {p : Action α} (h : p.Composed) : (f <$> p).Composed := by
  rw [← bind_pure_comp]
  exact .bind h fun a => .done (f a)

theorem composed_ite {p : Prop} [Decidable p] {x y : Action α} (hx : x.Composed)
    (hy : y.Composed) : (if p then x else y).Composed := by
  split
  · exact hx
  · exact hy

theorem composed_each {f : α → Action β} (h : ∀ a, (f a).Composed) :
    ∀ l : List α, (each f l).Composed
  | [] => .done []
  | a :: rest => .bind (h a) fun b => .bind (composed_each h rest) fun bs => .done (b :: bs)

theorem composed_forAll {f : α → Action Unit} (h : ∀ a, (f a).Composed) :
    ∀ l : List α, (forAll f l).Composed
  | [] => .done ()
  | a :: rest => .bind (h a) fun _ => composed_forAll h rest

theorem composed_ofExcept : ∀ r : Except MemoryError α, (ofExcept r).Composed
  | .ok a => .done a
  | .error error => .fail error

theorem composed_orEmpty {p : Action α} {empty : α} (h : p.Composed) : (p.orEmpty empty).Composed :=
  .recover h fun error => composed_ite (.fail error) (.done empty)

end Action

open Action

/-! ## Orders -/

namespace OrderIndex

variable (k : Keyspace) (thread : String)

theorem composed_snapshot : (snapshot k thread).Composed := by
  refine .bind composed_ask fun stored => ?_
  split
  · exact .done _
  · exact .fail _

theorem composed_merge (change : OrderSnapshot → Option OrderSnapshot) :
    (merge k thread change).Composed := by
  refine .exclusively _ (.bind (composed_snapshot k thread) fun order => ?_)
  cases change order with
  | none => exact .done ()
  | some order => exact composed_ask

theorem composed_add (entries : List OrderEntry) : (add k thread entries).Composed :=
  composed_ite (.done ()) (composed_merge k thread _)

theorem composed_remove (ids : List String) : (remove k thread ids).Composed :=
  composed_ite (.done ()) (composed_merge k thread _)

theorem composed_clear : (clear k thread).Composed := .exclusively _ composed_ask

end OrderIndex

namespace Store

open OrderIndex

variable (s : Store)

theorem composed_check (violations : List Violation) : (check violations).Composed :=
  composed_ofExcept _

theorem composed_skipCorrupt {α : Type} {p : Action (Option α)} (h : p.Composed) :
    (skipCorrupt p).Composed := by
  refine .recover h fun error => ?_
  split
  · exact .done _
  · exact .fail _

/-! ## Finding messages -/

theorem composed_threadIds : s.threadIds.Composed := .bind composed_ask fun _ => .done _

theorem composed_messageIds (thread : String) : (s.messageIds thread).Composed :=
  .bind composed_ask fun _ => .done _

theorem composed_holds (thread id : String) : (s.holds thread id).Composed :=
  .bind composed_ask fun _ => .done _

theorem composed_firstHolder (id : String) :
    ∀ threads : List String, (s.firstHolder id threads).Composed
  | [] => .done none
  | thread :: rest => .bind (s.composed_holds thread id) fun _ =>
    composed_ite (.done _) (composed_firstHolder id rest)

theorem composed_holdersAmong (id : String) :
    ∀ threads : List String, (s.holdersAmong id threads).Composed
  | [] => .done []
  | thread :: rest => .bind (s.composed_holds thread id) fun _ =>
    .bind (composed_holdersAmong id rest) fun _ => .done _

theorem composed_otherHolders (id except : String) : (s.otherHolders id except).Composed :=
  .bind s.composed_threadIds fun _ => s.composed_holdersAmong id _

theorem composed_pointer (id : String) : (s.pointer id).Composed :=
  .bind composed_ask fun _ => .done _

theorem composed_verifiedPointer (id : String) : (s.verifiedPointer id).Composed := by
  refine composed_ite (.bind (s.composed_pointer id) fun named => ?_) (.done none)
  cases named with
  | none => exact .done none
  | some thread =>
    exact .bind (s.composed_holds thread id) fun _ => composed_ite (.done _) (.done none)

theorem composed_notePointer (id thread : String) : (s.notePointer id thread).Composed :=
  composed_ite composed_ask (.done ())

theorem composed_forgetPointer (id thread : String) : (s.forgetPointer id thread).Composed :=
  composed_ite (.bind (s.composed_pointer id) fun _ => composed_ite composed_ask (.done ()))
    (.done ())

theorem composed_findMessage (id : String) : (s.findMessage id).Composed := by
  refine .bind (s.composed_verifiedPointer id) fun named => ?_
  cases named with
  | some thread => exact .done _
  | none => exact .bind s.composed_threadIds fun threads => s.composed_firstHolder id threads

theorem composed_locateByPointer :
    ∀ (ids : List String) (l : Located), (s.locateByPointer l ids).Composed
  | [], l => .done l
  | id :: rest, l => by
    refine composed_ite (composed_locateByPointer rest l) ?_
    refine .bind (s.composed_verifiedPointer id) fun named => ?_
    cases named with
    | some thread => exact composed_locateByPointer rest _
    | none => exact composed_locateByPointer rest _

theorem composed_locateMany (ids : List String) : (s.locateMany ids).Composed := by
  refine .bind (s.composed_locateByPointer ids {}) fun l => composed_ite (.done _) ?_
  refine .bind s.composed_threadIds fun threads => ?_
  refine .bind (composed_each (fun thread => ?_) threads) fun _ => .done _
  exact .bind (s.composed_messageIds thread) fun _ => .done _

/-! ## Threads and resources -/

theorem composed_fetchThread (id : String) : (s.fetchThread id).Composed := by
  refine .bind composed_ask fun stored => ?_
  cases stored with
  | none => exact .done none
  | some record =>
    dsimp only
    split
    · exact .done _
    · exact .fail _

theorem composed_threadExists (id : String) : (s.threadExists id).Composed :=
  .bind (s.composed_fetchThread id) fun _ => .done _

theorem composed_requireThread (id : String) : (s.requireThread id).Composed :=
  .bind (s.composed_threadExists id) fun _ => composed_ite (.done ()) (.fail _)

theorem composed_saveThread (t : Thread) : (s.saveThread t).Composed :=
  .bind (composed_check _) fun _ => .bind (.exclusively _ composed_ask) fun _ => .done t

theorem composed_modifyThread (id : String) (change : Thread → Thread) :
    (s.modifyThread id change).Composed := by
  refine .exclusively _ (.bind (s.composed_fetchThread id) fun found => ?_)
  cases found with
  | none => exact .fail _
  | some t => exact .bind composed_ask fun _ => .done _

theorem composed_touchThread (now : Instant) (id : String) : (s.touchThread now id).Composed :=
  .bind (s.composed_modifyThread id _) fun _ => .done ()

theorem composed_listThreads (q : ThreadQuery) : (s.listThreads q).Composed := by
  refine .bind (composed_check _) fun _ => .bind (composed_check _) fun _ => composed_orEmpty ?_
  refine .bind s.composed_threadIds fun ids => ?_
  exact .bind (composed_each (fun id => composed_skipCorrupt (s.composed_fetchThread id)) ids)
    fun _ => .done _

theorem composed_purge (thread : String) (ids : List String) : (s.purge thread ids).Composed := by
  rw [purge_inOrder]
  refine .bind (composed_forAll (fun id => ?_) ids) fun _ => ?_
  · exact .bind composed_ask fun _ => s.composed_forgetPointer id thread
  · exact .bind (composed_clear _ thread) fun _ => composed_ask

theorem composed_deleteThread (id : String) : (s.deleteThread id).Composed := by
  refine .bind (composed_check _) fun _ => .bind (s.composed_threadExists id) fun _ => ?_
  refine composed_ite ?_ (.fail _)
  exact .bind (s.composed_messageIds id) fun ids => s.composed_purge id ids

theorem composed_fetchResource (id : String) : (s.fetchResource id).Composed := by
  refine .bind composed_ask fun stored => ?_
  cases stored with
  | none => exact .done none
  | some record =>
    dsimp only
    split
    · exact .done _
    · exact .fail _

theorem composed_saveResource (r : Resource) : (s.saveResource r).Composed :=
  .bind (composed_check _) fun _ => .bind (.exclusively _ composed_ask) fun _ => .done r

theorem composed_updateResource (now : Instant) (id : String) (memory : Option String)
    (patch : Option Object) : (s.updateResource now id memory patch).Composed :=
  .bind (composed_check _) fun _ => .exclusively _ <|
    .bind (s.composed_fetchResource id) fun _ => .bind composed_ask fun _ => .done _

/-! ## Messages -/

theorem composed_fetchMessage (thread id : String) : (s.fetchMessage thread id).Composed := by
  refine .bind composed_ask fun stored => ?_
  cases stored with
  | none => exact .done none
  | some record =>
    dsimp only
    split
    · exact .done _
    · exact .fail _

theorem composed_fetchMany (targets : List (String × String)) : (s.fetchMany targets).Composed :=
  .bind (composed_each (fun _ => composed_skipCorrupt (s.composed_fetchMessage _ _)) targets)
    fun _ => .done _

theorem composed_writeMessage (m : Message) (record : Json) :
    (s.writeMessage m record).Composed := composed_ask

theorem composed_relocate (now : Instant) (m : Message) (origin : String) :
    (s.relocate now m origin).Composed :=
  .bind (s.composed_writeMessage m _) fun _ => .bind (composed_remove _ origin _) fun _ =>
    .bind composed_ask fun _ => .bind (composed_add _ m.threadId _) fun _ =>
      s.composed_notePointer m.id m.threadId

theorem composed_migrateMessage (now : Instant) (id origin destination : String) :
    (s.migrateMessage now id origin destination).Composed := by
  refine .bind (composed_check _) fun _ => .bind (s.composed_fetchMessage origin id) fun found => ?_
  cases found with
  | none => exact .fail _
  | some m =>
    refine composed_ite (.done m) (.bind (s.composed_threadExists destination) fun _ => ?_)
    refine composed_ite (.bind (s.composed_relocate now _ origin) fun _ => ?_) (.fail _)
    exact .bind (s.composed_touchThread now origin) fun _ =>
      .bind (s.composed_touchThread now destination) fun _ => .done _

theorem composed_fetchHome (now : Instant) (m : Message) : (s.fetchHome now m).Composed := by
  refine .bind (s.composed_findMessage m.id) fun found => ?_
  cases found with
  | none => exact .done ()
  | some current =>
    exact composed_ite (.done ()) (.bind (s.composed_migrateMessage now _ _ _) fun _ => .done ())

theorem composed_saveInto (now : Instant) (ms : List Message) (thread : String) :
    (s.saveInto now ms thread).Composed := by
  rw [saveInto_inOrder]
  refine .bind (composed_forAll (fun entry => ?_) _) fun _ => ?_
  · exact .bind (s.composed_writeMessage _ _) fun _ => s.composed_notePointer _ _
  · exact .bind (composed_add _ thread _) fun _ => s.composed_touchThread now thread

theorem composed_saveMessages (now : Instant) (ms : List Message) :
    (s.saveMessages now ms).Composed := by
  refine .bind (composed_check _) fun _ => composed_ite (.done ms) ?_
  refine .bind (composed_forAll s.composed_requireThread _) fun _ => ?_
  refine .bind (composed_forAll (s.composed_fetchHome now) ms) fun _ => ?_
  exact .bind (composed_forAll (f := (s.saveInto now ms ·)) (s.composed_saveInto now ms) _) fun _ => .done ms

theorem composed_rescore (m : Message) : (s.rescore m).Composed :=
  .bind (composed_remove _ m.threadId _) fun _ => composed_add _ m.threadId _

theorem composed_updateInPlace (now : Instant) (current : String) (before after : Message) :
    (s.updateInPlace now current before after).Composed := by
  refine .bind (s.composed_writeMessage after _) fun _ => ?_
  have touch : (s.touchThread now current >>= fun _ => pure after).Composed :=
    .bind (s.composed_touchThread now current) fun _ => .done after
  exact composed_ite touch (.bind (s.composed_rescore after) fun _ => touch)

theorem composed_updateAndMove (now : Instant) (current destination : String) (after : Message) :
    (s.updateAndMove now current destination after).Composed :=
  .bind (s.composed_requireThread destination) fun _ =>
    .bind (s.composed_relocate now _ current) fun _ =>
      .bind (s.composed_touchThread now current) fun _ =>
        .bind (s.composed_touchThread now destination) fun _ => .done _

theorem composed_updateMessage (now : Instant) (u : MessageUpdate) :
    (s.updateMessage now u).Composed := by
  refine .bind (s.composed_findMessage u.id) fun found => ?_
  cases found with
  | none => exact .fail _
  | some current =>
    refine .bind (s.composed_fetchMessage current u.id) fun stored => ?_
    cases stored with
    | none => exact .fail _
    | some before =>
      dsimp only
      split
      · exact s.composed_updateAndMove now current _ _
      · exact s.composed_updateInPlace now current before _

theorem composed_listMessagesById (ids : List String) : (s.listMessagesById ids).Composed := by
  refine composed_ite (.done []) (composed_orEmpty ?_)
  exact .bind (s.composed_locateMany ids) fun _ => .bind (s.composed_fetchMany _) fun _ => .done _

theorem composed_listRecent (thread : String) (n : Nat) : (s.listRecent thread n).Composed := by
  refine .bind (composed_check _) fun _ => composed_orEmpty ?_
  exact .bind (composed_snapshot _ thread) fun _ => s.composed_fetchMany _

/-! ## Pages of messages -/

theorem composed_loadOrder (orders : Orders) (thread : String) :
    (s.loadOrder orders thread).Composed := by
  unfold loadOrder
  split
  · exact .done _
  · exact .bind (composed_snapshot _ thread) fun _ => .done _

theorem composed_loadTargets : ∀ (threads : List String) (orders : Orders),
    (s.loadTargets orders threads).Composed
  | [], orders => .done ([], orders)
  | thread :: rest, orders => composed_ite (composed_loadTargets rest orders) <|
    .bind (s.composed_loadOrder orders thread) fun loaded =>
      .bind (composed_loadTargets rest loaded.2) fun _ => .done _

theorem composed_window (q : MessageQuery) : (s.window q).Composed := by
  have filtered : (s.filteredWindow q).Composed :=
    .bind (s.composed_loadTargets q.threadIds []) fun _ =>
      .bind (s.composed_fetchMany _) fun _ => .done _
  unfold window
  split
  · refine composed_ite filtered ?_
    exact .bind (composed_snapshot _ _) fun _ => .bind (s.composed_fetchMany _) fun _ => .done _
  · exact filtered

theorem composed_firstIndexing (id : String) : ∀ (threads : List String) (orders : Orders),
    (s.firstIndexing orders id threads).Composed
  | [], orders => .done (none, orders)
  | thread :: rest, orders => .bind (s.composed_loadOrder orders thread) fun loaded =>
    composed_ite (.done _) (composed_firstIndexing id rest loaded.2)

theorem composed_includeThread (q : MessageQuery) (orders : Orders) (r : IncludeRequest) :
    (s.includeThread q orders r).Composed := by
  unfold includeThread
  split
  · exact .done _
  · refine .bind (s.composed_firstIndexing r.id q.threadIds orders) ?_
    rintro ⟨thread?, orders'⟩
    cases thread? with
    | some thread => exact .done _
    | none => exact .bind (s.composed_findMessage r.id) fun _ => .done _

theorem composed_includeTargets (q : MessageQuery) :
    ∀ (requests : List IncludeRequest) (orders : Orders),
      (s.includeTargets q orders requests).Composed
  | [], orders => .done ([], orders)
  | r :: rest, orders => by
    refine .bind (s.composed_includeThread q orders r) fun found => ?_
    obtain ⟨thread?, orders'⟩ := found
    cases thread? with
    | none => exact composed_includeTargets q rest orders'
    | some thread =>
      exact .bind (s.composed_loadOrder orders' thread) fun loaded =>
        .bind (composed_includeTargets q rest loaded.2) fun _ => .done _

theorem composed_listMessages (q : MessageQuery) : (s.listMessages q).Composed := by
  refine .bind (composed_check _) fun _ => .bind (composed_check _) fun _ => composed_orEmpty ?_
  exact .bind (s.composed_window q) fun loaded =>
    .bind (s.composed_includeTargets q q.includes loaded.2) fun found =>
      .bind (s.composed_fetchMany (distinct found.1)) fun _ => .done _

/-! ## Reconciling -/

theorem composed_loadCopy (thread id : String) : (s.loadCopy thread id).Composed := by
  refine .bind composed_ask fun stored => ?_
  cases stored with
  | none => exact .done none
  | some record =>
    dsimp only
    split
    · exact .done _
    · exact .done none

theorem composed_movedFrom (origin id : String) :
    ∀ threads : List String, (s.movedFrom origin id threads).Composed
  | [] => .done false
  | thread :: rest => .bind (s.composed_loadCopy thread id) fun _ =>
    composed_ite (.done true) (composed_movedFrom origin id rest)

theorem composed_indexedAmong (id : String) :
    ∀ threads : List String, (s.indexedAmong id threads).Composed
  | [] => .done false
  | thread :: rest => .bind (composed_snapshot _ thread) fun _ =>
    composed_ite (.done true) (composed_indexedAmong id rest)

theorem composed_keepCopy (thread : String) (copy : StoredCopy) (order : OrderSnapshot) :
    (s.keepCopy thread copy order).Composed := by
  refine .bind (s.composed_otherHolders _ thread) fun holders => composed_ite (.done true) ?_
  refine .bind (s.composed_indexedAmong _ holders) fun _ => composed_ite (.done false) ?_
  refine composed_ite (.done true) (composed_ite (.done true) ?_)
  exact .bind (s.composed_movedFrom thread _ holders) fun _ => .done _

theorem composed_deleteCopy (thread id : String) : (s.deleteCopy thread id).Composed :=
  .bind composed_ask fun _ => s.composed_forgetPointer id thread

theorem composed_settleCopy (thread : String) (order : OrderSnapshot) (id : String) :
    (s.settleCopy thread order id).Composed := by
  refine .bind (s.composed_loadCopy thread id) fun found => ?_
  cases found with
  | none => exact .done _
  | some copy =>
    refine composed_ite (.done _) (.bind (s.composed_keepCopy thread copy order) fun _ => ?_)
    refine composed_ite (composed_ite (.done _) ?_) ?_
    · exact .bind composed_ask fun _ => .done _
    · exact .bind (s.composed_deleteCopy thread id) fun _ => .done _

theorem composed_reconcileExisting (thread : String) (ids : List String) :
    (s.reconcileExisting thread ids).Composed := by
  refine .bind (composed_snapshot _ thread) fun order => ?_
  refine .bind (composed_each (s.composed_settleCopy thread order) ids) fun _ => ?_
  refine .bind (composed_remove _ thread _) fun _ => .bind (composed_add _ thread _) fun _ => ?_
  exact .bind (composed_forAll (fun m : Message => s.composed_notePointer m.id thread) _)
    fun _ => .done _

theorem composed_reconcileGone (thread : String) (ids : List String) :
    (s.reconcileGone thread ids).Composed :=
  .bind (composed_snapshot _ thread) fun _ => composed_ite (.done _) <|
    .bind (s.composed_purge thread ids) fun _ => .done _

theorem composed_reconcileThread (id : String) : (s.reconcileThread id).Composed := by
  refine .bind (composed_check _) fun _ => .bind (s.composed_messageIds id) fun ids => ?_
  refine .bind (s.composed_threadExists id) fun _ => ?_
  exact composed_ite (s.composed_reconcileExisting id ids) (s.composed_reconcileGone id ids)

/-! ## All operations -/

theorem composed_perform (now : Instant) (op : Operation) : (s.perform now op).Composed := by
  cases op with
  | getThread id => exact composed_map (composed_orEmpty (s.composed_fetchThread id))
  | saveThread t => exact composed_map (s.composed_saveThread t)
  | updateThread id title patch => exact composed_map (s.composed_modifyThread id _)
  | deleteThread id => exact composed_map (s.composed_deleteThread id)
  | listThreads q => exact composed_map (s.composed_listThreads q)
  | saveMessages ms => exact composed_map (s.composed_saveMessages now ms)
  | updateMessages us =>
    refine composed_map (.bind (composed_check _) fun _ => ?_)
    exact composed_each (s.composed_updateMessage now) us
  | listMessagesById ids => exact composed_map (s.composed_listMessagesById ids)
  | listMessages q => exact composed_map (s.composed_listMessages q)
  | listRecent id n => exact composed_map (s.composed_listRecent id n)
  | getResource id => exact composed_map (composed_orEmpty (s.composed_fetchResource id))
  | saveResource r => exact composed_map (s.composed_saveResource r)
  | updateResource id memory patch =>
    exact composed_map (s.composed_updateResource now id memory patch)
  | reconcileThread id => exact composed_map (s.composed_reconcileThread id)
  | migrateMessage id origin destination =>
    exact composed_map (s.composed_migrateMessage now id origin destination)

end Store

end ChatMemory
