import ChatMemory.Proofs.Ends

/-!
# Readings

The operations that only read, and the parts of all operations that do. They make no call that could
change a table, so whatever happens they leave the tables as they are.

## Main statements

* `Operation.Reading` — the operations that only read.
* `reads_perform` — they do.
-/

namespace ChatMemory

namespace Store

open Action

variable (s : Store)

/-! ## Single records -/

theorem reads_check (violations : List Violation) : (check violations).Reads := only_ofExcept

theorem reads_threadIds : s.threadIds.Reads := only_bind reads_list fun _ => trivial

theorem reads_messageIds (thread : String) : (s.messageIds thread).Reads :=
  only_bind reads_list fun _ => trivial

theorem reads_skipCorrupt {α : Type} {p : Action (Option α)} (h : p.Reads) :
    (skipCorrupt p).Reads :=
  only_recover h fun e => by cases e <;> trivial

theorem reads_fetchThread (id : String) : (s.fetchThread id).Reads := by
  refine only_bind reads_get fun stored => ?_
  cases stored with
  | none => trivial
  | some record =>
    dsimp only
    split <;> trivial

theorem reads_threadExists (id : String) : (s.threadExists id).Reads :=
  only_bind (s.reads_fetchThread id) fun _ => trivial

theorem reads_requireThread (id : String) : (s.requireThread id).Reads :=
  only_bind (s.reads_threadExists id) fun found => by cases found <;> trivial

theorem reads_fetchMessage (thread message : String) : (s.fetchMessage thread message).Reads := by
  refine only_bind reads_get fun stored => ?_
  cases stored with
  | none => trivial
  | some record =>
    dsimp only
    split <;> trivial

theorem reads_fetchMany (targets : List (String × String)) : (s.fetchMany targets).Reads :=
  only_bind (only_each (fun _ => reads_skipCorrupt (s.reads_fetchMessage _ _)) targets)
    fun _ => trivial

theorem reads_fetchResource (id : String) : (s.fetchResource id).Reads := by
  refine only_bind reads_get fun stored => ?_
  cases stored with
  | none => trivial
  | some record =>
    dsimp only
    split <;> trivial

theorem reads_snapshot (thread : String) : (OrderIndex.snapshot s.keys thread).Reads := by
  refine only_bind reads_get fun stored => ?_
  split <;> trivial

/-! ## Search -/

theorem reads_holds (thread message : String) : (s.holds thread message).Reads :=
  only_bind reads_get fun _ => trivial

theorem reads_firstHolder (message : String) :
    ∀ threads : List String, (s.firstHolder message threads).Reads
  | [] => trivial
  | thread :: rest => by
    refine only_bind (s.reads_holds thread message) fun found => ?_
    cases found with
    | true => trivial
    | false => exact reads_firstHolder message rest

theorem reads_pointer (message : String) : (s.pointer message).Reads :=
  only_bind reads_get fun _ => trivial

theorem reads_verifiedPointer (message : String) : (s.verifiedPointer message).Reads := by
  unfold verifiedPointer
  split
  · refine only_bind (s.reads_pointer message) fun named => ?_
    cases named with
    | none => trivial
    | some thread =>
      refine only_bind (s.reads_holds thread message) fun found => ?_
      cases found <;> trivial
  · trivial

theorem reads_findMessage (message : String) : (s.findMessage message).Reads := by
  refine only_bind (s.reads_verifiedPointer message) fun named => ?_
  cases named with
  | some thread => trivial
  | none => exact only_bind s.reads_threadIds fun threads => s.reads_firstHolder message threads

theorem reads_locateByPointer :
    ∀ (messages : List String) (l : Located), (s.locateByPointer l messages).Reads
  | [], _ => trivial
  | message :: rest, l => by
    refine only_ite (reads_locateByPointer rest l) ?_
    refine only_bind (s.reads_verifiedPointer message) fun named => ?_
    cases named with
    | some thread => exact reads_locateByPointer rest _
    | none => exact reads_locateByPointer rest _

theorem reads_locateMany (messages : List String) : (s.locateMany messages).Reads := by
  refine only_bind (s.reads_locateByPointer messages {}) fun l => only_ite trivial ?_
  refine only_bind s.reads_threadIds fun threads => ?_
  refine only_bind (only_each (fun thread => ?_) threads) fun _ => trivial
  exact only_bind (s.reads_messageIds thread) fun _ => trivial

/-! ## Pages -/

theorem reads_loadOrder (orders : Orders) (thread : String) : (s.loadOrder orders thread).Reads := by
  unfold loadOrder
  split
  · trivial
  · exact only_bind (s.reads_snapshot thread) fun _ => trivial

theorem reads_loadTargets :
    ∀ (threads : List String) (orders : Orders), (s.loadTargets orders threads).Reads
  | [], _ => trivial
  | thread :: rest, orders => by
    refine only_ite (reads_loadTargets rest orders) ?_
    refine only_bind (s.reads_loadOrder orders thread) fun loaded => ?_
    exact only_bind (reads_loadTargets rest loaded.2) fun _ => trivial

theorem reads_window (q : MessageQuery) : (s.window q).Reads := by
  have filtered : (s.filteredWindow q).Reads :=
    only_bind (s.reads_loadTargets q.threadIds []) fun _ =>
      only_bind (s.reads_fetchMany _) fun _ => trivial
  unfold window
  split
  · split
    · exact filtered
    · exact only_bind (s.reads_snapshot _) fun _ => only_bind (s.reads_fetchMany _) fun _ => trivial
  · exact filtered

theorem reads_firstIndexing (message : String) :
    ∀ (threads : List String) (orders : Orders), (s.firstIndexing orders message threads).Reads
  | [], _ => trivial
  | thread :: rest, orders => by
    refine only_bind (s.reads_loadOrder orders thread) fun loaded => ?_
    exact only_ite trivial (reads_firstIndexing message rest loaded.2)

theorem reads_includeThread (q : MessageQuery) (orders : Orders) (r : IncludeRequest) :
    (s.includeThread q orders r).Reads := by
  unfold includeThread
  split
  · trivial
  · refine only_bind (s.reads_firstIndexing r.id q.threadIds orders) fun indexing => ?_
    obtain ⟨thread?, orders'⟩ := indexing
    cases thread? with
    | some thread => trivial
    | none => exact only_bind (s.reads_findMessage r.id) fun _ => trivial

theorem reads_includeTargets (q : MessageQuery) :
    ∀ (requests : List IncludeRequest) (orders : Orders), (s.includeTargets q orders requests).Reads
  | [], _ => trivial
  | r :: rest, orders => by
    refine only_bind (s.reads_includeThread q orders r) fun found => ?_
    obtain ⟨thread?, orders'⟩ := found
    cases thread? with
    | none => exact reads_includeTargets q rest orders'
    | some thread =>
      refine only_bind (s.reads_loadOrder orders' thread) fun loaded => ?_
      exact only_bind (reads_includeTargets q rest loaded.2) fun _ => trivial

theorem reads_collectPage (q : MessageQuery) : (s.collectPage q).Reads :=
  only_bind (s.reads_window q) fun loaded =>
    only_bind (s.reads_includeTargets q q.includes loaded.2) fun found =>
      only_bind (s.reads_fetchMany (distinct found.1)) fun _ => trivial

/-! ## Operations -/

end Store

/-- The operations that only read. -/
def Operation.Reading : Operation → Prop
  | .getThread _ | .listThreads _ | .listMessagesById _ | .listMessages _ | .listRecent _ _
  | .getResource _ => True
  | _ => False

namespace Store

open Action

theorem reads_perform (s : Store) (now : Instant) {op : Operation} (h : op.Reading) :
    (s.perform now op).Reads := by
  cases op with
  | getThread id => exact only_map (only_orEmpty (s.reads_fetchThread id))
  | listThreads q =>
    refine only_map (only_bind (reads_check _) fun _ => only_bind (reads_check _) fun _ => ?_)
    refine only_orEmpty (only_bind s.reads_threadIds fun ids => ?_)
    exact only_bind (only_each (fun id => reads_skipCorrupt (s.reads_fetchThread id)) ids)
      fun _ => trivial
  | listMessagesById ids =>
    refine only_map (only_ite trivial (only_orEmpty ?_))
    exact only_bind (s.reads_locateMany ids) fun _ => only_bind (s.reads_fetchMany _) fun _ => trivial
  | listMessages q =>
    refine only_map (only_bind (reads_check _) fun _ => only_bind (reads_check _) fun _ => ?_)
    exact only_orEmpty (s.reads_collectPage q)
  | listRecent thread _ =>
    refine only_map (only_bind (reads_check _) fun _ => only_orEmpty ?_)
    exact only_bind (s.reads_snapshot thread) fun _ => s.reads_fetchMany _
  | getResource id => exact only_map (only_orEmpty (s.reads_fetchResource id))
  | _ => exact h.elim

end Store

end ChatMemory
