import ChatMemory.Order.Index
import ChatMemory.Query.Threads
import ChatMemory.Store.Locate

/-!
# Threads in the store

Reading, writing, listing and deleting threads. A thread is changed in its turn: it is read, changed
and written back before anyone else may change it.

Deleting a thread deletes its messages, their pointers, its order index and its record, all at the same
time. It is not atomic: a failure can leave any part of this behind, also messages of a thread whose
record is gone. What is left can be deleted later by reconciling the thread.
-/

namespace ChatMemory.Store

variable (s : Store)

/-! ## One thread -/

/-- The record of a thread. -/
def fetchThread (id : String) : Action (Option Thread) := do
  let key := s.keys.thread id
  match ← Action.ask (.get .threads key) "STORAGE_KV_GET_THREAD_FAILED" (.thread id) with
  | none => return none
  | some record =>
    match Thread.ofJson record with
    | .ok thread => return some thread
    | .error cause => .fail (.corrupt key cause)

/-- Whether a thread has a record. -/
def threadExists (id : String) : Action Bool := do return (← s.fetchThread id).isSome

/-- Writes the record of a thread. -/
def writeThread (t : Thread) (key : String) : Action Unit :=
  Action.ask (.put .threads key t.toJson) "STORAGE_KV_PUT_THREAD_FAILED" (.thread t.id)

/-- The thread of an id; nothing if it cannot be read. -/
def getThread (id : String) : Action (Option Thread) := (s.fetchThread id).orEmpty none

/-- Stores a thread, replacing any of the same id. -/
def saveThread (t : Thread) : Action Thread := do
  check (Identifier.violations "id" t.id ++ Identifier.violations "resourceId" t.resourceId)
  let key := s.keys.thread t.id
  Action.exclusively key (writeThread t key)
  return t

/-- Changes the record of a thread in its turn. -/
def modifyThread (id : String) (change : Thread → Thread) : Action Thread :=
  let key := s.keys.thread id
  .exclusively key do
    match ← s.fetchThread id with
    | none => .fail (.threadNotFound id)
    | some t => do
      writeThread (change t) key
      return change t

/-- Replaces the title of a thread and merges metadata into it. -/
def updateThread (now : Instant) (id title : String) (patch : Object) : Action Thread :=
  s.modifyThread id fun t => (t.revise title patch).touch now

/-- Notes that a thread has changed. -/
def touchThread (now : Instant) (id : String) : Action Unit := do
  let _ ← s.modifyThread id (Thread.touch now)
  return ()

/-! ## Listing -/

/-- The order of a listing: by date in the given direction, and equal dates by id. -/
def threadPrecedes (o : ThreadOrder) : Thread → Thread → Bool :=
  Sorting.byRank (fun t =>
    match o.direction with
    | .ascending => (o.field.date t).order
    | .descending => -(o.field.date t).order) (·.id)

/-- The page of a listing, from all threads that can be read. -/
def threadPage (q : ThreadQuery) (threads : List Thread) : ThreadPage :=
  let sorted := Sorting.sort (threadPrecedes q.orderBy)
    (threads.filter (·.resourceId = q.resourceId))
  let page := q.perPage.slice q.page sorted
  { threads := page
    total := sorted.length
    page := q.page
    perPage := q.perPage
    hasMore := match q.perPage with
      | .all => false
      | .limit _ => q.perPage.offset q.page + page.length < sorted.length }

/-- The threads of a resource, page by page. Records that do not decode are passed over. -/
def listThreads (q : ThreadQuery) : Action ThreadPage := do
  check (Identifier.pageViolations q.page)
  check (Identifier.violations "resourceId" q.resourceId)
  Action.orEmpty (do
    let found ← Action.each (fun id => skipCorrupt (s.fetchThread id)) (← s.threadIds)
    return threadPage q (found.filterMap id)) (.empty q)

/-! ## Deletion -/

/-- Deletes the record of a message of a thread that goes, and its pointer. -/
def purgeMessage (thread message : String) : Action Unit := do
  Action.ask (.delete .messages (s.keys.message thread message)) "STORAGE_KV_DELETE_THREAD_FAILED"
    (.messageIn thread message)
  s.forgetPointer message thread

/-- Deletes the record of a thread. -/
def purgeRecord (thread : String) : Action Unit :=
  Action.ask (.delete .threads (s.keys.thread thread)) "STORAGE_KV_DELETE_THREAD_FAILED"
    (.thread thread)

/-- The deletions of some messages of a thread, of its order index and of its record. -/
def purges (thread : String) (messages : List String) : List (Action Unit) :=
  messages.map (s.purgeMessage thread) ++ [OrderIndex.clear s.keys thread, s.purgeRecord thread]

/-- Deletes some messages of a thread, its order index and its record, all at the same time. -/
def purge (thread : String) (messages : List String) (schedule : Schedule := .inOrder) :
    Action Unit :=
  Action.together (schedule thread) (s.purges thread messages)

theorem purge_inOrder (thread : String) (messages : List String) :
    s.purge thread messages = (do
      Action.forAll (s.purgeMessage thread) messages
      OrderIndex.clear s.keys thread
      s.purgeRecord thread) := by
  show Action.forAll id (s.purges thread messages) = _
  rw [purges, Action.forAll_append, Action.forAll_map]
  show (Action.forAll (s.purgeMessage thread) messages >>= fun _ => OrderIndex.clear s.keys thread >>=
    fun _ => s.purgeRecord thread >>= pure) = _
  rw [bind_pure]

/-- Deletes a thread with all that belongs to it. -/
def deleteThread (id : String) (schedule : Schedule := .inOrder) : Action Unit := do
  check (Identifier.violations "threadId" id)
  if ← s.threadExists id then
    s.purge id (← s.messageIds id) schedule
  else .fail (.threadNotFound id)

end ChatMemory.Store
