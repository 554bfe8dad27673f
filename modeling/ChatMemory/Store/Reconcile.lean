import ChatMemory.Store.Messages

/-!
# Reconciling a thread

An operation that was stopped half way can leave records that no order holds, order entries without
records, records that name another thread, or the same message in two threads. Reconciling a thread
settles what is found under it.

* If the thread has no record, everything under it is deleted.
* A record that the order holds and that names the thread is in its place.
* Any other readable record is kept or deleted, by where else the message is stored
  (`keepCopy`). A record that is kept is made to name the thread, and gets into the order.
* A record that does not decode is left alone.
* Order entries without a record are dropped.
-/

namespace ChatMemory

/-- What reconciling a thread changed. -/
structure ReconcileReport where
  threadId : String
  /-- Messages that were added to the order. -/
  unindexed : List String := []
  /-- Ids that were dropped from the order. -/
  dropped : List String := []
  /-- Messages that were deleted here, since another thread has them. -/
  removed : List String := []
  /-- Messages that were made to name the thread. -/
  adopted : List String := []
  /-- Whether the thread was gone, and what was left of it deleted. -/
  purged : Bool := false
deriving DecidableEq

namespace ReconcileReport

/-- Whether nothing was changed. -/
def isClean (r : ReconcileReport) : Bool :=
  r.unindexed.isEmpty && r.dropped.isEmpty && r.removed.isEmpty && r.adopted.isEmpty && !r.purged

def toJson (r : ReconcileReport) : Json :=
  .obj [("adopted", .arr (r.adopted.map Json.str)), ("dropped", .arr (r.dropped.map Json.str)),
    ("purged", .bool r.purged), ("removed", .arr (r.removed.map Json.str)),
    ("threadId", .str r.threadId), ("unindexed", .arr (r.unindexed.map Json.str))]

end ReconcileReport

namespace Store

variable (s : Store)

/-! ## Copies -/

/-- A readable record of a message, with the thread that it says it came from. -/
structure StoredCopy where
  message : Message
  origin : Option String

/-- The record of a message in a thread, if there is one that decodes. -/
def loadCopy (thread message : String) : Action (Option StoredCopy) := do
  let stored ← Action.ask (.get .messages (s.keys.message thread message))
    "STORAGE_KV_GET_MESSAGE_FAILED" (.messageIn thread message)
  match stored with
  | none => return none
  | some record =>
    match Message.ofRecord record with
    | .ok m => return some ⟨m, Message.origin? record⟩
    | .error _ => return none

/-- Whether the order of one of some threads holds a message. -/
def indexedAmong (message : String) : List String → Action Bool
  | [] => return false
  | thread :: rest => do
    let order ← OrderIndex.snapshot s.keys thread
    if order.contains message then return true else indexedAmong message rest

/-- Whether one of some threads has a copy of a message that says it came from `origin`. -/
def movedFrom (origin message : String) : List String → Action Bool
  | [] => return false
  | thread :: rest => do
    let copy ← s.loadCopy thread message
    if (copy.bind (·.origin)) = some origin then return true else movedFrom origin message rest

/--
Whether a copy that the order does not hold, or that names another thread, stays in this thread.

It stays if no other thread has the message. Else it goes if another thread has the message in its
order, since then a move away from there never came to its end. Else it stays if the order here holds
it, or if it says that it came from one of the others. Else it goes if one of the others says that it
came from here. If nothing tells which copy counts, it stays.
-/
def keepCopy (thread : String) (copy : StoredCopy) (order : OrderSnapshot) : Action Bool := do
  let message := copy.message.id
  let holders ← s.otherHolders message thread
  if holders.isEmpty then return true
  else if ← s.indexedAmong message holders then return false
  else if order.contains message then return true
  else if holders.any fun h => copy.origin = some h then return true
  else
    let gone ← s.movedFrom thread message holders
    return !gone

/-- Rewrites a record that named another thread. -/
def rewriteCopy (m : Message) : Action Unit :=
  Action.ask (.put .messages (s.keys.message m.threadId m.id) (m.toRecord 0))
    "STORAGE_KV_RECONCILE_FAILED" (.messageIn m.threadId m.id)

/-- Deletes the record of a message, and its pointer if it names the thread. -/
def deleteCopy (thread message : String) : Action Unit := do
  Action.ask (.delete .messages (s.keys.message thread message)) "STORAGE_KV_RECONCILE_FAILED"
    (.messageIn thread message)
  s.forgetPointer message thread

/-! ## Settling one copy -/

/-- What became of the record under a message id. -/
inductive CopyFate where
  /-- It does not decode, and was left alone. -/
  | unreadable (id : String)
  /-- It is in its place. -/
  | kept (message : Message)
  /-- It was made to name the thread. -/
  | adopted (message : Message)
  /-- It was deleted. -/
  | removed (id : String)

namespace CopyFate

/-- The message, if it is now in the thread. -/
def present? : CopyFate → Option Message
  | .kept m | .adopted m => some m
  | _ => none

def unreadable? : CopyFate → Option String
  | .unreadable id => some id
  | _ => none

def adopted? : CopyFate → Option String
  | .adopted m => some m.id
  | _ => none

def removed? : CopyFate → Option String
  | .removed id => some id
  | _ => none

end CopyFate

/-- Settles the record under a message id. -/
def settleCopy (thread : String) (order : OrderSnapshot) (id : String) : Action CopyFate := do
  match ← s.loadCopy thread id with
  | none => return .unreadable id
  | some copy =>
    if order.contains id && copy.message.threadId = thread then return .kept copy.message
    else if ← s.keepCopy thread copy order then
      if copy.message.threadId = thread then return .kept copy.message
      else
        let m := { copy.message with threadId := thread }
        s.rewriteCopy m
        return .adopted m
    else
      s.deleteCopy thread id
      return .removed id

/-! ## Settling a thread -/

/-- Settles a thread that has a record. -/
def reconcileExisting (thread : String) (ids : List String) : Action ReconcileReport := do
  let order ← OrderIndex.snapshot s.keys thread
  let fates ← Action.each (s.settleCopy thread order) ids
  let present := fates.filterMap CopyFate.present?
  let unreadable := fates.filterMap CopyFate.unreadable?
  let dropped := order.ids.filter fun id =>
    !(present.any (·.id = id)) && !unreadable.contains id
  OrderIndex.remove s.keys thread dropped
  let unindexed := present.filter fun m => !order.contains m.id
  OrderIndex.add s.keys thread (unindexed.map fun m => ⟨m.id, scoreFor m.createdAt 0⟩)
  Action.forAll (fun m : Message => s.notePointer m.id thread) present
  return { threadId := thread
           unindexed := unindexed.map (·.id)
           dropped := dropped
           removed := fates.filterMap CopyFate.removed?
           adopted := fates.filterMap CopyFate.adopted? }

/-- Settles what is left of a thread without a record. -/
def reconcileGone (thread : String) (ids : List String) (schedule : Schedule := .inOrder) :
    Action ReconcileReport := do
  let order ← OrderIndex.snapshot s.keys thread
  if ids.isEmpty && order.isEmpty then return { threadId := thread }
  else
    s.purge thread ids schedule
    return { threadId := thread, purged := true }

/-- Settles everything under a thread. -/
def reconcileThread (thread : String) (schedule : Schedule := .inOrder) :
    Action ReconcileReport := do
  check (Identifier.violations "threadId" thread)
  let ids ← s.messageIds thread
  if ← s.threadExists thread then s.reconcileExisting thread ids
  else s.reconcileGone thread ids schedule

end Store

end ChatMemory
