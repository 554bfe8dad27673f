import ChatMemory.Message.Stored
import ChatMemory.Store.Threads

/-!
# Messages in the store

Saving, moving, changing and reading messages.

* A batch is checked as a whole before anything is written. Messages that are in other threads are
  moved first. Then each thread gets its records, which are written at the same time, its order entries
  and a new date of change.
* A move copies the record into the destination, takes the message out of the order of its old
  thread, deletes the old record and adds the message at the end of the new order. The copy notes
  where it came from. If the move stops half way, this note tells which of two copies is the newer.
* Changes are applied one message at a time.
-/

namespace ChatMemory.Store

variable (s : Store)

/-! ## Records -/

/-- The message of an id in a thread. -/
def fetchMessage (thread message : String) : Action (Option Message) := do
  let key := s.keys.message thread message
  match ← Action.ask (.get .messages key) "STORAGE_KV_GET_MESSAGE_FAILED"
      (.messageIn thread message) with
  | none => return none
  | some record =>
    match Message.ofRecord record with
    | .ok m => return some m
    | .error cause => .fail (.corrupt key cause)

/-- Messages by thread and id, in order. Those that are missing or do not decode are left out. -/
def fetchMany (targets : List (String × String)) : Action (List Message) := do
  let found ← Action.each (fun target => skipCorrupt (s.fetchMessage target.1 target.2)) targets
  return found.filterMap id

/-- Writes the record of a message under the thread and id that the message names. -/
def writeMessage (m : Message) (record : Json) : Action Unit :=
  Action.ask (.put .messages (s.keys.message m.threadId m.id) record)
    "STORAGE_KV_PUT_MESSAGE_FAILED" (.messageIn m.threadId m.id)

/-! ## Moving -/

/-- Moves a message, which names its new thread already, out of its old one. -/
def relocate (now : Instant) (m : Message) (origin : String) : Action Unit := do
  s.writeMessage m (m.toMovedRecord origin)
  OrderIndex.remove s.keys origin [m.id]
  Action.ask (.delete .messages (s.keys.message origin m.id)) "STORAGE_KV_MIGRATE_MESSAGE_FAILED"
    (((ErrorContext.message m.id).and "fromThreadId" origin).and "toThreadId" m.threadId)
  OrderIndex.add s.keys m.threadId [⟨m.id, freshScore now⟩]
  s.notePointer m.id m.threadId

/-- Moves a message from one thread to another. -/
def migrateMessage (now : Instant) (message origin destination : String) : Action Message := do
  check (Identifier.messageViolations "messageId" message
    ++ Identifier.violations "fromThreadId" origin
    ++ Identifier.violations "toThreadId" destination)
  match ← s.fetchMessage origin message with
  | none => .fail (.messageNotFound message)
  | some m =>
    if origin = destination then return m
    else if ← s.threadExists destination then
      let moved := { m with threadId := destination }
      s.relocate now moved origin
      s.touchThread now origin
      s.touchThread now destination
      return moved
    else .fail (.threadNotFound destination)

/-! ## Saving -/

/-- The label of a field of a message in a batch. -/
def batchLabel (position : Nat) (field : String) : String :=
  "messages[" ++ Text.natText position ++ "]: " ++ field

/-- What is wrong with a message of a batch; `earlier` are the ids in front of it. -/
def messageViolations (earlier : List String) (position : Nat) (m : Message) : List Violation :=
  Identifier.messageViolations (batchLabel position "id") m.id
    ++ Identifier.violations (batchLabel position "threadId") m.threadId
    ++ (match m.resourceId with
      | some id => Identifier.violations (batchLabel position "resourceId") id
      | none => [.required (batchLabel position "resourceId")])
    ++ (if m.content.isEmpty then [.required (batchLabel position "content")] else [])
    ++ (if m.id ≠ "" ∧ m.id ∈ earlier then [.repeated (batchLabel position "id") m.id] else [])

/-- What is wrong with a batch, from a position on. -/
def batchViolations (earlier : List String) (position : Nat) : List Message → List Violation
  | [] => []
  | m :: rest =>
    messageViolations earlier position m ++ batchViolations (m.id :: earlier) (position + 1) rest

/-- The threads that a batch names, in order, each once. -/
def batchThreads (messages : List Message) : List String :=
  Sorting.sort (fun a b => decide (a ≤ b)) (distinct (messages.map (·.threadId)))

/-- The messages of a batch for one thread, with their positions in the whole batch. -/
def batchOf (messages : List Message) (thread : String) : List (Message × Nat) :=
  messages.zipIdx.filter (·.1.threadId = thread)

/-- Ends with an error if a thread does not exist. -/
def requireThread (id : String) : Action Unit := do
  if ← s.threadExists id then return () else .fail (.threadNotFound id)

/-- Moves a message to the thread that it names, if it is in another one. -/
def fetchHome (now : Instant) (m : Message) : Action Unit := do
  match ← s.findMessage m.id with
  | none => return ()
  | some current =>
    if current = m.threadId then return ()
    else
      let _ ← s.migrateMessage now m.id current m.threadId
      return ()

/-- Writes a message of a batch and notes its thread. -/
def writeOfBatch (entry : Message × Nat) : Action Unit := do
  s.writeMessage entry.1 (entry.1.toRecord entry.2)
  s.notePointer entry.1.id entry.1.threadId

/--
Writes the part of a batch that belongs to one thread. The records are written at the same time. No two
of them have a key in common, so if all are written their order does not matter; if not, any of them may
be among those that are.
-/
def saveInto (now : Instant) (messages : List Message) (thread : String)
    (schedule : Schedule := .inOrder) : Action Unit := do
  let batch := batchOf messages thread
  Action.together (schedule thread) (batch.map s.writeOfBatch)
  OrderIndex.add s.keys thread (batch.map fun (m, i) => ⟨m.id, scoreFor m.createdAt i⟩)
  s.touchThread now thread

theorem saveInto_inOrder (now : Instant) (messages : List Message) (thread : String) :
    s.saveInto now messages thread = (do
      Action.forAll s.writeOfBatch (batchOf messages thread)
      OrderIndex.add s.keys thread
        ((batchOf messages thread).map fun (m, i) => ⟨m.id, scoreFor m.createdAt i⟩)
      s.touchThread now thread) := by
  show (Action.forAll id ((batchOf messages thread).map s.writeOfBatch) >>= _) = _
  rw [Action.forAll_map]
  rfl

/-- Saves a batch of messages. -/
def saveMessages (now : Instant) (messages : List Message) (schedule : Schedule := .inOrder) :
    Action (List Message) := do
  check (batchViolations [] 0 messages)
  if messages.isEmpty then return messages
  else
    let threads := batchThreads messages
    Action.forAll s.requireThread threads
    Action.forAll (s.fetchHome now) messages
    Action.forAll (s.saveInto now messages · schedule) threads
    return messages

/-! ## Changing -/

/-- The label of a field of a change in a list of changes. -/
def updateLabel (position : Nat) (field : String) : String :=
  "messages[" ++ Text.natText position ++ "]." ++ field

/-- What is wrong with some changes, from a position on. -/
def updateViolations (position : Nat) : List MessageUpdate → List Violation
  | [] => []
  | u :: rest =>
    Identifier.messageViolations (updateLabel position "id") u.id
      ++ (match u.threadId with
        | some id => Identifier.violations (updateLabel position "threadId") id
        | none => [])
      ++ updateViolations (position + 1) rest

/-- Moves a message to the place of its date in the order of its thread. -/
def rescore (m : Message) : Action Unit := do
  OrderIndex.remove s.keys m.threadId [m.id]
  OrderIndex.add s.keys m.threadId [⟨m.id, scoreFor m.createdAt 0⟩]

/-- Applies a change to a message that stays in its thread. -/
def updateInPlace (now : Instant) (current : String) (before after : Message) : Action Message := do
  s.writeMessage after (after.toRecord 0)
  if after.createdAt = before.createdAt then pure () else s.rescore after
  s.touchThread now current
  return after

/-- Applies a change to a message that moves to another thread. -/
def updateAndMove (now : Instant) (current destination : String) (after : Message) :
    Action Message := do
  s.requireThread destination
  let moved := { after with threadId := destination }
  s.relocate now moved current
  s.touchThread now current
  s.touchThread now destination
  return moved

/-- Applies a change to a message. -/
def updateMessage (now : Instant) (u : MessageUpdate) : Action Message := do
  match ← s.findMessage u.id with
  | none => .fail (.messageNotFound u.id)
  | some current =>
    match ← s.fetchMessage current u.id with
    | none => .fail (.messageNotFound u.id)
    | some before =>
      match u.threadId.filter (· ≠ current) with
      | some destination => s.updateAndMove now current destination (before.apply u)
      | none => s.updateInPlace now current before (before.apply u)

/-- Applies changes one after the other. -/
def updateMessages (now : Instant) (updates : List MessageUpdate) : Action (List Message) := do
  check (updateViolations 0 updates)
  Action.each (s.updateMessage now) updates

/-! ## Reading -/

/-- The order by date, then id. -/
def olderFirst : Message → Message → Bool := Sorting.byRank Message.dateOrder (·.id)

/-- The messages of some ids, oldest first. Ids that are not found are left out. -/
def listMessagesById (ids : List String) : Action (List Message) :=
  if ids.isEmpty then return []
  else Action.orEmpty (do
    let located ← s.locateMany ids
    let targets := (distinct ids).filterMap fun id =>
      (located.lookup id).map fun thread => (thread, id)
    return Sorting.sort olderFirst (← s.fetchMany targets)) []

/-- The last `n` messages of a thread, in their order. -/
def listRecent (thread : String) (n : Nat) : Action (List Message) := do
  check (Identifier.violations "threadId" thread)
  Action.orEmpty (do
    let order ← OrderIndex.snapshot s.keys thread
    s.fetchMany ((order.lastN n).map fun id => (thread, id))) []

end ChatMemory.Store
