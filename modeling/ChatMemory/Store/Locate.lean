import ChatMemory.Distinct
import ChatMemory.Pairs
import ChatMemory.Store.Basic

/-!
# Finding messages

A message is in the thread under which it has a record. It is found by asking for it in one thread
after the other, in the order of their keys. With tracking switched on, the thread of each message is
noted in a table of *pointers*, which is looked at first. A pointer is never trusted: if the thread it
names does not hold the message, the search goes on as if there were none.
-/

namespace ChatMemory.Store

variable (s : Store)

/-! ## Holders -/

/-- Whether a thread has a record of a message. -/
def holds (thread message : String) : Action Bool := do
  let stored ← Action.ask (.get .messages (s.keys.message thread message))
    "STORAGE_KV_GET_MESSAGE_FAILED" (.messageIn thread message)
  return stored.isSome

/-- The first of some threads that holds a message. -/
def firstHolder (message : String) : List String → Action (Option String)
  | [] => return none
  | thread :: rest => do
    if ← s.holds thread message then return some thread else firstHolder message rest

/-- Those of some threads that hold a message. -/
def holdersAmong (message : String) : List String → Action (List String)
  | [] => return []
  | thread :: rest => do
    let found ← s.holds thread message
    let others ← holdersAmong message rest
    return if found then thread :: others else others

/-- All threads but one that hold a message. -/
def otherHolders (message except : String) : Action (List String) := do
  let threads ← s.threadIds
  s.holdersAmong message (threads.filter (· ≠ except))

/-! ## Pointers -/

/-- The thread that the pointer of a message names. -/
def pointer (message : String) : Action (Option String) := do
  let stored ← Action.ask (.get .messageThreads (s.keys.pointer message))
    "STORAGE_KV_GET_MESSAGE_POINTER_FAILED" (.message message)
  return (stored.bind Json.asText?).filter (· ≠ "")

/-- The thread that the pointer of a message names, if it holds the message. -/
def verifiedPointer (message : String) : Action (Option String) :=
  if s.config.trackMessageThreads then do
    match ← s.pointer message with
    | none => return none
    | some thread => do
      if ← s.holds thread message then return some thread else return none
  else return none

/-- What a change of a pointer was about. -/
def pointerContext (message thread : String) : ErrorContext :=
  (ErrorContext.message message).and "threadId" thread

/-- Notes the thread of a message, if tracking is on. -/
def notePointer (message thread : String) : Action Unit :=
  if s.config.trackMessageThreads then
    Action.ask (.put .messageThreads (s.keys.pointer message) (.str thread))
      "STORAGE_KV_PUT_MESSAGE_POINTER_FAILED" (pointerContext message thread)
  else return ()

/-- Forgets the thread of a message, if tracking is on and the pointer names that thread. -/
def forgetPointer (message thread : String) : Action Unit :=
  if s.config.trackMessageThreads then do
    if (← s.pointer message) = some thread then
      Action.ask (.delete .messageThreads (s.keys.pointer message))
        "STORAGE_KV_DELETE_MESSAGE_POINTER_FAILED" (pointerContext message thread)
    else return ()
  else return ()

/-! ## Search -/

/-- The thread that holds a message. -/
def findMessage (message : String) : Action (Option String) := do
  match ← s.verifiedPointer message with
  | some thread => return some thread
  | none => do s.firstHolder message (← s.threadIds)

/-- The threads of some messages, by message, and the messages that are still to be found. -/
structure Located where
  found : List (String × String) := []
  missing : List String := []

namespace Located

/-- Files a message under its thread. -/
def settle (l : Located) (message thread : String) : Located :=
  { l with found := Pairs.assign message thread l.found }

/-- Notes that a message is still to be found. -/
def miss (l : Located) (message : String) : Located :=
  if l.missing.contains message then l else { l with missing := l.missing ++ [message] }

/-- Files those missing messages that a thread lists. -/
def settleListed (l : Located) (thread : String) : List String → Located
  | [] => l
  | message :: rest =>
    if l.missing.contains message then
      settleListed ({ l with missing := l.missing.erase message }.settle message thread) thread rest
    else settleListed l thread rest

/-- Files what the listings of some threads hold, thread by thread. -/
def settleAll (l : Located) : List (String × List String) → Located
  | [] => l
  | (thread, messages) :: rest => settleAll (l.settleListed thread messages) rest

end Located

/-- Looks at the pointers of some messages. -/
def locateByPointer (l : Located) : List String → Action Located
  | [] => return l
  | message :: rest => do
    if (l.found.lookup message).isSome then locateByPointer l rest
    else
      match ← s.verifiedPointer message with
      | some thread => locateByPointer (l.settle message thread) rest
      | none => locateByPointer (l.miss message) rest

/--
The threads of all those messages that are found. Each thread is listed once, instead of asking each
thread for each message.
-/
def locateMany (messages : List String) : Action (List (String × String)) := do
  let l ← s.locateByPointer {} messages
  if l.missing.isEmpty then return l.found
  else do
    let listings ← Action.each (fun thread => do return (thread, ← s.messageIds thread))
      (← s.threadIds)
    return (l.settleAll listings).found

end ChatMemory.Store
