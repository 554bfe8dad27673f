import ChatMemory.Store.Listing
import ChatMemory.Store.Reconcile
import ChatMemory.Store.Resources

/-!
# Operations

All that a client can ask a store to do, as data: the operations with their arguments, and the
replies to them. A client's history is a list of operations, each with the time of the clock.
-/

namespace ChatMemory

/-- An operation with its arguments. -/
inductive Operation where
  | getThread (id : String)
  | saveThread (thread : Thread)
  | updateThread (id title : String) (patch : Object)
  | deleteThread (id : String)
  | listThreads (query : ThreadQuery)
  | saveMessages (messages : List Message)
  | updateMessages (updates : List MessageUpdate)
  | listMessagesById (ids : List String)
  | listMessages (query : MessageQuery)
  | listRecent (thread : String) (n : Nat)
  | getResource (id : String)
  | saveResource (resource : Resource)
  | updateResource (id : String) (memory : Option String) (patch : Option Object)
  | reconcileThread (id : String)
  | migrateMessage (message origin destination : String)

/-- The reply to an operation that went well. -/
inductive Reply where
  | nothing
  | thread (thread : Option Thread)
  | threads (page : ThreadPage)
  | message (message : Message)
  | messages (messages : List Message)
  | page (page : MessagePage)
  | resource (resource : Option Resource)
  | report (report : ReconcileReport)

namespace Reply

/-- A reply as JSON. A report also says whether it is clean. -/
def toJson : Reply → Json
  | .nothing => .null
  | .thread t => (t.map Thread.toJson).getD .null
  | .threads p => p.toJson
  | .message m => m.toJson
  | .messages ms => .arr (ms.map Message.toJson)
  | .page p => p.toJson
  | .resource r => (r.map Resource.toJson).getD .null
  | .report r =>
    match r.toJson with
    | .obj fields => .obj (Pairs.insert "clean" (.bool r.isClean) fields)
    | v => v

end Reply

namespace Store

/-- The action of an operation at a time. -/
def perform (s : Store) (now : Instant) (op : Operation) (schedule : Schedule := .inOrder) :
    Action Reply :=
  match op with
  | .getThread id => .thread <$> s.getThread id
  | .saveThread t => (.thread ∘ some) <$> s.saveThread t
  | .updateThread id title patch => (.thread ∘ some) <$> s.updateThread now id title patch
  | .deleteThread id => (fun _ => .nothing) <$> s.deleteThread id schedule
  | .listThreads q => .threads <$> s.listThreads q
  | .saveMessages ms => .messages <$> s.saveMessages now ms schedule
  | .updateMessages us => .messages <$> s.updateMessages now us
  | .listMessagesById ids => .messages <$> s.listMessagesById ids
  | .listMessages q => .page <$> s.listMessages q
  | .listRecent thread n => .messages <$> s.listRecent thread n
  | .getResource id => .resource <$> s.getResource id
  | .saveResource r => (.resource ∘ some) <$> s.saveResource r
  | .updateResource id memory patch =>
    (.resource ∘ some) <$> s.updateResource now id memory patch
  | .reconcileThread id => .report <$> s.reconcileThread id schedule
  | .migrateMessage message origin destination =>
    .message <$> s.migrateMessage now message origin destination

/-- Performs operations one after the other; an operation that fails does not stop the next. -/
def performAll (s : Store) (faults : Faults) :
    List (Instant × Operation) → World → List (Except MemoryError Reply) × World
  | [], w => ([], w)
  | (now, op) :: rest, w =>
    let (reply, w) := (s.perform now op).run faults w
    let (replies, w) := performAll s faults rest w
    (reply :: replies, w)

end Store

end ChatMemory
