import ChatMemory.Config
import ChatMemory.Identifier
import ChatMemory.Storage.Schedule

/-!
# The store

A store is a key layout and settings; its contents are with the adapter. All operations are actions,
so what an operation does is the same whether it runs alone, is stopped by a failure, or shares the
adapter with others.

Where several records are read for one operation, they are taken one after the other, in the order in
which they are listed, up to the first failure. The same goes for most that is written. But the records
of a batch are written at the same time, and so is deleted all that belongs to a thread: there the order
of the calls is told by a `Schedule`. Where no schedule is named, it is the order of the lists.
-/

namespace ChatMemory

/-- A store for conversations. -/
structure Store where
  keys : Keyspace
  config : StoreConfig

namespace Store

/-- Ends with an error if there are violations. -/
def check (violations : List Violation) : Action Unit :=
  .ofExcept (Identifier.report violations)

/-- The ids of all threads that have a record. -/
def threadIds (s : Store) : Action (List String) := do
  let keys ← Action.ask (.list .threads s.keys.threadsStart) "STORAGE_KV_LIST_THREADS_FAILED" []
  return keys.filterMap s.keys.threadId?

/-- The ids of all messages that have a record in a thread. -/
def messageIds (s : Store) (thread : String) : Action (List String) := do
  let keys ← Action.ask (.list .messages (s.keys.messagesStart thread))
    "STORAGE_KV_LIST_MESSAGES_FAILED" (.thread thread)
  return keys.filterMap (s.keys.messageId? thread)

/-- A reading of records that takes an undecodable one for none. -/
def skipCorrupt {α : Type} (p : Action (Option α)) : Action (Option α) :=
  p.recover fun
    | .corrupt _ _ => return none
    | error => .fail error

end Store

end ChatMemory
