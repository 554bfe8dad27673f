import ChatMemory.Order.Snapshot
import ChatMemory.Storage.Action
import ChatMemory.Storage.Keyspace

/-!
# The order index

The order of each thread is kept next to its messages, as one record under a reserved key. Changes
read the record, merge and write it back within one turn on that key, so no change is lost. A change
that changes nothing writes nothing.
-/

namespace ChatMemory.OrderIndex

/-- The order of a thread. -/
def snapshot (keys : Keyspace) (thread : String) : Action OrderSnapshot := do
  let key := keys.order thread
  let stored ← Action.ask (.get .messages key) "STORAGE_KV_GET_ORDER_INDEX_FAILED" (.thread thread)
  match OrderEntry.ofStored stored with
  | .ok entries => return .ofEntries entries
  | .error cause => .fail (.corrupt key cause)

/-- Changes the order of a thread in its turn. -/
def merge (keys : Keyspace) (thread : String) (change : OrderSnapshot → Option OrderSnapshot) :
    Action Unit :=
  let key := keys.order thread
  .exclusively key do
    match change (← snapshot keys thread) with
    | none => return ()
    | some order =>
      Action.ask (.put .messages key order.toJson) "STORAGE_KV_PUT_ORDER_INDEX_FAILED"
        (.thread thread)

/-- Adds entries; ids that are there already keep their place. -/
def add (keys : Keyspace) (thread : String) (entries : List OrderEntry) : Action Unit :=
  if entries.isEmpty then return () else merge keys thread (·.add? entries)

/-- Removes ids. -/
def remove (keys : Keyspace) (thread : String) (ids : List String) : Action Unit :=
  if ids.isEmpty then return () else merge keys thread (·.remove? ids)

/-- Deletes the index of a thread. -/
def clear (keys : Keyspace) (thread : String) : Action Unit :=
  let key := keys.order thread
  .exclusively key
    (Action.ask (.delete .messages key) "STORAGE_KV_DELETE_ORDER_INDEX_FAILED" (.thread thread))

end ChatMemory.OrderIndex
