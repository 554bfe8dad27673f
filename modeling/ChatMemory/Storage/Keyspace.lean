import ChatMemory.Storage.Table

/-!
# Keys

Where each record is stored. A key is the namespace, the name of the table and some fields, each
field after a colon. The namespace may be any text, but identifiers may hold no colon, so different
identifiers have different keys.

The messages of a thread and its order index share a table and a beginning; the index has the
reserved message id `orderField`.
-/

namespace ChatMemory

/-- The key layout of a store: the text in front of all its keys. -/
structure Keyspace where
  ns : String

namespace Keyspace

/-- The last field of the key of an order index. No message may have it as its id. -/
def orderField : String := "messages"

/-- A colon and a field, for each field. -/
def joined : List String → String
  | [] => ""
  | field :: fields => ":" ++ field ++ joined fields

/-- The key of some fields in a table. -/
def key (s : Keyspace) (table : Table) (fields : List String) : String :=
  s.ns ++ table.name ++ joined fields

/-- The key of a thread. -/
def thread (s : Keyspace) (id : String) : String := s.key .threads [id]

/-- The beginning of all thread keys. -/
def threadsStart (s : Keyspace) : String := s.key .threads [""]

/-- The id of a thread, from its key. -/
def threadId? (s : Keyspace) (key : String) : Option String :=
  (Text.after? s.threadsStart key).filter (· ≠ "")

/-- The key of a message in a thread. -/
def message (s : Keyspace) (thread id : String) : String := s.key .messages [thread, id]

/-- The beginning of all message keys of a thread, and of the key of its order index. -/
def messagesStart (s : Keyspace) (thread : String) : String := s.key .messages [thread, ""]

/-- The id of a message in a thread, from its key; the order index is no message. -/
def messageId? (s : Keyspace) (thread key : String) : Option String :=
  (Text.after? (s.messagesStart thread) key).filter fun id => id ≠ "" && id ≠ orderField

/-- The key of the order index of a thread. -/
def order (s : Keyspace) (thread : String) : String := s.key .messages [thread, orderField]

/-- The key of a resource. -/
def resource (s : Keyspace) (id : String) : String := s.key .resources [id]

/-- The key under which the thread of a message is noted. -/
def pointer (s : Keyspace) (message : String) : String := s.key .messageThreads [message]

example : (Keyspace.mk "app-").message "t1" "m1" = "app-messages:t1:m1" := by decide
example : (Keyspace.mk "").messageId? "t1" "messages:t1:messages" = none := by decide

end Keyspace

end ChatMemory
