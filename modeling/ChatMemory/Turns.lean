import ChatMemory.Pairs

/-!
# Taking turns

Read-modify-write cycles on one key must not overlap. Each cycle is a *request* for its key; at most
one request holds a key, and the others wait and are served in the order of their arrival. Requests
for different keys never wait for each other.

A key that is asked for gets a *slot*: a lock object and a count of the requests that use it, from
before they wait until they are dropped. The slot goes with its last user. A released lock is handed
to the oldest request that still waits, whether or not that request has looked yet. A request that is
dropped after the lock was handed to it, but before it looked, hands the lock on.

A request with a job runs it as soon as it finds itself holding the key, and is gone with that. A
request without one holds the key until it is dropped.

## State

`Turns` keeps the slots by key, the lock objects by number and the tickets of the live requests.
A ticket remembers the lock it was given. A lock lives as long as a slot or a ticket refers to it.
-/

namespace ChatMemory

/-- Who holds a lock, and who waits for it, oldest first. -/
structure Lock (ρ : Type) where
  holder : Option ρ
  waiters : List ρ
deriving DecidableEq

/-- The lock of a key in use and the number of requests that use it. -/
structure Slot where
  lock : Nat
  users : Nat
deriving DecidableEq

/-- A live request. It is served once it has found itself holding the key. -/
structure Ticket (ρ β : Type) where
  name : ρ
  key : String
  lock : Nat
  /-- The result of the job to run in turn, if there is a job. -/
  job : Option β
  served : Bool
deriving DecidableEq

/-- All keys in use, with the requests that use them. -/
structure Turns (ρ β : Type) where
  slots : List (String × Slot)
  locks : List (Nat × Lock ρ)
  tickets : List (Ticket ρ β)
deriving DecidableEq

/-- What a request learns when it looks, or when it is dropped. -/
inductive TurnReply (β : Type) where
  | held
  | waiting
  | finished (result : β)
  | released
  | cancelled
  /-- There is no live request of the name. -/
  | absent
  /-- A live request has the name already. -/
  | taken
deriving DecidableEq

namespace Lock

variable {ρ : Type} [DecidableEq ρ]

/-- A lock that nobody uses. -/
def free : Lock ρ := ⟨none, []⟩

/-- A new request takes a lock that nobody holds, and waits for it otherwise. -/
def request (l : Lock ρ) (name : ρ) : Lock ρ :=
  match l.holder with
  | none => { l with holder := some name }
  | some _ => { l with waiters := l.waiters ++ [name] }

/-- The lock goes to the oldest waiter. -/
def handOn (l : Lock ρ) : Lock ρ :=
  match l.waiters with
  | [] => ⟨none, []⟩
  | next :: rest => ⟨some next, rest⟩

/-- A request leaves: its hold is handed on, or its place in the queue is given up. -/
def leave (l : Lock ρ) (name : ρ) : Lock ρ :=
  if l.holder = some name then l.handOn else { l with waiters := l.waiters.erase name }

end Lock

namespace Turns

open Pairs (assign without)

variable {ρ β : Type} [DecidableEq ρ]

/-- No requests. -/
def idle : Turns ρ β := ⟨[], [], []⟩

/-- A number that no lock has. -/
def freshLock (t : Turns ρ β) : Nat := (t.locks.map (·.1)).foldl max 0 + 1

/-- The slot of a key, or a new one without users. -/
def slot (t : Turns ρ β) (key : String) : Slot :=
  (t.slots.lookup key).getD ⟨t.freshLock, 0⟩

/-- The lock of a number. -/
def lock (t : Turns ρ β) (number : Nat) : Lock ρ := (t.locks.lookup number).getD .free

/-- The live request of a name. -/
def ticket? (t : Turns ρ β) (name : ρ) : Option (Ticket ρ β) :=
  t.tickets.find? (·.name = name)

/-- The number of keys that are held or waited for. -/
def activeKeys (t : Turns ρ β) : Nat := t.slots.length

/-- Drops the locks that nothing refers to. -/
def collect (t : Turns ρ β) : Turns ρ β :=
  { t with locks := t.locks.filter fun (number, _) =>
      t.slots.any (fun s => s.2.lock = number) || t.tickets.any (fun k => k.lock = number) }

/-- Counts a new request among the users of its key, and lets it ask for the lock. -/
def enlist (t : Turns ρ β) (name : ρ) (key : String) (job : Option β) : Turns ρ β :=
  let s := t.slot key
  { slots := assign key { s with users := s.users + 1 } t.slots
    locks := assign s.lock ((t.lock s.lock).request name) t.locks
    tickets := t.tickets ++ [⟨name, key, s.lock, job, false⟩] }

/-- Counts a request out of the users of its key; the slot goes with its last user. -/
def discharge (t : Turns ρ β) (key : String) : Turns ρ β :=
  match t.slots.lookup key with
  | none => t
  | some s =>
    if s.users ≤ 1 then { t with slots := without key t.slots }
    else { t with slots := assign key { s with users := s.users - 1 } t.slots }

/-- Ends a request: it leaves the lock first, and then the slot. -/
def finish (t : Turns ρ β) (k : Ticket ρ β) : Turns ρ β :=
  let unlocked := { t with
    locks := assign k.lock ((t.lock k.lock).leave k.name) t.locks
    tickets := t.tickets.filter (·.name ≠ k.name) }
  (unlocked.discharge k.key).collect

/-- Notes that a request has found itself holding the key. -/
def serve (t : Turns ρ β) (k : Ticket ρ β) : Turns ρ β :=
  { t with tickets := t.tickets.map fun k' =>
      if k'.name = k.name then { k' with served := true } else k' }

/-- A live request looks whether it is its turn. -/
def look (t : Turns ρ β) (k : Ticket ρ β) : Turns ρ β × TurnReply β :=
  if k.served then (t, .held)
  else if (t.lock k.lock).holder = some k.name then
    match k.job with
    | none => (t.serve k, .held)
    | some result => (t.finish k, .finished result)
  else (t, .waiting)

/-! ## Steps -/

/-- A request looks again. -/
def poll (t : Turns ρ β) (name : ρ) : Turns ρ β × TurnReply β :=
  match t.ticket? name with
  | none => (t, .absent)
  | some k => t.look k

/-- A new request for a key, which looks once. -/
def start (t : Turns ρ β) (name : ρ) (key : String) (job : Option β) :
    Turns ρ β × TurnReply β :=
  match t.ticket? name with
  | some _ => (t, .taken)
  | none => (t.enlist name key job).poll name

/-- A request is given up: it releases the key, or stops waiting for it. -/
def drop (t : Turns ρ β) (name : ρ) : Turns ρ β × TurnReply β :=
  match t.ticket? name with
  | none => (t, .absent)
  | some k => (t.finish k, if k.served then .released else .cancelled)

/-- A step of one request. -/
inductive Step (ρ β : Type) where
  /-- Ask for a key and hold it. -/
  | acquire (name : ρ) (key : String)
  /-- Ask for a key to run a job with the given result. -/
  | run (name : ρ) (key : String) (result : β)
  | poll (name : ρ)
  | drop (name : ρ)
deriving DecidableEq

/-- Makes a step. -/
def step (t : Turns ρ β) : Step ρ β → Turns ρ β × TurnReply β
  | .acquire name key => t.start name key none
  | .run name key result => t.start name key (some result)
  | .poll name => t.poll name
  | .drop name => t.drop name

/-- Makes steps one after the other; gives each reply with the number of active keys after it. -/
def steps (t : Turns ρ β) : List (Step ρ β) → Turns ρ β × List (TurnReply β × Nat)
  | [] => (t, [])
  | s :: rest =>
    let (t, reply) := t.step s
    let (last, replies) := steps t rest
    (last, (reply, t.activeKeys) :: replies)

/-! ## A turn alone -/

/-- On idle turns a request holds its key at once. -/
theorem start_idle (name : ρ) (key : String) :
    ((idle : Turns ρ β).start name key none).2 = .held := by
  simp [start, ticket?, idle, enlist, poll, look, lock, slot, assign, Lock.request, Lock.free]

/-- A turn that is taken and given up on idle turns leaves nothing behind. -/
theorem drop_start_idle (name : ρ) (key : String) :
    (((idle : Turns ρ β).start name key none).1.drop name).1 = idle := by
  simp [start, ticket?, idle, enlist, poll, look, lock, slot, assign, Lock.request, Lock.free,
    serve, drop, finish, Lock.leave, Lock.handOn, discharge, without, collect]

end Turns

end ChatMemory
