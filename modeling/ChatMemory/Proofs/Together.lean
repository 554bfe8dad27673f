import ChatMemory.Proofs.Outcomes
import ChatMemory.Proofs.Waiting

/-!
# Changing orders together

Clients that change the orders of threads share the tables and the turns on keys. Each makes one
change, by the steps of the action that a client alone would run: it asks for the key of the order,
reads the order, writes it and gives up the key. Between two steps of one client any steps of others
may come. A client that does not hold the key yet can only look again. A call may fail, and a client
may be dropped at any point, which gives up its turn. Someone who makes several changes counts as a
new client for each of them.

A change is *committed* once its client has nothing left to do but to give up its turn with success.

## Main statements

* `Change.yields_action` — what a change does alone.
* `Change.action_eq` — the steps of a change.
-/

namespace ChatMemory

/-! ## Changes -/

namespace OrderIndex

/-- A change of the order of a thread. -/
inductive Change where
  | add (thread : String) (entries : List OrderEntry)
  | remove (thread : String) (ids : List String)
  | clear (thread : String)

namespace Change

def thread : Change → String
  | add thread _ => thread
  | remove thread _ => thread
  | clear thread => thread

/-- The key of the order that is changed. -/
def key (k : Keyspace) (change : Change) : String := k.order change.thread

/-- The steps of a change. -/
def action (k : Keyspace) : Change → Action Unit
  | add thread entries => OrderIndex.add k thread entries
  | remove thread ids => OrderIndex.remove k thread ids
  | clear thread => OrderIndex.clear k thread

/-- There is nothing to add or to remove, so not even a turn is taken. -/
def Void : Change → Prop
  | add _ entries => entries = []
  | remove _ ids => ids = []
  | clear _ => False

/-- What is stored after a change. -/
def applied : Change → Option Json → Option Json
  | add _ entries, stored => StoredOrder.added stored entries
  | remove _ ids, stored => StoredOrder.removed stored ids
  | clear _, _ => none

/-- Alone, a change that goes well changes what is stored just so, and nothing else. -/
theorem yields_action {k : Keyspace} {change : Change} {t t' : Tables} {u : Unit}
    (h : (change.action k).Yields t u t') :
    t.ChangedAt t' .messages (change.key k) (change.applied (t.get? .messages (change.key k))) := by
  cases change with
  | add thread entries => exact yields_add h
  | remove thread ids => exact yields_remove h
  | clear thread =>
    obtain ⟨_, rfl⟩ := Action.yields_ask.mp (Action.yields_exclusively.mp h)
    exact t.changedAt_delete _ _

end Change

end OrderIndex

/-! ## Clients -/

/-- A client that makes a change. -/
structure Client where
  change : OrderIndex.Change
  /-- What is left to do. -/
  rest : Action Unit
  /-- Nothing more is done. -/
  dropped : Bool := false

/-- Nothing is left to do but to give up turns, with success. -/
def Action.passed : Action Unit → Bool
  | .done _ => true
  | .leave _ next => next.passed
  | _ => false

/-- The tables, the turns and the clients by name. -/
structure Crowd where
  tables : Tables
  /-- The steps made so far in taking turns. -/
  trace : List (Turns.Step Nat Unit)
  clients : Nat → Option Client

namespace Crowd

/-- Nobody has come yet. -/
def opening (t : Tables) : Crowd := ⟨t, [], fun _ => none⟩

/-- The turns after the steps made so far. -/
def turns (c : Crowd) : Turns Nat Unit := (Turns.idle.steps c.trace).1

/-- What has happened to the requests for a key. -/
def history (c : Crowd) (key : String) : Turns.History Nat :=
  Turns.history key ⟨[], [], []⟩ Turns.idle c.trace

/-- A step in taking turns. -/
def turn (c : Crowd) (s : Turns.Step Nat Unit) : Crowd := { c with trace := c.trace ++ [s] }

/-- Takes note of what became of a client. -/
def put (c : Crowd) (name : Nat) (x : Client) : Crowd :=
  { c with clients := fun other => if other = name then some x else c.clients other }

/-- A client makes its next step, if it can. If that is a call, it may fail. -/
def advance (c : Crowd) (name : Nat) (x : Client) (failure : Option KvError) : Crowd :=
  match x.rest with
  | .done _ => c
  | .fail _ => c
  | .call r next =>
    match failure with
    | some error => c.put name { x with rest := next (.error error) }
    | none =>
      { c with tables := r.effect c.tables }.put name
        { x with rest := next (.ok (r.answer c.tables)) }
  | .enter key next =>
    let s := c.turns.asking name key
    if (c.turns.step s).2 = .held then (c.turn s).put name { x with rest := next } else c.turn s
  | .leave _ next => (c.turn (.drop name)).put name { x with rest := next }

/-- What can happen next. -/
inductive Move where
  /-- A new client sets out to make a change. -/
  | start (name : Nat) (change : OrderIndex.Change)
  | go (name : Nat) (failure : Option KvError)
  | drop (name : Nat)

/-- Makes a move. -/
def move (k : Keyspace) (c : Crowd) : Move → Crowd
  | .start name change =>
    match c.clients name with
    | some _ => c
    | none => c.put name { change, rest := change.action k }
  | .go name failure =>
    match c.clients name with
    | some x => if x.dropped then c else c.advance name x failure
    | none => c
  | .drop name =>
    match c.clients name with
    | some x => (c.turn (.drop name)).put name { x with dropped := true }
    | none => c

/-- Makes moves one after the other. -/
def moves (k : Keyspace) (c : Crowd) (ms : List Move) : Crowd := ms.foldl (move k) c

/-- The change of a client, if it is committed. -/
def committed? (c : Crowd) (name : Nat) : Option OrderIndex.Change :=
  ((c.clients name).filter (·.rest.passed)).map (·.change)

/-- The committed changes of those clients to which a key was granted, in the order in which that
happened. -/
def committed (c : Crowd) (key : String) : List OrderIndex.Change :=
  (c.history key).granted.filterMap c.committed?

end Crowd

/-! ## The steps of a change -/

namespace OrderIndex

/-- The end of a turn without success. -/
def Refused (key : String) (p : Action Unit) : Prop := ∃ error, p = .leave key (.fail error)

/-- A call that is the last before the turn is given up. -/
structure Last (key : String) {r : Request} (next : Except KvError r.Answer → Action Unit) :
    Prop where
  good : ∀ answer, next (.ok answer) = .leave key (.done ())
  bad : ∀ error, Refused key (next (.error error))

/-- What a client goes on to do once it knows what is stored. -/
inductive Decided (key : String) (applied : Option Json → Option Json) (stored : Option Json) :
    Action Unit → Prop where
  | write {value : Json} {next : Except KvError Unit → Action Unit}
    (change : applied stored = some value) (last : Last (r := .put .messages key value) key next) :
    Decided key applied stored (.call (.put .messages key value) next)
  | erase {next : Except KvError Unit → Action Unit} (change : applied stored = none)
    (last : Last (r := .delete .messages key) key next) :
    Decided key applied stored (.call (.delete .messages key) next)
  | keep (change : applied stored = stored) : Decided key applied stored (.leave key (.done ()))
  | refuse {p : Action Unit} (refused : Refused key p) : Decided key applied stored p

/-- A client that is committed without a call found nothing to change. -/
theorem Decided.eq_of_passed {key : String} {applied : Option Json → Option Json}
    {stored : Option Json} {p : Action Unit} (h : Decided key applied stored p)
    (passed : p.passed = true) : applied stored = stored := by
  cases h with
  | write _ _ => exact absurd passed (by simp [Action.passed])
  | erase _ _ => exact absurd passed (by simp [Action.passed])
  | keep change => exact change
  | refuse refused =>
    obtain ⟨error, rfl⟩ := refused
    exact absurd passed (by simp [Action.passed])

/-- What a client has left to do while it holds the key. -/
inductive Working (key : String) (applied : Option Json → Option Json) (stored : Option Json) :
    Action Unit → Prop where
  | read {next : Except KvError (Option Json) → Action Unit}
    (good : ∀ v, Decided key applied v (next (.ok v)))
    (bad : ∀ error, Refused key (next (.error error))) :
    Working key applied stored (.call (.get .messages key) next)
  | decided {p : Action Unit} (decided : Decided key applied stored p) :
    Working key applied stored p
  | committed : Working key applied stored (.leave key (.done ()))

/-- The only step of reading an order, and what comes of it. -/
theorem snapshot_eq (k : Keyspace) (thread : String) :
    ∃ next, snapshot k thread = .call (.get .messages (k.order thread)) next ∧
      (∀ error, ∃ e, next (.error error) = .fail e) ∧
      ∀ v, (∃ e, next (.ok v) = .fail e) ∨
        ∃ entries, OrderEntry.ofStored v = .ok entries ∧
          next (.ok v) = .done (.ofEntries entries) := by
  refine ⟨_, rfl, fun error => ⟨_, rfl⟩, fun v => ?_⟩
  cases he : OrderEntry.ofStored v with
  | error cause => exact .inl ⟨_, by simp only [Action.bind, he]; rfl⟩
  | ok entries => exact .inr ⟨entries, rfl, by simp only [Action.bind, he]; rfl⟩

/-- What a change does after the reading. -/
theorem exists_settle (k : Keyspace) (thread : String)
    (change : OrderSnapshot → Option OrderSnapshot) :
    ∃ settle,
      merge k thread change = .exclusively (k.order thread) ((snapshot k thread).bind settle) ∧
      (∀ order, change order = none → settle order = .done ()) ∧
      ∀ order after, change order = some after →
        settle order = Action.ask (.put .messages (k.order thread) after.toJson)
          "STORAGE_KV_PUT_ORDER_INDEX_FAILED" (.thread thread) := by
  refine ⟨_, rfl, fun order same => ?_, fun order after new => ?_⟩
  · simp only [same]
    rfl
  · simp only [new]
    rfl

/-- The steps of a change that reads and writes. -/
theorem merge_eq (k : Keyspace) (thread : String) (change : OrderSnapshot → Option OrderSnapshot) :
    ∃ body, merge k thread change = .enter (k.order thread) body ∧ body.passed = false ∧
      ∀ stored, Working (k.order thread) (StoredOrder.changed change) stored body := by
  obtain ⟨next, reads, bad, good⟩ := snapshot_eq k thread
  obtain ⟨settle, steps, same, new⟩ := exists_settle k thread change
  rw [reads] at steps
  refine ⟨_, steps, rfl, fun stored => .read (fun v => ?_) fun error => ?_⟩
  · show Decided _ _ v (((next (.ok v)).bind settle).thenLeave _)
    rcases good v with ⟨e, out⟩ | ⟨entries, he, out⟩
    · rw [out]
      exact .refuse ⟨_, rfl⟩
    · have changed : StoredOrder.changed change v = _ := StoredOrder.changed_of_ofStored he
      rw [out, Action.bind]
      cases hc : change (.ofEntries entries) with
      | none =>
        rw [hc] at changed
        rw [same _ hc]
        exact .keep changed
      | some order =>
        rw [hc] at changed
        rw [new _ _ hc]
        exact .write changed ⟨fun _ => rfl, fun _ => ⟨_, rfl⟩⟩
  · show Refused _ (((next (.error error)).bind settle).thenLeave _)
    obtain ⟨e, out⟩ := bad error
    rw [out]
    exact ⟨e, rfl⟩

namespace Change

variable {k : Keyspace} {change : Change}

theorem action_of_void (h : change.Void) : change.action k = .done () := by
  cases change with
  | add thread entries => exact if_pos (List.isEmpty_iff.mpr h)
  | remove thread ids => exact if_pos (List.isEmpty_iff.mpr h)
  | clear thread => exact h.elim

/-- The steps of a change: it asks for the key, and what follows is work on the order. -/
theorem action_eq (k : Keyspace) (h : ¬ change.Void) :
    ∃ body, change.action k = .enter (change.key k) body ∧ body.passed = false ∧
      ∀ stored, Working (change.key k) change.applied stored body := by
  cases change with
  | add thread entries =>
    rw [action, OrderIndex.add, if_neg (mt List.isEmpty_iff.mp h)]
    exact merge_eq k thread _
  | remove thread ids =>
    rw [action, OrderIndex.remove, if_neg (mt List.isEmpty_iff.mp h)]
    exact merge_eq k thread _
  | clear thread =>
    exact ⟨_, rfl, rfl, fun _ => .decided (.erase rfl ⟨fun _ => rfl, fun _ => ⟨_, rfl⟩⟩)⟩

end Change

end OrderIndex

end ChatMemory
