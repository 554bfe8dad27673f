import ChatMemory.Error
import ChatMemory.Storage.Table
import ChatMemory.Turns

/-!
# Actions

What an operation of the store does, step by step: calls to the key-value adapter, and turns taken
on keys. An action is a tree. At a call it goes on with the adapter's answer or with its failure, so
the tree holds all that the operation can do, and the ways to run it are defined apart from it:

* `Action.run` runs an action alone, with any choice of calls that fail.
* `World` is what a run works on: the tables, the turns and the number of calls made so far.

The adapter has no transactions. What it stored before a call failed stays stored.

## Main statements

* `run_bind` — a sequence runs its parts one after the other.
* `run_call_failure`, `run_call_success` — the two ways a call can go.
-/

namespace ChatMemory

/-! ## Calls -/

/-- A call to the adapter. -/
inductive Request where
  | get (table : Table) (key : String)
  | put (table : Table) (key : String) (value : Json)
  | delete (table : Table) (key : String)
  | list (table : Table) (start : String)

namespace Request

/-- What the adapter answers to a call. -/
def Answer : Request → Type
  | .get _ _ => Option Json
  | .put _ _ _ => Unit
  | .delete _ _ => Unit
  | .list _ _ => List String

/-- The name of a call. -/
def op : Request → String
  | .get _ _ => "get"
  | .put _ _ _ => "put"
  | .delete _ _ => "delete"
  | .list _ _ => "list"

def table : Request → Table
  | .get table _ => table
  | .put table _ _ => table
  | .delete table _ => table
  | .list table _ => table

/-- The key of a call; of a listing, the beginning of the keys. -/
def key : Request → String
  | .get _ key => key
  | .put _ key _ => key
  | .delete _ key => key
  | .list _ start => start

/-- What the adapter answers when the call goes well. -/
def answer (t : Tables) : (r : Request) → r.Answer
  | .get table key => t.get? table key
  | .put _ _ _ => ()
  | .delete _ _ => ()
  | .list table start => t.keysFrom table start

/-- What a call leaves in the tables when it goes well. -/
def effect (t : Tables) : Request → Tables
  | .get _ _ => t
  | .put table key value => t.put table key value
  | .delete table key => t.delete table key
  | .list _ _ => t

end Request

/-! ## The tree -/

/-- The steps of an operation that ends with a value or an error. -/
inductive Action (α : Type) where
  | done (value : α)
  | fail (error : MemoryError)
  /-- A call to the adapter; what follows depends on the answer. -/
  | call (r : Request) (next : Except KvError r.Answer → Action α)
  /-- Waits for the turn on a key. -/
  | enter (key : String) (next : Action α)
  /-- Gives up the turn on a key. -/
  | leave (key : String) (next : Action α)

namespace Action

variable {α β γ : Type}

/-- Goes on with the value of an action. -/
def bind (p : Action α) (f : α → Action β) : Action β :=
  match p with
  | .done value => f value
  | .fail error => .fail error
  | .call r next => .call r fun answer => (next answer).bind f
  | .enter key next => .enter key (next.bind f)
  | .leave key next => .leave key (next.bind f)

instance : Monad Action where
  pure := .done
  bind := bind

theorem bind_done (p : Action α) : p.bind .done = p := by
  induction p with
  | done _ => rfl
  | fail _ => rfl
  | call r next ih => simp only [bind, ih]
  | enter key next ih => simp only [bind, ih]
  | leave key next ih => simp only [bind, ih]

theorem bind_bind (p : Action α) (f : α → Action β) (g : β → Action γ) :
    (p.bind f).bind g = p.bind fun a => (f a).bind g := by
  induction p with
  | done _ => rfl
  | fail _ => rfl
  | call r next ih => simp only [bind, ih]
  | enter key next ih => simp only [bind, ih]
  | leave key next ih => simp only [bind, ih]

instance : LawfulMonad Action := LawfulMonad.mk' Action bind_done (fun _ _ => rfl) bind_bind

/-- Goes on after an error. -/
def recover (p : Action α) (handler : MemoryError → Action α) : Action α :=
  match p with
  | .done value => .done value
  | .fail error => handler error
  | .call r next => .call r fun answer => (next answer).recover handler
  | .enter key next => .enter key (next.recover handler)
  | .leave key next => .leave key (next.recover handler)

/-- Gives up the turn on a key at the end, whichever way the action ends. -/
def thenLeave (key : String) : Action α → Action α
  | .done value => .leave key (.done value)
  | .fail error => .leave key (.fail error)
  | .call r next => .call r fun answer => (next answer).thenLeave key
  | .enter other next => .enter other (next.thenLeave key)
  | .leave other next => .leave other (next.thenLeave key)

/-- Runs an action during a turn on a key. -/
def exclusively (key : String) (p : Action α) : Action α := .enter key (p.thenLeave key)

/-- An action from a value or an error at hand. -/
def ofExcept : Except MemoryError α → Action α
  | .ok value => .done value
  | .error error => .fail error

/-- A call whose failure ends the action, with a code and what the call was about. -/
def ask (r : Request) (code : String) (context : ErrorContext) : Action r.Answer :=
  .call r fun
    | .ok answer => .done answer
    | .error source => .fail (.backend code context source)

/-- One action for each item, in order; the first error ends them all. -/
def each (f : α → Action β) : List α → Action (List β)
  | [] => .done []
  | a :: as => do
    let b ← f a
    let bs ← each f as
    return b :: bs

/-- Like `each`, without results. -/
def forAll (f : α → Action Unit) : List α → Action Unit
  | [] => .done ()
  | a :: as => do
    f a
    forAll f as

/--
A reading that hands back an empty answer instead of an error. Only a problem with the arguments is
still reported.
-/
def orEmpty (p : Action α) (empty : α) : Action α :=
  p.recover fun error => if error.isValidation then .fail error else .done empty

end Action

/-! ## Running alone -/

/-- What an action works on. -/
structure World where
  tables : Tables
  turns : Turns Nat Unit
  /-- The number of adapter calls made, failed ones included. -/
  calls : Nat

namespace World

/-- A world with nothing stored. -/
def initial : World := ⟨.empty, .idle, 0⟩

/-- The name under which the only client takes its turns. -/
def client : Nat := 0

/-- The client takes its turn on a key; alone, it never waits. -/
def enter (w : World) (key : String) : World :=
  { w with turns := (w.turns.start client key none).1 }

/-- The client gives up its turn. -/
def leave (w : World) : World := { w with turns := (w.turns.drop client).1 }

end World

/--
Which adapter calls fail, and how: depending on the number of calls made before and on the call. A
call that fails changes nothing.
-/
abbrev Faults := Nat → Request → Option KvError

/-- No call fails. -/
def Faults.none : Faults := fun _ _ => Option.none

namespace Action

variable {α β : Type}

/-- Runs an action from a world, while no other action runs. -/
def run (faults : Faults) : Action α → World → Except MemoryError α × World
  | .done value, w => (.ok value, w)
  | .fail error, w => (.error error, w)
  | .call r next, w =>
    match faults w.calls r with
    | some failure => (next (.error failure)).run faults { w with calls := w.calls + 1 }
    | none => (next (.ok (r.answer w.tables))).run faults
        { w with tables := r.effect w.tables, calls := w.calls + 1 }
  | .enter key next, w => next.run faults (w.enter key)
  | .leave _ next, w => next.run faults w.leave

variable {faults : Faults}

@[simp]
theorem run_done (value : α) (w : World) :
    (Action.done value).run faults w = (.ok value, w) := rfl

@[simp]
theorem run_fail (error : MemoryError) (w : World) :
    (Action.fail error : Action α).run faults w = (.error error, w) := rfl

theorem run_call_failure {r : Request} {next : Except KvError r.Answer → Action α} {w : World}
    {failure : KvError} (h : faults w.calls r = some failure) :
    (Action.call r next).run faults w
      = (next (.error failure)).run faults { w with calls := w.calls + 1 } := by
  rw [run, h]

theorem run_call_success {r : Request} {next : Except KvError r.Answer → Action α} {w : World}
    (h : faults w.calls r = none) :
    (Action.call r next).run faults w
      = (next (.ok (r.answer w.tables))).run faults
          { w with tables := r.effect w.tables, calls := w.calls + 1 } := by
  rw [run, h]

theorem run_bind (p : Action α) (f : α → Action β) (w : World) :
    (p.bind f).run faults w =
      match p.run faults w with
      | (.ok value, w') => (f value).run faults w'
      | (.error error, w') => (.error error, w') := by
  induction p generalizing w with
  | done value => rfl
  | fail error => rfl
  | call r next ih =>
    cases h : faults w.calls r with
    | none => rw [bind, run_call_success h, run_call_success h, ih]
    | some failure => rw [bind, run_call_failure h, run_call_failure h, ih]
  | enter key next ih => exact ih _
  | leave key next ih => exact ih _

end Action

end ChatMemory
