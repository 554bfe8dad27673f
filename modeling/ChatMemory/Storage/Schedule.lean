import ChatMemory.Storage.Action

/-!
# Actions at the same time

Some operations start several actions at once and wait for all of them. While one of these waits for
the answer to a call, the others go on. So between two calls of one action there may be calls of any
other, and which of them is next is not for the operation to say: it is a parameter, the `Schedule`.

The first error ends them all. What was stored by then stays stored.

## Main statements

* `forAll_append`, `forAll_map` — actions one after the other, which is how those that no schedule tells
  of are done.
-/

namespace ChatMemory

/--
The order in which actions at the same time make their calls, for each thread that they are about: the
positions of the actions, call by call. The calls that it leaves open are made in order, one action
after the other.
-/
abbrev Schedule := String → List Nat

/-- One action after the other. -/
def Schedule.inOrder : Schedule := fun _ => []

namespace Action

variable {β : Type}

/-- Goes on up to the next call, without making it, and then hands over what is left. -/
def settle (p : Action Unit) (k : Action Unit → Action β) : Action β :=
  match p with
  | .done _ => k (.done ())
  | .fail error => .fail error
  | .call r next => k (.call r next)
  | .enter key next => .enter key (next.settle k)
  | .leave key next => .leave key (next.settle k)

/--
Makes one call, goes on up to the next one, and then hands over what is left. A turn that comes before
the call is taken with it, and one that ends after it is given up before another action goes on.
-/
def step (p : Action Unit) (k : Action Unit → Action β) : Action β :=
  match p with
  | .done _ => k (.done ())
  | .fail error => .fail error
  | .call r next => .call r fun answer => (next answer).settle k
  | .enter key next => .enter key (next.step k)
  | .leave key next => .leave key (next.step k)

/--
Runs actions at the same time. The numbers tell which of them makes the next call; what then is left
is done in order.
-/
def together : List Nat → List (Action Unit) → Action Unit
  | [], actions => forAll id actions
  | i :: order, actions =>
    match actions[i]? with
    | none => together order actions
    | some p => p.step fun rest => together order (actions.set i rest)

section InOrder

variable {α : Type} (f : α → Action Unit)

theorem forAll_append : ∀ l l' : List α, forAll f (l ++ l') = do forAll f l; forAll f l'
  | [], _ => rfl
  | a :: l, l' => by
    show (f a >>= fun _ => forAll f (l ++ l')) = (f a >>= fun _ => forAll f l) >>= fun _ => forAll f l'
    rw [forAll_append l l', bind_assoc]

theorem forAll_map {γ : Type} (g : γ → α) : ∀ l : List γ, forAll f (l.map g) = forAll (f ∘ g) l
  | [] => rfl
  | a :: l => congrArg (fun rest => f (g a) >>= fun _ => rest) (forAll_map g l)

end InOrder

end Action

end ChatMemory
