import ChatMemory.Proofs.Errors

/-!
# What readings give

Messages are fetched by thread and id. If no call fails this always goes well, because a record that
does not decode is left out.

A listing can still fail, by an order that does not decode or by a call that fails, but it never
finds fault with its arguments once these have been checked. So the empty answer that it has for other
errors is given, and there is an answer in any case.

## Main statements

* `yields_fetchMany` — the messages that are fetched.
* `answer_eq` — a question for messages that passes the checks is answered.
-/

namespace ChatMemory

/-- The message that is stored under a thread and an id, if what is stored there decodes. -/
def Keyspace.message? (k : Keyspace) (t : Tables) (thread id : String) : Option Message :=
  (k.stored t thread id).bind fun r => (Message.ofRecord r).toOption

namespace Store

open Action

/-- A record that does not decode is taken for none. -/
theorem yields_skipCorrupt (s : Store) (t : Tables) (thread id : String) :
    (skipCorrupt (s.fetchMessage thread id)).Yields t (s.keys.message? t thread id) t := by
  rw [Yields, skipCorrupt, outcome_recover, fetchMessage, outcome_bind, outcome_ask]
  dsimp only [Request.answer, Request.effect]
  rw [Keyspace.message?, Keyspace.stored]
  cases t.get? .messages (s.keys.message thread id) with
  | none => rfl
  | some r =>
    dsimp only [Option.bind_some]
    cases Message.ofRecord r <;> rfl

theorem yields_fetchMany (s : Store) (t : Tables) (targets : List (String × String)) :
    (s.fetchMany targets).Yields t
      (targets.filterMap fun target => s.keys.message? t target.1 target.2) t := by
  have each : (Action.each (fun target => skipCorrupt (s.fetchMessage target.1 target.2))
      targets).Yields t (targets.map fun target => s.keys.message? t target.1 target.2) t :=
    Yields.each_rest fun target _ => s.yields_skipCorrupt t target.1 target.2
  refine yields_bind.mpr ⟨_, t, each, yields_pure.mpr ⟨?_, rfl⟩⟩
  rw [List.filterMap_map]
  rfl

end Store

/-! ## Answers -/

/-- A question for messages that passes the checks. -/
def MessageQuery.Valid (q : MessageQuery) : Prop := 0 ≤ q.page ∧ Store.queryViolations q = []

instance (q : MessageQuery) : Decidable q.Valid :=
  inferInstanceAs (Decidable (0 ≤ q.page ∧ Store.queryViolations q = []))

/-- The first page of one thread may be asked for, whatever its size and its direction. -/
theorem MessageQuery.valid_of_thread {thread : String} (valid : Identifier.Valid thread)
    (size : PageSize) (direction : SortDirection) :
    ({ threadIds := [thread], perPage := size, order := direction } : MessageQuery).Valid := by
  refine ⟨Int.le_refl 0, ?_⟩
  simp [Store.queryViolations, Store.itemViolations, Identifier.violations_eq_nil, valid]

namespace Store

variable {s : Store} {w : World} {q : MessageQuery}

/-- The answer to a question, when no call fails. -/
def answer (s : Store) (w : World) (q : MessageQuery) : Except MemoryError MessagePage :=
  ((s.listMessages q).run Faults.none w).1

/-- A question that passes the checks is answered, after an error with the empty page. -/
theorem answer_eq (valid : q.Valid) :
    s.answer w q = .ok (((s.collectPage q).outcome w.tables).1.toOption.getD (.empty q)) := by
  have checked : s.listMessages q = Action.orEmpty (s.collectPage q) (.empty q) := by
    rw [listMessages, Identifier.pageViolations, if_neg (Int.not_lt.mpr valid.1), valid.2]
    rfl
  have reports : (s.collectPage q).Reports s.keys (·.isValidation = false) :=
    s.reports_collectPage (fun _ _ => rfl) q
  rw [answer, checked, reports.run_orEmpty, Action.outcome_eq_run]

end Store

end ChatMemory
