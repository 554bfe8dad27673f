import ChatMemory.Proofs.Outcomes

/-!
# Failed calls

The failure of a call has a code, and a context that says what the call was about
(`Keyspace.Reported`). An action *reports* failures if a call that fails is its last one and its error
is the failure of that call. All operations of the store do, except for the readings that hand back an
empty answer instead. Those *fall back*: what they answer is their answer without failures, or empty.

`Action.Reports` also says which other errors an action can end with. These do not depend on the
choice of failures.

## Main statements

* `reports_bind`, `reports_recover`, … — one rule for each way to make an action.
* `Reports.run_or_broken` — an action that reports failures either has had none or is broken off.
* `Reports.fallsBack` — a reading that reports failures falls back on an empty answer.
-/

namespace ChatMemory

/-! ## Codes -/

/-- How the failure of a call is reported: the code, and what the call was about. -/
inductive Keyspace.Reported (k : Keyspace) : Request → String → ErrorContext → Prop where
  | listThreads : k.Reported (.list .threads k.threadsStart) "STORAGE_KV_LIST_THREADS_FAILED" []
  | getThread {id : String} :
    k.Reported (.get .threads (k.thread id)) "STORAGE_KV_GET_THREAD_FAILED" (.thread id)
  /-- The context has the id that the record names. -/
  | putThread {id : String} {t : Thread} :
    k.Reported (.put .threads (k.thread id) t.toJson) "STORAGE_KV_PUT_THREAD_FAILED" (.thread t.id)
  | deleteThread {id : String} :
    k.Reported (.delete .threads (k.thread id)) "STORAGE_KV_DELETE_THREAD_FAILED" (.thread id)
  | listMessages {thread : String} : k.Reported (.list .messages (k.messagesStart thread))
    "STORAGE_KV_LIST_MESSAGES_FAILED" (.thread thread)
  | getMessage {thread id : String} : k.Reported (.get .messages (k.message thread id))
    "STORAGE_KV_GET_MESSAGE_FAILED" (.messageIn thread id)
  | putMessage {thread id : String} {v : Json} :
    k.Reported (.put .messages (k.message thread id) v) "STORAGE_KV_PUT_MESSAGE_FAILED"
      (.messageIn thread id)
  /-- A record is deleted with its thread. -/
  | purgeMessage {thread id : String} : k.Reported (.delete .messages (k.message thread id))
    "STORAGE_KV_DELETE_THREAD_FAILED" (.messageIn thread id)
  /-- The old record of a message is deleted in a move. -/
  | moveMessage {origin destination id : String} :
    k.Reported (.delete .messages (k.message origin id)) "STORAGE_KV_MIGRATE_MESSAGE_FAILED"
      (((ErrorContext.message id).and "fromThreadId" origin).and "toThreadId" destination)
  /-- A copy is deleted that another thread has. -/
  | reconcileMessage {thread id : String} : k.Reported (.delete .messages (k.message thread id))
    "STORAGE_KV_RECONCILE_FAILED" (.messageIn thread id)
  /-- A record is made to name its thread. -/
  | rewriteMessage {thread id : String} {v : Json} :
    k.Reported (.put .messages (k.message thread id) v) "STORAGE_KV_RECONCILE_FAILED"
      (.messageIn thread id)
  | getOrder {thread : String} : k.Reported (.get .messages (k.order thread))
    "STORAGE_KV_GET_ORDER_INDEX_FAILED" (.thread thread)
  | putOrder {thread : String} {v : Json} : k.Reported (.put .messages (k.order thread) v)
    "STORAGE_KV_PUT_ORDER_INDEX_FAILED" (.thread thread)
  | deleteOrder {thread : String} : k.Reported (.delete .messages (k.order thread))
    "STORAGE_KV_DELETE_ORDER_INDEX_FAILED" (.thread thread)
  | getPointer {id : String} : k.Reported (.get .messageThreads (k.pointer id))
    "STORAGE_KV_GET_MESSAGE_POINTER_FAILED" (.message id)
  | putPointer {id thread : String} :
    k.Reported (.put .messageThreads (k.pointer id) (.str thread))
      "STORAGE_KV_PUT_MESSAGE_POINTER_FAILED" (Store.pointerContext id thread)
  | deletePointer {id thread : String} : k.Reported (.delete .messageThreads (k.pointer id))
    "STORAGE_KV_DELETE_MESSAGE_POINTER_FAILED" (Store.pointerContext id thread)
  | getResource {id : String} :
    k.Reported (.get .resources (k.resource id)) "STORAGE_KV_GET_RESOURCE_FAILED" (.resource id)
  /-- The context has the id that the record names. -/
  | putResource {id : String} {r : Resource} : k.Reported (.put .resources (k.resource id) r.toJson)
    "STORAGE_KV_PUT_RESOURCE_FAILED" (.resource r.id)

namespace Action

variable {α β : Type} {k : Keyspace} {kind kind' : MemoryError → Prop} {faults : Faults}

/-! ## The calls of a run -/

/-- The calls of a run in order, each with its failure if it failed. -/
def log (faults : Faults) : Action α → World → List (Request × Option KvError)
  | .done _, _ => []
  | .fail _, _ => []
  | .call r next, w =>
    match faults w.calls r with
    | some failure =>
      (r, some failure) :: (next (.error failure)).log faults { w with calls := w.calls + 1 }
    | none => (r, none) :: (next (.ok (r.answer w.tables))).log faults
        { w with tables := r.effect w.tables, calls := w.calls + 1 }
  | .enter key next, w => next.log faults (w.enter key)
  | .leave _ next, w => next.log faults w.leave

theorem log_call_failure {r : Request} {next : Except KvError r.Answer → Action α} {w : World}
    {failure : KvError} (h : faults w.calls r = some failure) :
    (Action.call r next).log faults w
      = (r, some failure) :: (next (.error failure)).log faults { w with calls := w.calls + 1 } := by
  rw [log, h]

theorem log_call_success {r : Request} {next : Except KvError r.Answer → Action α} {w : World}
    (h : faults w.calls r = none) :
    (Action.call r next).log faults w
      = (r, none) :: (next (.ok (r.answer w.tables))).log faults
          { w with tables := r.effect w.tables, calls := w.calls + 1 } := by
  rw [log, h]

/-! ## Reporting -/

/-- The action ends with this error, without a call. -/
def FailsWith (error : MemoryError) : Action α → Prop
  | .done _ => False
  | .fail e => e = error
  | .call _ _ => False
  | .enter _ next => next.FailsWith error
  | .leave _ next => next.FailsWith error

/-- A call that fails ends the action with the failure of this call, and any other error is of some
kind. -/
def Reports (k : Keyspace) (kind : MemoryError → Prop) : Action α → Prop
  | .done _ => True
  | .fail error => kind error
  | .call r next =>
    (∃ code context, k.Reported r code context ∧
      ∀ failure, (next (.error failure)).FailsWith (.backend code context failure)) ∧
    ∀ answer, (next (.ok answer)).Reports k kind
  | .enter _ next => next.Reports k kind
  | .leave _ next => next.Reports k kind

/-! ### Rules -/

theorem failsWith_bind {error : MemoryError} {f : α → Action β} :
    ∀ {p : Action α}, p.FailsWith error → (p >>= f).FailsWith error
  | .fail _, h => h
  | .enter _ next, h => failsWith_bind (p := next) h
  | .leave _ next, h => failsWith_bind (p := next) h

theorem failsWith_thenLeave {error : MemoryError} (key : String) :
    ∀ {p : Action α}, p.FailsWith error → (p.thenLeave key).FailsWith error
  | .fail _, h => h
  | .enter _ next, h => failsWith_thenLeave key (p := next) h
  | .leave _ next, h => failsWith_thenLeave key (p := next) h

theorem failsWith_recover {error : MemoryError} {handler : MemoryError → Action α}
    (again : handler error = .fail error) :
    ∀ {p : Action α}, p.FailsWith error → (p.recover handler).FailsWith error
  | .fail _, h => by
    obtain rfl := h
    rw [recover, again]
    rfl
  | .enter _ next, h => failsWith_recover (p := next) again h
  | .leave _ next, h => failsWith_recover (p := next) again h

theorem reports_bind {f : α → Action β} : ∀ {p : Action α}, p.Reports k kind →
    (∀ a, (f a).Reports k kind) → (p >>= f).Reports k kind
  | .done a, _, hf => hf a
  | .fail _, h, _ => h
  | .call _ _, h, hf => by
    obtain ⟨⟨code, context, reported, fails⟩, goesOn⟩ := h
    exact ⟨⟨code, context, reported, fun failure => failsWith_bind (fails failure)⟩,
      fun answer => reports_bind (goesOn answer) hf⟩
  | .enter _ next, h, hf => reports_bind (p := next) h hf
  | .leave _ next, h, hf => reports_bind (p := next) h hf

/-- The rule for a handler that passes the failures of calls on. -/
theorem reports_recover {handler : MemoryError → Action α}
    (again : ∀ code context source,
      handler (.backend code context source) = .fail (.backend code context source))
    (hh : ∀ e, kind e → (handler e).Reports k kind') :
    ∀ {p : Action α}, p.Reports k kind → (p.recover handler).Reports k kind'
  | .done _, _ => trivial
  | .fail e, h => hh e h
  | .call _ _, h => by
    obtain ⟨⟨code, context, reported, fails⟩, goesOn⟩ := h
    exact ⟨⟨code, context, reported, fun failure => failsWith_recover (again ..) (fails failure)⟩,
      fun answer => reports_recover again hh (goesOn answer)⟩
  | .enter _ next, h => reports_recover (p := next) again hh h
  | .leave _ next, h => reports_recover (p := next) again hh h

theorem reports_thenLeave (key : String) : ∀ {p : Action α}, p.Reports k kind →
    (p.thenLeave key).Reports k kind
  | .done _, _ => trivial
  | .fail _, h => h
  | .call _ _, h => by
    obtain ⟨⟨code, context, reported, fails⟩, goesOn⟩ := h
    exact ⟨⟨code, context, reported, fun failure => failsWith_thenLeave key (fails failure)⟩,
      fun answer => reports_thenLeave key (goesOn answer)⟩
  | .enter _ next, h => reports_thenLeave (p := next) key h
  | .leave _ next, h => reports_thenLeave (p := next) key h

theorem reports_exclusively {key : String} {p : Action α} (h : p.Reports k kind) :
    (exclusively key p).Reports k kind := reports_thenLeave key h

theorem reports_ask {r : Request} {code : String} {context : ErrorContext}
    (h : k.Reported r code context) : (ask r code context).Reports k kind :=
  ⟨⟨code, context, h, fun _ => rfl⟩, fun _ => trivial⟩

theorem reports_map {f : α → β} {p : Action α} (h : p.Reports k kind) :
    (f <$> p).Reports k kind := by
  rw [← bind_pure_comp]
  exact reports_bind h fun _ => trivial

theorem reports_ite {p : Prop} [Decidable p] {x y : Action α} (hx : x.Reports k kind)
    (hy : y.Reports k kind) : (if p then x else y).Reports k kind := by
  split
  · exact hx
  · exact hy

theorem reports_each {f : α → Action β} (h : ∀ a, (f a).Reports k kind) :
    ∀ l : List α, (each f l).Reports k kind
  | [] => trivial
  | a :: rest => reports_bind (h a) fun _ => reports_bind (reports_each h rest) fun _ => trivial

theorem reports_forAll {f : α → Action Unit} (h : ∀ a, (f a).Reports k kind) :
    ∀ l : List α, (forAll f l).Reports k kind
  | [] => trivial
  | a :: rest => reports_bind (h a) fun _ => reports_forAll h rest

section Together

variable {f : Action Unit → Action Unit}

theorem failsWith_settle {error : MemoryError} : ∀ {p : Action Unit}, p.FailsWith error →
    (p.settle f).FailsWith error
  | .fail _, h => h
  | .enter _ next, h => failsWith_settle (p := next) h
  | .leave _ next, h => failsWith_settle (p := next) h

theorem reports_settle (hf : ∀ rest, rest.Reports k kind → (f rest).Reports k kind) :
    ∀ {p : Action Unit}, p.Reports k kind → (p.settle f).Reports k kind
  | .done _, _ => hf _ trivial
  | .fail _, h => h
  | .call _ _, h => hf _ h
  | .enter _ next, h => reports_settle (p := next) hf h
  | .leave _ next, h => reports_settle (p := next) hf h

theorem reports_step (hf : ∀ rest, rest.Reports k kind → (f rest).Reports k kind) :
    ∀ {p : Action Unit}, p.Reports k kind → (p.step f).Reports k kind
  | .done _, _ => hf _ trivial
  | .fail _, h => h
  | .call _ _, h => by
    obtain ⟨⟨code, context, reported, fails⟩, goesOn⟩ := h
    exact ⟨⟨code, context, reported, fun failure => failsWith_settle (fails failure)⟩,
      fun answer => reports_settle hf (goesOn answer)⟩
  | .enter _ next, h => reports_step (p := next) hf h
  | .leave _ next, h => reports_step (p := next) hf h

/-- The first error ends all actions at the same time. -/
theorem reports_together : ∀ (order : List Nat) {actions : List (Action Unit)},
    (∀ p ∈ actions, p.Reports k kind) → (together order actions).Reports k kind
  | [], [], _ => trivial
  | [], p :: actions, h => reports_bind (h p List.mem_cons_self) fun _ =>
    reports_together [] fun p' hp' => h p' (List.mem_cons_of_mem _ hp')
  | i :: order, actions, h => by
    rw [together]
    cases hi : actions[i]? with
    | none => exact reports_together order h
    | some p =>
      refine reports_step (fun rest reports => reports_together order fun p' hp' => ?_)
        (h p (List.mem_of_getElem? hi))
      rcases List.mem_or_eq_of_mem_set hp' with hp' | rfl
      · exact h p' hp'
      · exact reports

end Together

/-! ### Runs -/

theorem FailsWith.run {error : MemoryError} : ∀ {p : Action α}, p.FailsWith error → ∀ w : World,
    (p.run faults w).1 = .error error ∧ (p.run faults w).2.tables = w.tables ∧
      p.log faults w = []
  | .fail _, h, w => by
    obtain rfl := h
    exact ⟨rfl, rfl, rfl⟩
  | .enter key next, h, w => FailsWith.run (p := next) h (w.enter key)
  | .leave _ next, h, w => FailsWith.run (p := next) h w.leave

/-- The last call of a run fails, no other does, and the run ends with the failure of that call. -/
def Broken (k : Keyspace) (faults : Faults) (p : Action α) (w : World) : Prop :=
  ∃ earlier r failure code context, p.log faults w = earlier ++ [(r, some failure)] ∧
    (∀ c ∈ earlier, c.2 = none) ∧ k.Reported r code context ∧
    (p.run faults w).1 = .error (.backend code context failure)

/-- An action that reports failures runs as it does without any, or is broken off by the first. -/
theorem Reports.run_or_broken (faults : Faults) : ∀ {p : Action α}, p.Reports k kind → ∀ w : World,
    (∀ c ∈ p.log faults w, c.2 = none) ∧ p.run faults w = p.run Faults.none w ∨
      p.Broken k faults w
  | .done _, _, _ => Or.inl ⟨fun _ h => absurd h List.not_mem_nil, rfl⟩
  | .fail _, _, _ => Or.inl ⟨fun _ h => absurd h List.not_mem_nil, rfl⟩
  | .call r next, h, w => by
    obtain ⟨⟨code, context, reported, fails⟩, goesOn⟩ := h
    cases hf : faults w.calls r with
    | some failure =>
      obtain ⟨result, _, last⟩ := (fails failure).run { w with calls := w.calls + 1 }
      refine Or.inr ⟨[], r, failure, code, context, ?_, fun _ h => absurd h List.not_mem_nil,
        reported, ?_⟩
      · rw [log_call_failure hf, last, List.nil_append]
      · rw [run_call_failure hf, result]
    | none =>
      rw [Broken, log_call_success hf, run_call_success hf, run_call_success rfl]
      rcases (goesOn (r.answer w.tables)).run_or_broken faults
          { w with tables := r.effect w.tables, calls := w.calls + 1 } with
        ⟨well, same⟩ | ⟨earlier, r', failure, code', context', last, well, broken⟩
      · exact Or.inl ⟨List.forall_mem_cons.mpr ⟨rfl, well⟩, same⟩
      · exact Or.inr ⟨(r, none) :: earlier, r', failure, code', context',
          by rw [last, List.cons_append], List.forall_mem_cons.mpr ⟨rfl, well⟩, broken⟩
  | .enter key next, h, w => Reports.run_or_broken faults (p := next) h (w.enter key)
  | .leave _ next, h, w => Reports.run_or_broken faults (p := next) h w.leave

/-- The errors that an action ends with when no call fails. -/
theorem Reports.error_kind {error : MemoryError} : ∀ {p : Action α}, p.Reports k kind → ∀ {w : World},
    (p.run Faults.none w).1 = .error error → kind error
  | .fail _, h, _, e => Except.error.inj e ▸ h
  | .call r next, h, w, e => by
    rw [run_call_success rfl] at e
    exact (h.2 _).error_kind e
  | .enter key next, h, w, e => Reports.error_kind (p := next) h (w := w.enter key) e
  | .leave _ next, h, w, e => Reports.error_kind (p := next) h (w := w.leave) e

/-- The errors that an action ends with. -/
theorem Reports.error {p : Action α} (h : p.Reports k kind) {w : World} {error : MemoryError}
    (e : (p.run faults w).1 = .error error) :
    kind error ∨ ∃ code context source, error = .backend code context source := by
  rcases h.run_or_broken faults w with ⟨_, same⟩ | ⟨_, _, failure, code, context, _, _, _, result⟩
  · exact Or.inl (h.error_kind (same ▸ e))
  · exact Or.inr ⟨code, context, failure, Except.error.inj (e.symm.trans result)⟩

/-- What only reads leaves the tables as they are, whatever calls fail. -/
theorem Reads.run : ∀ {p : Action α}, p.Reads → ∀ w : World, (p.run faults w).2.tables = w.tables
  | .done _, _, _ => rfl
  | .fail _, _, _ => rfl
  | .call r next, h, w => by
    cases hf : faults w.calls r with
    | none =>
      rw [run_call_success hf, Reads.run (h.2 _)]
      exact h.1 w.tables
    | some failure => rw [run_call_failure hf, Reads.run (h.2 _)]
  | .enter key next, h, w => Reads.run (p := next) h (w.enter key)
  | .leave _ next, h, w => Reads.run (p := next) h w.leave

/-! ## Falling back -/

/-- Whatever calls fail, the action answers as it does without failures or with the empty answer, and
the only errors that it ends with are these violations. -/
def FallsBack (violations : List Violation) (empty : α) (p : Action α) : Prop := ∀ faults w,
  ((p.run faults w).1 = (p.run Faults.none w).1 ∨ (p.run faults w).1 = .ok empty) ∧
    ∀ error, (p.run faults w).1 = .error error → violations ≠ [] ∧ error = .validation violations

variable {empty : α} {violations others : List Violation}

theorem fallsBack_pure {a : α} : (pure a : Action α).FallsBack violations empty :=
  fun _ _ => ⟨Or.inl rfl, fun _ e => absurd e (by simp [pure])⟩

/-- Of two checks that follow each other the first that finds something counts. -/
theorem fallsBack_checks {p : Action α} (h : p.FallsBack others empty) :
    (Store.check violations >>= fun _ => p).FallsBack
      (if violations = [] then others else violations) empty := by
  rw [Store.check, Identifier.report]
  by_cases hv : violations = []
  · rw [hv, if_pos rfl]
    exact h
  · have found : ¬ violations.isEmpty = true := fun he => hv (List.isEmpty_iff.mp he)
    rw [if_neg hv, if_neg found]
    exact fun faults w => ⟨Or.inl rfl, fun error e => ⟨hv, (Except.error.inj e).symm⟩⟩

theorem fallsBack_check {p : Action α} (h : p.FallsBack [] empty) :
    (Store.check violations >>= fun _ => p).FallsBack violations empty := by
  have checks : (Store.check violations >>= fun _ => p).FallsBack
      (if violations = [] then [] else violations) empty := fallsBack_checks h
  rwa [ite_eq_right_iff.mpr Eq.symm] at checks

theorem run_map (f : α → β) (p : Action α) (w : World) :
    ((f <$> p).run faults w).1 = ((p.run faults w).1).map f := by
  rw [← bind_pure_comp]
  show ((p.bind _).run faults w).1 = _
  rw [run_bind]
  generalize p.run faults w = out
  obtain ⟨r, w'⟩ := out
  cases r with
  | ok a => rfl
  | error e => rfl

theorem FallsBack.map {f : α → β} {p : Action α} (h : p.FallsBack violations empty) :
    (f <$> p).FallsBack violations (f empty) := by
  intro faults w
  rw [run_map, run_map]
  obtain ⟨answers, errors⟩ := h faults w
  refine ⟨answers.imp (fun e => by rw [e]) (fun e => by rw [e]; rfl), fun error e => errors error ?_⟩
  cases hr : (p.run faults w).1 with
  | ok a =>
    rw [hr] at e
    exact absurd e (by simp [Except.map])
  | error error' =>
    rw [hr] at e
    exact congrArg Except.error (Except.error.inj e)

/-- An action that finds no fault with its arguments answers in any case if an empty answer stands for
its errors. -/
theorem Reports.run_orEmpty {p : Action α} (h : p.Reports k (·.isValidation = false)) (empty : α)
    (w : World) :
    ((p.orEmpty empty).run faults w).1 = .ok ((p.run faults w).1.toOption.getD empty) := by
  have errors : ∀ error, (p.run faults w).1 = .error error → error.isValidation = false := by
    intro error e
    rcases h.error e with unobjecting | ⟨_, _, _, rfl⟩
    · exact unobjecting
    · rfl
  rw [orEmpty, run_recover]
  generalize p.run faults w = out at errors ⊢
  obtain ⟨r, w'⟩ := out
  cases r with
  | ok a => rfl
  | error error =>
    dsimp only
    rw [if_neg (by simp [errors error rfl])]
    rfl

/-- It falls back on the empty answer. -/
theorem Reports.fallsBack {p : Action α} (h : p.Reports k (·.isValidation = false)) :
    (p.orEmpty empty).FallsBack violations empty := by
  intro faults w
  refine ⟨?_, fun error e => absurd ((h.run_orEmpty empty w).symm.trans e) (by simp)⟩
  rw [h.run_orEmpty, h.run_orEmpty]
  rcases h.run_or_broken faults w with ⟨_, same⟩ | ⟨_, _, _, _, _, _, _, _, result⟩
  · exact Or.inl (by rw [same])
  · exact Or.inr (by rw [result]; rfl)

/-! ## Strictness -/

theorem FailsWith.fails {error : MemoryError} : ∀ {p : Action α}, p.FailsWith error → p.Fails
  | .fail _, _ => trivial
  | .enter _ next, h => FailsWith.fails (p := next) h
  | .leave _ next, h => FailsWith.fails (p := next) h

theorem Reports.strict : ∀ {p : Action α}, p.Reports k kind → p.Strict
  | .done _, _ => trivial
  | .fail _, _ => trivial
  | .call _ _, h => by
    obtain ⟨⟨code, context, _, fails⟩, goesOn⟩ := h
    exact ⟨fun failure => (fails failure).fails, fun answer => (goesOn answer).strict⟩
  | .enter _ next, h => Reports.strict (p := next) h
  | .leave _ next, h => Reports.strict (p := next) h

end Action

end ChatMemory
