import ChatMemory.Proofs.Reconciling

/-!
# Outcomes

What an action gives and leaves when no call fails depends on the tables alone: neither the turns nor
the number of calls made before count. `Action.outcome` says it as a function of the tables, and
`Action.Yields` says of an action that it goes well.

An action without a handler for errors is `Strict`: a call that fails ends it with an error. So when
a strict action goes well no call has failed, whatever calls may fail.

Unlike `Action.Ends`, which speaks of the contents by identifiers, outcomes are about all keys of the
tables. They are for tables that are damaged in any way.

## Main statements

* `outcome_eq_run` — a run without failures has the outcome.
* `yields_bind`, `yields_exclusively`, `yields_ask`, … — one rule for each way to make an action.
* `yields_of_run` — a strict action that goes well yields.
-/

namespace ChatMemory

/-- All tables but that of the pointers. -/
def Tables.main (t : Tables) : Rows × Rows × Rows := (t.threads, t.messages, t.resources)

theorem Tables.get?_eq_of_main {t t' : Tables} (h : t.main = t'.main) {table : Table}
    (hne : table ≠ .messageThreads) (key : String) : t.get? table key = t'.get? table key := by
  obtain ⟨h₁, h₂⟩ := Prod.mk.inj h
  obtain ⟨h₂, h₃⟩ := Prod.mk.inj h₂
  cases table with
  | threads => exact congrArg (·.get? key) h₁
  | messages => exact congrArg (·.get? key) h₂
  | resources => exact congrArg (·.get? key) h₃
  | messageThreads => exact absurd rfl hne

namespace Action

variable {α β : Type} {t t' : Tables}

/-! ## Outcomes -/

/-- What an action gives and leaves if no call fails. -/
def outcome : Action α → Tables → Except MemoryError α × Tables
  | .done value, t => (.ok value, t)
  | .fail error, t => (.error error, t)
  | .call r next, t => (next (.ok (r.answer t))).outcome (r.effect t)
  | .enter _ next, t => next.outcome t
  | .leave _ next, t => next.outcome t

theorem outcome_eq_run : ∀ (p : Action α) (w : World),
    p.outcome w.tables = ((p.run Faults.none w).1, (p.run Faults.none w).2.tables)
  | .done _, _ => rfl
  | .fail _, _ => rfl
  | .call r next, w => by
    rw [run_call_success rfl]
    exact outcome_eq_run (next (.ok (r.answer w.tables))) ⟨r.effect w.tables, w.turns, w.calls + 1⟩
  | .enter key next, w => outcome_eq_run next (w.enter key)
  | .leave _ next, w => outcome_eq_run next w.leave

theorem outcome_bind (f : α → Action β) : ∀ (p : Action α) (t : Tables),
    (p >>= f).outcome t = match p.outcome t with
      | (.ok value, t') => (f value).outcome t'
      | (.error error, t') => (.error error, t')
  | .done _, _ => rfl
  | .fail _, _ => rfl
  | .call r next, t => outcome_bind f (next (.ok (r.answer t))) (r.effect t)
  | .enter _ next, t => outcome_bind f next t
  | .leave _ next, t => outcome_bind f next t

theorem outcome_recover (handler : MemoryError → Action α) : ∀ (p : Action α) (t : Tables),
    (p.recover handler).outcome t = match p.outcome t with
      | (.ok value, t') => (.ok value, t')
      | (.error error, t') => (handler error).outcome t'
  | .done _, _ => rfl
  | .fail _, _ => rfl
  | .call r next, t => outcome_recover handler (next (.ok (r.answer t))) (r.effect t)
  | .enter _ next, t => outcome_recover handler next t
  | .leave _ next, t => outcome_recover handler next t

theorem outcome_thenLeave (key : String) : ∀ (p : Action α) (t : Tables),
    (p.thenLeave key).outcome t = p.outcome t
  | .done _, _ => rfl
  | .fail _, _ => rfl
  | .call r next, t => outcome_thenLeave key (next (.ok (r.answer t))) (r.effect t)
  | .enter _ next, t => outcome_thenLeave key next t
  | .leave _ next, t => outcome_thenLeave key next t

@[simp]
theorem outcome_exclusively (key : String) (p : Action α) (t : Tables) :
    (exclusively key p).outcome t = p.outcome t := outcome_thenLeave key p t

@[simp]
theorem outcome_ask (r : Request) (code : String) (context : ErrorContext) (t : Tables) :
    (ask r code context).outcome t = (.ok (r.answer t), r.effect t) := rfl

/-- What no call of some kind changes about the tables, the action does not change. -/
theorem Only.outcome {γ : Type} {kind : Request → Prop} (look : Tables → γ)
    (h : ∀ r, kind r → ∀ t, look (r.effect t) = look t) :
    ∀ {p : Action α}, p.Only kind → ∀ t, look (p.outcome t).2 = look t
  | .done _, _, _ => rfl
  | .fail _, _, _ => rfl
  | .call r next, hp, t =>
    (Only.outcome look h (p := next (.ok (r.answer t))) (hp.2 _) (r.effect t)).trans (h r hp.1 t)
  | .enter _ next, hp, t => Only.outcome (p := next) look h hp t
  | .leave _ next, hp, t => Only.outcome (p := next) look h hp t

/-- What only reads leaves the tables as they are. -/
theorem Reads.tables {p : Action α} (h : p.Reads) (t : Tables) : (p.outcome t).2 = t :=
  Only.outcome id (fun _ hr => hr) h t

/-- An action is determined by the rows of the tables that it calls for. -/
theorem Only.outcome_congr {calls : Table → Prop} : ∀ {p : Action α},
    p.Only (fun r => calls r.table) → ∀ {t t' : Tables},
      (∀ table, calls table → t.rows table = t'.rows table) →
      (p.outcome t).1 = (p.outcome t').1 ∧
        ∀ table, calls table → (p.outcome t).2.rows table = (p.outcome t').2.rows table
  | .done _, _, _, _, h => ⟨rfl, h⟩
  | .fail _, _, _, _, h => ⟨rfl, h⟩
  | .call r next, hp, t, t', h => by
    have answers : r.answer t = r.answer t' := by
      cases r with
      | get table key => exact congrArg (·.get? key) (h table hp.1)
      | put _ _ _ => rfl
      | delete _ _ => rfl
      | list table start => exact congrArg (·.keysFrom start) (h table hp.1)
    have effects : ∀ table, calls table → (r.effect t).rows table = (r.effect t').rows table := by
      intro table hc
      cases r with
      | get _ _ => exact h table hc
      | list _ _ => exact h table hc
      | put other key value =>
        simp only [Request.effect, Tables.put, Tables.rows_setRows, h table hc, h other hp.1]
      | delete other key =>
        simp only [Request.effect, Tables.delete, Tables.rows_setRows, h table hc, h other hp.1]
    show ((next (.ok (r.answer t))).outcome (r.effect t)).1
        = ((next (.ok (r.answer t'))).outcome (r.effect t')).1 ∧ ∀ table, calls table →
      ((next (.ok (r.answer t))).outcome (r.effect t)).2.rows table
        = ((next (.ok (r.answer t'))).outcome (r.effect t')).2.rows table
    rw [answers]
    exact Only.outcome_congr (p := next (.ok (r.answer t'))) (hp.2 _) effects
  | .enter _ next, hp, _, _, h => Only.outcome_congr (p := next) hp h
  | .leave _ next, hp, _, _, h => Only.outcome_congr (p := next) hp h

/-! ## Actions that go well -/

/-- The action goes well if no call fails: it gives `a` and leaves `t'`. -/
def Yields (p : Action α) (t : Tables) (a : α) (t' : Tables) : Prop := p.outcome t = (.ok a, t')

variable {a b : α}

@[simp]
theorem yields_done : (Action.done a).Yields t b t' ↔ b = a ∧ t' = t := by
  simp [Yields, outcome, eq_comm]

@[simp]
theorem yields_pure : (pure a : Action α).Yields t b t' ↔ b = a ∧ t' = t := yields_done

@[simp]
theorem not_yields_fail {error : MemoryError} : ¬ (Action.fail error : Action α).Yields t a t' := by
  simp [Yields, outcome]

theorem yields_bind {p : Action α} {f : α → Action β} {b : β} {t'' : Tables} :
    (p >>= f).Yields t b t'' ↔ ∃ a t', p.Yields t a t' ∧ (f a).Yields t' b t'' := by
  rw [Yields, outcome_bind]
  constructor
  · intro h
    split at h
    · next a t' e => exact ⟨a, t', e, h⟩
    · exact absurd (congrArg Prod.fst h) (by simp)
  · rintro ⟨a, t', e, h⟩
    rw [show p.outcome t = (.ok a, t') from e]
    exact h

theorem Yields.bind_iff {p : Action α} {f : α → Action β} {b : β} {t'' : Tables}
    (h : p.Yields t a t') : (p >>= f).Yields t b t'' ↔ (f a).Yields t' b t'' := by
  have bound : (p >>= f).outcome t = (f a).outcome t' := by
    rw [outcome_bind, show p.outcome t = (.ok a, t') from h]
  rw [Yields, bound, Yields]

@[simp]
theorem yields_exclusively {key : String} {p : Action α} :
    (exclusively key p).Yields t a t' ↔ p.Yields t a t' := by
  rw [Yields, outcome_exclusively, Yields]

@[simp]
theorem yields_ask {r : Request} {code : String} {context : ErrorContext} {answer : r.Answer} :
    (ask r code context).Yields t answer t' ↔ answer = r.answer t ∧ t' = r.effect t := by
  simp [Yields, eq_comm]

theorem yields_ite {p : Prop} [Decidable p] {x y : Action α} :
    (if p then x else y).Yields t a t' ↔ p ∧ x.Yields t a t' ∨ ¬ p ∧ y.Yields t a t' := by
  by_cases h : p
  · simp [h]
  · simp [h]

/-- What only reads yields nothing but its value. -/
theorem Reads.yields {p : Action α} (h : p.Reads) (hp : p.Yields t a t') : t' = t := by
  rw [← h.tables t, show p.outcome t = (.ok a, t') from hp]

/-- An action that makes no calls that could change anything but pointers. -/
abbrev Notes (p : Action α) : Prop := p.Only fun r => ∀ t, (r.effect t).main = t.main

theorem Reads.notes {p : Action α} (h : p.Reads) : p.Notes :=
  Only.mono (fun _ hr t => by rw [hr]) h

theorem Notes.yields {p : Action α} (h : p.Notes) (hp : p.Yields t a t') : t'.main = t.main := by
  have main := Only.outcome Tables.main (fun _ hr => hr) h t
  rwa [show p.outcome t = (.ok a, t') from hp] at main

theorem Yields.run {p : Action α} {w : World} (h : p.Yields w.tables a t') :
    (p.run Faults.none w).1 = .ok a ∧ (p.run Faults.none w).2.tables = t' := by
  have e : p.outcome w.tables = (.ok a, t') := h
  rw [outcome_eq_run] at e
  exact Prod.mk.inj e

/-! ### From the judgement

What is known of the ending of an action on some contents is known of its outcome on any tables with
these contents.
-/

section Judgement

variable {k : Keyspace} {p : Action α} {Q : α → Contents → Prop} {E : MemoryError → Contents → Prop}

theorem Ends.yields (h : Ends k Faults.none p (k.contents t) Q E) (hy : p.Yields t a t') :
    Q a (k.contents t') := by
  have ending := h ⟨t, .idle, 0⟩ rfl
  obtain ⟨e₁, e₂⟩ := Yields.run (w := ⟨t, .idle, 0⟩) hy
  split at ending
  · next value w' e =>
    rw [e] at e₁ e₂
    obtain rfl := Except.ok.inj e₁
    exact e₂ ▸ ending
  · next e =>
    rw [e] at e₁
    exact absurd e₁ (by simp)

/-- An action that cannot end with an error goes well. -/
theorem Ends.exists_yields (h : Ends k Faults.none p (k.contents t) Q E)
    (never : ∀ e c, ¬ E e c) : ∃ a t', p.Yields t a t' ∧ Q a (k.contents t') := by
  have ending := h ⟨t, .idle, 0⟩ rfl
  split at ending
  · next value w' e =>
    refine ⟨value, w'.tables, ?_, ending⟩
    rw [Yields, outcome_eq_run p ⟨t, .idle, 0⟩, e]
  · exact absurd ending (never _ _)

end Judgement

/-! ### Many actions -/

/-- Actions that leave the tables alone one by one do so together. -/
theorem Yields.each_rest {f : α → Action β} {g : α → β} : ∀ {l : List α},
    (∀ a ∈ l, (f a).Yields t (g a) t) → (Action.each f l).Yields t (l.map g) t
  | [], _ => yields_pure.mpr ⟨rfl, rfl⟩
  | a :: rest, h => yields_bind.mpr ⟨g a, t, h a List.mem_cons_self, yields_bind.mpr
    ⟨rest.map g, t, Yields.each_rest fun a ha => h a (List.mem_cons_of_mem _ ha),
      yields_pure.mpr ⟨rfl, rfl⟩⟩⟩

theorem Yields.forAll_rest {f : α → Action Unit} : ∀ {l : List α},
    (∀ a ∈ l, (f a).Yields t () t) → (Action.forAll f l).Yields t () t
  | [], _ => yields_pure.mpr ⟨rfl, rfl⟩
  | a :: _, h => yields_bind.mpr ⟨(), t, h a List.mem_cons_self,
    Yields.forAll_rest fun a ha => h a (List.mem_cons_of_mem _ ha)⟩

/-- The rule for a list of actions: `I rest` holds when the actions of `rest` are still to come. -/
theorem Yields.forAll {f : α → Action Unit} {I : List α → Tables → Prop}
    (step : ∀ a rest t t', I (a :: rest) t → (f a).Yields t () t' → I rest t') :
    ∀ {l : List α} {t t' : Tables}, I l t → (Action.forAll f l).Yields t () t' → I [] t'
  | [], _, _, h, hy => by
    obtain ⟨_, rfl⟩ := yields_done.mp hy
    exact h
  | a :: rest, t, t', h, hy => by
    obtain ⟨_, t₁, hy₁, hy₂⟩ := yields_bind.mp hy
    exact Yields.forAll step (step a rest t t₁ h hy₁) hy₂

/-! ## Strict actions -/

/-- An action that ends with an error, without a call. -/
def Fails : Action α → Prop
  | .done _ => False
  | .fail _ => True
  | .call _ _ => False
  | .enter _ next => next.Fails
  | .leave _ next => next.Fails

/-- A call that fails ends the action with an error. -/
def Strict : Action α → Prop
  | .done _ => True
  | .fail _ => True
  | .call _ next => (∀ failure, (next (.error failure)).Fails) ∧ ∀ answer, (next (.ok answer)).Strict
  | .enter _ next => next.Strict
  | .leave _ next => next.Strict

theorem Fails.run {faults : Faults} : ∀ {p : Action α}, p.Fails → ∀ w, ∃ error w',
    p.run faults w = (.error error, w') ∧ w'.tables = w.tables
  | .fail error, _, w => ⟨error, w, rfl, rfl⟩
  | .enter key next, h, w => Fails.run (p := next) h (w.enter key)
  | .leave _ next, h, w => Fails.run (p := next) h w.leave

/-- When a strict action goes well no call has failed. -/
theorem yields_of_run {faults : Faults} : ∀ {p : Action α}, p.Strict → ∀ {w w' : World},
    p.run faults w = (.ok a, w') → p.Yields w.tables a w'.tables
  | .done _, _, _, _, h => by
    obtain ⟨h₁, rfl⟩ := Prod.mk.inj h
    exact yields_done.mpr ⟨(Except.ok.inj h₁).symm, rfl⟩
  | .fail _, _, _, _, h => absurd (congrArg Prod.fst h) (by simp)
  | .call r next, hs, w, w', h => by
    cases hf : faults w.calls r with
    | none =>
      rw [run_call_success hf] at h
      exact yields_of_run (hs.2 _) h
    | some failure =>
      rw [run_call_failure hf] at h
      obtain ⟨_, _, e, _⟩ := (hs.1 failure).run { w with calls := w.calls + 1 }
      exact absurd (congrArg Prod.fst (e.symm.trans h)) (by simp)
  | .enter key next, hs, w, _, h => yields_of_run (p := next) hs (w := w.enter key) h
  | .leave _ next, hs, w, _, h => yields_of_run (p := next) hs (w := w.leave) h

end Action

/-! ## Parts of operations -/

theorem Tables.changedAt_self (t : Tables) (table : Table) (key : String) :
    t.ChangedAt t table key (t.get? table key) := by
  intro other k
  split
  · next h => rw [h.1, h.2]
  · rfl

namespace Keyspace

/-- What is stored under the key of a message in a thread; under that of the order, the order. -/
def stored (k : Keyspace) (t : Tables) (thread id : String) : Option Json :=
  t.get? .messages (k.message thread id)

theorem record_contents {k : Keyspace} {t : Tables} {thread id : String} (h : IsMessage id) :
    (k.contents t).record thread id = k.stored t thread id := if_pos h

end Keyspace

open Action

namespace Store

variable {s : Store} {t t' : Tables} {thread id : String}

theorem yields_check {violations : List Violation} {u : Unit} :
    (check violations).Yields t u t' ↔ violations = [] ∧ t' = t := by
  rw [check, Identifier.report]
  split
  · next h =>
    rw [List.isEmpty_iff.mp h]
    exact yields_done.trans (by simp)
  · next h =>
    have h : violations ≠ [] := fun e => h (by rw [e]; rfl)
    exact ⟨fun hy => absurd hy not_yields_fail, fun hy => absurd hy.1 h⟩

theorem yields_messageIds {ids : List String} (h : (s.messageIds thread).Yields t ids t') :
    t' = t ∧ ids.Pairwise (· < ·) ∧
      ∀ id, id ∈ ids ↔ IsMessage id ∧ s.keys.stored t thread id ≠ none := by
  obtain ⟨_, sorted, mem⟩ := (ends_messageIds thread).yields h
  refine ⟨(s.reads_messageIds thread).yields h, sorted, fun id => (mem id).trans ?_⟩
  refine and_congr_right fun hi => ?_
  rw [Contents.Holds, Keyspace.record_contents hi]

theorem exists_messageIds (s : Store) (t : Tables) (thread : String) :
    ∃ ids, (s.messageIds thread).Yields t ids t := by
  obtain ⟨ids, t', h, _⟩ := (ends_messageIds (s := s) (c := s.keys.contents t) thread).exists_yields
    fun _ _ h => Faults.not_active_none h.2
  obtain rfl := (s.reads_messageIds thread).yields h
  exact ⟨ids, h⟩

/-- A search gives the thread that holds a message, whatever its pointer is. -/
theorem yields_findMessage (hi : IsMessage id)
    (housed : ∀ thread, (s.keys.contents t).Holds thread id → (s.keys.contents t).HasThread thread)
    (single : ∀ thread other, (s.keys.contents t).Holds thread id →
      (s.keys.contents t).Holds other id → thread = other) :
    ∃ found, (s.findMessage id).Yields t found t ∧
      ∀ thread, found = some thread ↔ (s.keys.contents t).Holds thread id := by
  obtain ⟨found, t₁, h, _, hnone, hsome⟩ := (ends_findHoused housed hi).exists_yields
    fun _ _ h => Faults.not_active_none h.2
  obtain rfl := (s.reads_findMessage id).yields h
  refine ⟨found, h, fun thread => ⟨fun e => (hsome thread e).holds, fun hh => ?_⟩⟩
  cases found with
  | none => exact absurd hh (hnone rfl thread)
  | some other => rw [single other thread (hsome other rfl).holds hh]

theorem exists_threadExists (absent : t.get? .threads (s.keys.thread thread) = none) :
    (s.threadExists thread).Yields t false t := by
  obtain ⟨found, t', h, _, hnone, hsome⟩ :=
    (ends_threadExists (s := s) (c := s.keys.contents t) thread).exists_yields (t := t) fun _ _ h => by
      rcases h.2 with active | ⟨r, _, hr, _⟩
      · exact Faults.not_active_none active
      · exact absurd (absent.symm.trans hr) (by simp)
  obtain rfl := (s.reads_threadExists thread).yields h
  cases found with
  | false => exact h
  | true =>
    obtain ⟨_, r, hr, _⟩ := hsome rfl
    exact absurd (absent.symm.trans hr) (by simp)

/-- Whether a thread exists is told by the records of threads. -/
theorem threadExists_congr (h : (s.threadExists thread).Yields t true t)
    (same : t'.threads = t.threads) : (s.threadExists thread).Yields t' true t' := by
  let calls (table : Table) : Prop := table = .threads
  have only : (s.threadExists thread).Only fun r => calls r.table := by
    refine only_bind (only_bind (only_ask rfl) fun stored => ?_) fun _ => trivial
    cases stored with
    | none => trivial
    | some record =>
      dsimp only
      split <;> trivial
  have result : ((s.threadExists thread).outcome t').1 = ((s.threadExists thread).outcome t).1 :=
    (Only.outcome_congr only (by rintro _ rfl; exact same)).1
  rw [show (s.threadExists thread).outcome t = (.ok true, t) from h] at result
  exact Prod.ext result ((s.reads_threadExists thread).tables t')

theorem yields_threadExists {found : Bool} (h : (s.threadExists thread).Yields t found t') :
    t' = t ∧ (found = true ↔ t.get? .threads (s.keys.thread thread) ≠ none) := by
  obtain ⟨_, hnone, hsome⟩ := (ends_threadExists thread).yields h
  refine ⟨(s.reads_threadExists thread).yields h, fun hf => ?_, fun ht => ?_⟩
  · obtain ⟨_, r, hr, _⟩ := hsome hf
    exact fun e => absurd (e.symm.trans hr) (by simp)
  · exact Decidable.byContradiction fun hf => ht (hnone (by simpa using hf))

end Store

/-! ### Pointers -/

theorem Store.notes_notePointer (s : Store) (id thread : String) : (s.notePointer id thread).Notes :=
  only_ite (only_ask fun _ => rfl) trivial

theorem Store.notes_forgetPointer (s : Store) (id thread : String) :
    (s.forgetPointer id thread).Notes :=
  only_ite (only_bind (s.reads_pointer id).notes fun _ =>
    only_ite (only_ask fun _ => rfl) trivial) trivial

/-! ### Orders -/

namespace OrderIndex

variable {k : Keyspace} {t t' : Tables} {thread : String}

theorem yields_snapshot {order : OrderSnapshot} : (snapshot k thread).Yields t order t' ↔
    t' = t ∧ ∃ entries, OrderEntry.ofStored (k.stored t thread Keyspace.orderField) = .ok entries ∧
      order = .ofEntries entries := by
  rw [snapshot, yields_bind]
  simp only [yields_ask]
  constructor
  · rintro ⟨_, _, ⟨rfl, rfl⟩, h⟩
    split at h
    · next entries he =>
      obtain ⟨rfl, rfl⟩ := yields_pure.mp h
      exact ⟨rfl, entries, he, rfl⟩
    · exact absurd h not_yields_fail
  · rintro ⟨rfl, entries, he, rfl⟩
    refine ⟨_, _, ⟨rfl, rfl⟩, ?_⟩
    split
    · next entries' he' =>
      obtain rfl := Except.ok.inj (he.symm.trans he')
      exact yields_pure.mpr ⟨rfl, rfl⟩
    · next he' => exact absurd (he.symm.trans he') (by simp)

/-- A change of an order changes nothing else. -/
theorem yields_merge {change : OrderSnapshot → Option OrderSnapshot} {u : Unit}
    (h : (merge k thread change).Yields t u t') :
    t.ChangedAt t' .messages (k.order thread)
      (StoredOrder.changed change (k.stored t thread Keyspace.orderField)) := by
  obtain ⟨order, t₁, h₁, h₂⟩ := yields_bind.mp (yields_exclusively.mp h)
  obtain ⟨rfl, entries, he, rfl⟩ := yields_snapshot.mp h₁
  rw [StoredOrder.changed_of_ofStored he]
  cases hc : change (.ofEntries entries) with
  | none =>
    rw [hc] at h₂
    obtain ⟨_, rfl⟩ := yields_pure.mp h₂
    exact Tables.changedAt_self _ _ _
  | some order =>
    rw [hc] at h₂
    obtain ⟨_, rfl⟩ := yields_ask.mp h₂
    dsimp only
    exact t₁.changedAt_put _ _ _

theorem yields_remove {ids : List String} {u : Unit} (h : (remove k thread ids).Yields t u t') :
    t.ChangedAt t' .messages (k.order thread)
      (StoredOrder.removed (k.stored t thread Keyspace.orderField) ids) := by
  unfold remove at h
  split at h
  · next he =>
    obtain ⟨_, rfl⟩ := yields_pure.mp h
    rw [List.isEmpty_iff.mp he, StoredOrder.removed_nil]
    exact Tables.changedAt_self _ _ _
  · exact yields_merge h

theorem yields_add {entries : List OrderEntry} {u : Unit}
    (h : (add k thread entries).Yields t u t') :
    t.ChangedAt t' .messages (k.order thread)
      (StoredOrder.added (k.stored t thread Keyspace.orderField) entries) := by
  unfold add at h
  split at h
  · next he =>
    obtain ⟨_, rfl⟩ := yields_pure.mp h
    rw [List.isEmpty_iff.mp he, StoredOrder.added_nil]
    exact Tables.changedAt_self _ _ _
  · exact yields_merge h

end OrderIndex

end ChatMemory
