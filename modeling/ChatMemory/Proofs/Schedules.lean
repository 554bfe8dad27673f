import ChatMemory.Proofs.Errors
import ChatMemory.Proofs.Saving

/-!
# Schedules

The records of a batch are written at the same time, and so is deleted all that belongs to a thread.
If no call fails, the order of these calls does not matter, since no two of the actions have a row in
common: the outcome is that of the actions one after the other. So what is known of operations without
failures is known of them at any schedule.

## Main statements

* `outcome_together` — actions at the same time that have no row in common.
* `outcome_perform_scheduled` — every operation, on any tables.
-/

namespace ChatMemory

namespace Action

variable {α β : Type} {t t' : Tables} {k : Keyspace}

/-- Actions with no row in common leave what they leave one after the other, if no call fails. -/
theorem outcome_together (order : List Nat) {actions : List (Action Unit)}
    (apart : actions.Pairwise Apart) (reports : ∀ p ∈ actions, p.Reports k fun _ => False)
    (t : Tables) : (together order actions).outcome t = (forAll id actions).outcome t := by
  have together := reports_together order reports
  have ended := mayEnd_run Faults.none (Action.together order actions) ⟨t, .idle, 0⟩
  rw [outcome_eq_run _ ⟨t, .idle, 0⟩]
  generalize result : (Action.together order actions).run Faults.none ⟨t, .idle, 0⟩ = out at ended ⊢
  obtain ⟨r, w⟩ := out
  cases r with
  | error e => exact (together.error_kind (congrArg Prod.fst result)).elim
  | ok _ =>
    obtain ⟨results, inTurn, well⟩ := inTurn_of_together order apart ended
    obtain ⟨faults, ok, left⟩ := (inTurn.wellDone (well rfl)).exists_run ⟨t, .idle, 0⟩
    have strict : (forAll id actions).Strict := (reports_together [] reports).strict
    have yields := yields_of_run strict (Prod.ext ok rfl)
    rw [left] at yields
    exact yields.symm

theorem outcome_bind_congr {p : Action α} {f g : α → Action β}
    (h : ∀ a t', p.Yields t a t' → (f a).outcome t' = (g a).outcome t') :
    (p >>= f).outcome t = (p >>= g).outcome t := by
  rw [outcome_bind, outcome_bind]
  cases hp : p.outcome t with
  | mk r t' =>
    cases r with
    | ok a => exact h a t' hp
    | error _ => rfl

theorem outcome_map_congr {f : α → β} {p q : Action α} (h : p.outcome t = q.outcome t) :
    (f <$> p).outcome t = (f <$> q).outcome t := by
  rw [← bind_pure_comp, ← bind_pure_comp, outcome_bind, outcome_bind, h]

theorem outcome_forAll_congr {f g : α → Action Unit} : ∀ {l : List α},
    (∀ a ∈ l, ∀ t, (f a).outcome t = (g a).outcome t) → ∀ t,
    (forAll f l).outcome t = (forAll g l).outcome t
  | [], _, _ => rfl
  | a :: l, h, t => by
    show (f a >>= fun _ => forAll f l).outcome t = (g a >>= fun _ => forAll g l).outcome t
    rw [outcome_bind, outcome_bind, h a List.mem_cons_self]
    cases (g a).outcome t with
    | mk r t' =>
      cases r with
      | ok _ => exact outcome_forAll_congr (fun b hb => h b (List.mem_cons_of_mem _ hb)) t'
      | error _ => rfl

end Action

namespace Store

open Action

variable (s : Store) {t : Tables} {thread : String} {ids : List String} (schedule : Schedule)

/-- The deletions of a thread can be made in any order. -/
theorem outcome_purge (plain : Plain thread) (distinct : ids.Pairwise (· ≠ ·))
    (message : ∀ id ∈ ids, IsMessage id) :
    (s.purge thread ids schedule).outcome t = (s.purge thread ids).outcome t :=
  outcome_together _ (s.apart_purges plain distinct message) (s.reports_purges thread ids) t

/-- The messages of a thread that are listed are distinct, so they can be deleted in any order. -/
theorem outcome_purge_listed (plain : Plain thread) {t₀ t₁ : Tables}
    (listed : (s.messageIds thread).Yields t₀ ids t₁) :
    (s.purge thread ids schedule).outcome t = (s.purge thread ids).outcome t := by
  obtain ⟨_, sorted, mem⟩ := yields_messageIds listed
  exact s.outcome_purge schedule plain (sorted.imp String.ne_of_lt) fun id hid => ((mem id).mp hid).1

theorem outcome_deleteThread :
    (s.deleteThread thread schedule).outcome t = (s.deleteThread thread).outcome t := by
  refine outcome_bind_congr fun _ t₁ checked => outcome_bind_congr fun found t₂ _ => ?_
  have plain := (Identifier.violations_eq_nil.mp (yields_check.mp checked).1).plain
  cases found with
  | false => rfl
  | true => exact outcome_bind_congr fun ids t₃ listed => s.outcome_purge_listed schedule plain listed

theorem outcome_reconcileThread :
    (s.reconcileThread thread schedule).outcome t = (s.reconcileThread thread).outcome t := by
  refine outcome_bind_congr fun _ t₁ checked => outcome_bind_congr fun ids t₂ listed => ?_
  have plain := (Identifier.violations_eq_nil.mp (yields_check.mp checked).1).plain
  refine outcome_bind_congr fun found t₃ _ => ?_
  cases found with
  | true => rfl
  | false =>
    refine outcome_bind_congr fun order t₄ _ => ?_
    split
    · rfl
    · rw [outcome_bind, outcome_bind, s.outcome_purge_listed schedule plain listed]

variable (now : Instant) {messages : List Message}

/-- The records of a part of a batch can be written in any order. -/
theorem outcome_saveInto (distinct : messages.Pairwise (·.id ≠ ·.id)) (plain : Plain thread) :
    (s.saveInto now messages thread schedule).outcome t = (s.saveInto now messages thread).outcome t := by
  have written : (together (schedule thread) ((batchOf messages thread).map s.writeOfBatch)).outcome t
      = (forAll id ((batchOf messages thread).map s.writeOfBatch)).outcome t := by
    refine outcome_together (k := s.keys) _ (s.apart_batchOf distinct plain) (fun p hp => ?_) t
    obtain ⟨entry, _, rfl⟩ := List.mem_map.mp hp
    exact s.reports_writeOfBatch entry
  show (together _ _ >>= _).outcome t = (forAll id _ >>= _).outcome t
  rw [outcome_bind, outcome_bind, written]

theorem outcome_saveMessages :
    (s.saveMessages now messages schedule).outcome t = (s.saveMessages now messages).outcome t := by
  refine outcome_bind_congr fun _ t₁ checked => ?_
  obtain ⟨valid, distinct⟩ := batchViolations_eq_nil.mp (yields_check.mp checked).1
  split
  · rfl
  refine outcome_bind_congr fun _ t₂ _ => outcome_bind_congr fun _ t₃ _ => ?_
  rw [outcome_bind, outcome_bind, outcome_forAll_congr fun thread ht t => ?_]
  obtain ⟨v, hv, rfl⟩ := mem_batchThreads.mp ht
  exact s.outcome_saveInto schedule now distinct (valid v hv).2.1.plain

/--
What an operation gives and leaves on any tables, if no call fails, does not depend on the schedule.
-/
theorem outcome_perform_scheduled (op : Operation) (t : Tables) :
    (s.perform now op schedule).outcome t = (s.perform now op).outcome t := by
  cases op with
  | deleteThread id => exact outcome_map_congr (s.outcome_deleteThread schedule)
  | saveMessages ms => exact outcome_map_congr (s.outcome_saveMessages schedule now)
  | reconcileThread id => exact outcome_map_congr (s.outcome_reconcileThread schedule)
  | _ => rfl

end Store

end ChatMemory
