import ChatMemory.Proofs.Composed
import ChatMemory.Proofs.Slots
import Mathlib.Logic.Relation

/-!
# Turns are given up

An operation takes its turns as a whole only, so wherever it ends, with a reply or with an error
after whichever call, it has given up every turn that it took (`Action.EndsFree`). That is so
whatever the adapter answers and whatever other requests do in between. What is left in the slots
then is due to other requests, and without any the slots are empty.

## Main statements

* `Action.Composed.endsFree` — actions that are put together as operations are.
* `Action.EndsFree.run` — such an action alone.
* `Action.Steps.endsFree` — such an action among other requests.
* `Store.slots_exact` — the accounts of slots, and what operations leave in them.
-/

namespace ChatMemory

/-! ## Turns that can come about -/

namespace Turns

variable {ρ β : Type} [DecidableEq ρ] {t : Turns ρ β}

/-- Turns after some steps from idle ones. -/
def Reachable (t : Turns ρ β) : Prop := ∃ ss, t = ((idle : Turns ρ β).steps ss).1

theorem Reachable.sound (h : t.Reachable) : t.Sound := by
  obtain ⟨ss, rfl⟩ := h
  exact sound_steps ss sound_idle

theorem Reachable.step (h : t.Reachable) (s : Step ρ β) : (t.step s).1.Reachable := by
  obtain ⟨ss, rfl⟩ := h
  exact ⟨ss ++ [s], by rw [steps_snoc]⟩

/-- Without live requests no key is active. -/
theorem Reachable.activeKeys_eq_zero (h : t.Reachable) (nobody : ∀ name, t.ticket? name = none) :
    t.activeKeys = 0 := by
  refine (h.sound.accounts.empty (List.eq_nil_iff_forall_not_mem.mpr fun k hk => ?_)).2
  exact ticket?_eq_none_iff.mp (nobody k.name) k hk rfl

end Turns

namespace Action

open Turns (Reachable ticket?_drop ticket?_step_other name_asking)

variable {α β : Type}

/-! ## Actions that end without a turn -/

/-- Whatever the adapter answers, no turn is held at the end. At first one may be held. -/
def EndsFree : Action α → Bool → Prop
  | .done _, held => held = false
  | .fail _, held => held = false
  | .call _ next, held => ∀ answer, (next answer).EndsFree held
  | .enter _ next, _ => next.EndsFree true
  | .leave _ next, _ => next.EndsFree false

theorem endsFree_thenLeave (key : String) : ∀ (p : Action α) (held : Bool),
    (p.thenLeave key).EndsFree held
  | .done _, _ => rfl
  | .fail _, _ => rfl
  | .call _ next, held => fun answer => endsFree_thenLeave key (next answer) held
  | .enter _ next, _ => endsFree_thenLeave key next true
  | .leave _ next, _ => endsFree_thenLeave key next false

theorem endsFree_bind {f : α → Action β} (hf : ∀ a, (f a).EndsFree false) :
    ∀ {p : Action α} {held : Bool}, p.EndsFree held → (p >>= f).EndsFree held
  | .done a, _, h => h ▸ hf a
  | .fail _, _, h => h
  | .call _ _, _, h => fun answer => endsFree_bind hf (h answer)
  | .enter _ next, _, h => endsFree_bind (p := next) hf h
  | .leave _ next, _, h => endsFree_bind (p := next) hf h

theorem endsFree_recover {handler : MemoryError → Action α} (hh : ∀ e, (handler e).EndsFree false) :
    ∀ {p : Action α} {held : Bool}, p.EndsFree held → (p.recover handler).EndsFree held
  | .done _, _, h => h
  | .fail e, _, h => h ▸ hh e
  | .call _ _, _, h => fun answer => endsFree_recover hh (h answer)
  | .enter _ next, _, h => endsFree_recover (p := next) hh h
  | .leave _ next, _, h => endsFree_recover (p := next) hh h

theorem Composed.endsFree {p : Action α} (h : p.Composed) : p.EndsFree false := by
  induction h with
  | done a => rfl
  | fail error => rfl
  | ask r code context =>
    intro answer
    cases answer <;> rfl
  | bind hp hf ihp ihf => exact endsFree_bind ihf ihp
  | recover hp hh ihp ihh => exact endsFree_recover ihh ihp
  | exclusively key hp ih => exact endsFree_thenLeave key _ true

/-! ## Alone -/

/-- The turns when an action may hold one: if not, it has no live request. -/
def Holding (name : Nat) (held : Bool) (t : Turns Nat Unit) : Prop :=
  t.Reachable ∧ (held = false → t.ticket? name = none)

theorem EndsFree.run (faults : Faults) : ∀ {p : Action α} {held : Bool} {w : World},
    p.EndsFree held → Holding World.client held w.turns →
    Holding World.client false (p.run faults w).2.turns ∧
      ∀ name, name ≠ World.client → (p.run faults w).2.turns.ticket? name = w.turns.ticket? name
  | .done _, _, _, h, hw => ⟨h ▸ hw, fun _ _ => rfl⟩
  | .fail _, _, _, h, hw => ⟨h ▸ hw, fun _ _ => rfl⟩
  | .call r next, held, w, h, hw => by
    cases hf : faults w.calls r with
    | none =>
      rw [run_call_success hf]
      exact EndsFree.run faults (w := ⟨_, w.turns, _⟩) (h _) hw
    | some failure =>
      rw [run_call_failure hf]
      exact EndsFree.run faults (w := ⟨_, w.turns, _⟩) (h _) hw
  | .enter key next, _, w, h, hw => by
    have entered : Holding World.client true (w.enter key).turns :=
      ⟨hw.1.step (.acquire World.client key), fun e => absurd e (by simp)⟩
    obtain ⟨free, others⟩ := EndsFree.run faults (p := next) h entered
    exact ⟨free, fun name other => (others name other).trans
      (ticket?_step_other (s := .acquire World.client key) other)⟩
  | .leave _ next, _, w, h, hw => by
    have left : Holding World.client false w.leave.turns :=
      ⟨hw.1.step (.drop World.client), fun _ => ticket?_drop ..⟩
    obtain ⟨free, others⟩ := EndsFree.run faults (p := next) h left
    exact ⟨free, fun name other => (others name other).trans
      (ticket?_step_other (s := .drop World.client) other)⟩

/-! ## Among others -/

/-- What can happen next while an action is run under a name: the adapter answers, in whichever way;
a turn is granted, or has to be waited for; it is given up; or another request makes a step. -/
inductive Next (name : Nat) : Turns Nat Unit × Action α → Turns Nat Unit × Action α → Prop where
  | answered {t : Turns Nat Unit} {r : Request} {next : Except KvError r.Answer → Action α}
    (answer : Except KvError r.Answer) : Next name (t, .call r next) (t, next answer)
  | granted {t : Turns Nat Unit} {key : String} {next : Action α}
    (held : (t.step (t.asking name key)).2 = .held) :
    Next name (t, .enter key next) ((t.step (t.asking name key)).1, next)
  | waits {t : Turns Nat Unit} {key : String} {next : Action α}
    (waiting : (t.step (t.asking name key)).2 ≠ .held) :
    Next name (t, .enter key next) ((t.step (t.asking name key)).1, .enter key next)
  | left {t : Turns Nat Unit} {key : String} {next : Action α} :
    Next name (t, .leave key next) ((t.step (.drop name)).1, next)
  | other {t : Turns Nat Unit} {p : Action α} (s : Turns.Step Nat Unit) (ho : s.name ≠ name) :
    Next name (t, p) ((t.step s).1, p)

/-- An action among others, on its way to an end without a turn. -/
def OnItsWay (name : Nat) (state : Turns Nat Unit × Action α) : Prop :=
  ∃ held, state.2.EndsFree held ∧ Holding name held state.1

theorem Next.onItsWay {name : Nat} {before after : Turns Nat Unit × Action α}
    (step : Next name before after) (h : OnItsWay name before) : OnItsWay name after := by
  obtain ⟨held, free, reachable, absent⟩ := h
  cases step with
  | answered answer => exact ⟨held, free answer, reachable, absent⟩
  | granted _ => exact ⟨true, free, reachable.step _, fun e => absurd e (by simp)⟩
  | waits _ => exact ⟨true, free, reachable.step _, fun e => absurd e (by simp)⟩
  | left => exact ⟨false, free, reachable.step _, fun _ => ticket?_drop ..⟩
  | other s ho =>
    exact ⟨held, free, reachable.step s,
      fun e => (ticket?_step_other (Ne.symm ho)).trans (absent e)⟩

theorem onItsWay_of_steps {name : Nat} {before after : Turns Nat Unit × Action α}
    (steps : Relation.ReflTransGen (Next name) before after) (h : OnItsWay name before) :
    OnItsWay name after := by
  induction steps with
  | refl => exact h
  | tail _ step ih => exact step.onItsWay ih

/-- The action has ended, with a value or with an error. -/
def Ended : Action α → Prop
  | .done _ => True
  | .fail _ => True
  | _ => False

theorem OnItsWay.holding_of_ended {name : Nat} {t : Turns Nat Unit} {p : Action α}
    (h : OnItsWay name (t, p)) (ended : p.Ended) : Holding name false t := by
  obtain ⟨held, free, holding⟩ := h
  cases p with
  | done _ => exact free ▸ holding
  | fail _ => exact free ▸ holding
  | call _ _ | enter _ _ | leave _ _ => exact absurd ended not_false

end Action

/-! ## The accounts of slots -/

namespace Store

open Action Turns

/-- The accounts of slots are exact after any steps of any requests. An operation leaves in them
what is due to other requests:

* alone, whichever of its calls fail, it leaves all live requests as they were before it, so without
  any no key is active;
* among others, whatever the adapter answers, it has no live request when it ends, so no key is
  active then if no other request is live. -/
theorem slots_exact :
    (∀ (ρ β : Type) [DecidableEq ρ] (ss : List (Turns.Step ρ β)),
      ((idle : Turns ρ β).steps ss).1.Accounts) ∧
    (∀ (s : Store) (now : Instant) (op : Operation) (faults : Faults) (w : World),
      w.turns.Reachable → w.turns.ticket? World.client = none →
      let after := ((s.perform now op).run faults w).2.turns
      after.Reachable ∧ (∀ name, after.ticket? name = w.turns.ticket? name) ∧
        (w.turns.tickets = [] → after.activeKeys = 0)) ∧
    ∀ (s : Store) (now : Instant) (op : Operation) (name : Nat) (t t' : Turns Nat Unit)
      (last : Action Reply), t.Reachable → t.ticket? name = none →
      Relation.ReflTransGen (Next name) (t, s.perform now op) (t', last) → last.Ended →
      t'.Reachable ∧ t'.ticket? name = none ∧
        ((∀ other, other ≠ name → t'.ticket? other = none) → t'.activeKeys = 0) := by
  refine ⟨fun ρ β _ ss => accounts_steps ss, fun s now op faults w reachable absent => ?_,
    fun s now op name t t' last reachable absent steps ended => ?_⟩
  · obtain ⟨⟨reached, gone⟩, others⟩ := (s.composed_perform now op).endsFree.run faults
      ⟨reachable, fun _ => absent⟩
    have same (name : Nat) :
        ((s.perform now op).run faults w).2.turns.ticket? name = w.turns.ticket? name := by
      by_cases own : name = World.client
      · rw [own, gone rfl, absent]
      · exact others name own
    refine ⟨reached, same, fun nobody => reached.activeKeys_eq_zero fun name => ?_⟩
    rw [same, ticket?, nobody]
    rfl
  · have start : OnItsWay name (t, s.perform now op) :=
      ⟨false, (s.composed_perform now op).endsFree, reachable, fun _ => absent⟩
    obtain ⟨reached, gone⟩ := (onItsWay_of_steps steps start).holding_of_ended ended
    refine ⟨reached, gone rfl, fun nobody => reached.activeKeys_eq_zero fun other => ?_⟩
    by_cases own : other = name
    · rw [own, gone rfl]
    · exact nobody other own

end Store

/-! ## Samples -/

namespace Sample

open Action Turns

def down : KvError := .backend "down"

/-- A change of the title of a thread. -/
def retitle : Action Reply :=
  (Store.mk ⟨"app-"⟩ {}).perform (.ofNanos 0) (.updateThread "t" "Title" [])

/-- Another request holds the thread at first; when the change gets its turn, its first call fails.
-/
theorem exists_retitle : ∃ (t' : Turns Nat Unit) (error : MemoryError),
    Relation.ReflTransGen (Next 0) (idle, retitle) (t', .fail error) ∧ t'.tickets = [] := by
  have path : Relation.ReflTransGen (Next 0) ((idle : Turns Nat Unit), retitle) _ :=
    .head (.other (.acquire 1 "app-threads:t") (by decide)) <|
    .head (.waits (by decide)) <|
    .head (.other (.drop 1) (by decide)) <|
    .head (.granted (by decide)) <|
    .head (.answered (.error down)) <|
    .head .left .refl
  exact ⟨_, _, path, by decide⟩

end Sample

open Action Turns in
theorem Store.slots_exact_retitle :
    (idle : Turns Nat Unit).Reachable ∧ (idle : Turns Nat Unit).ticket? World.client = none ∧
    ((Sample.retitle.run (fun _ _ => some Sample.down) World.initial).2.turns.activeKeys = 0) ∧
    ∃ (t' : Turns Nat Unit) (error : MemoryError),
      Relation.ReflTransGen (Next 0) (idle, Sample.retitle) (t', .fail error) ∧
      (∀ other, other ≠ 0 → t'.ticket? other = none) ∧ t'.activeKeys = 0 := by
  have reachable : (idle : Turns Nat Unit).Reachable := ⟨[], rfl⟩
  obtain ⟨_, alone, among⟩ := slots_exact
  obtain ⟨t', error, path, nobody⟩ := Sample.exists_retitle
  have others : ∀ other, other ≠ 0 → t'.ticket? other = none := fun other _ => by
    rw [ticket?, nobody]
    rfl
  exact ⟨reachable, rfl, (alone _ _ _ _ World.initial reachable rfl).2.2 rfl, t', error, path,
    others, (among _ _ _ _ _ _ _ reachable rfl path trivial).2.2 others⟩

end ChatMemory
