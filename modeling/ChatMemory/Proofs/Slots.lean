import ChatMemory.Proofs.Waiting

/-!
# The accounts of slots

A slot is kept for a key exactly as long as there are live requests for it, whether they hold the
key or wait. The count of its users is raised before a request waits and lowered when the request
ends, in whichever way: with its job done, given up while it holds the key, given up while it waits,
or given up after the key was handed to it and before it looked. Removed too early, a slot would be
made anew with another lock while the old one is in use; removed too late, it would stay for good.

That the slot of a key fits its requests is what `Kept` says of each key. What it does not say is
that no key has two slots, so that counting slots is counting keys (`Sound`).

## Main statements

* `step_cases` — what a step can do: a request may arrive, and then one may be served or end.
* `Sound.step`, `sound_steps` — the invariant is kept by a step, and by a run.
* `Sound.accounts`, `accounts_steps` — the accounts after any steps.
-/

namespace ChatMemory.Turns

open Pairs (assign without)

variable {ρ β : Type} [DecidableEq ρ] {t : Turns ρ β} {k : Ticket ρ β} {key : String} {s : Step ρ β}

/-! ## A step -/

/-- A request may arrive with a step. -/
theorem arrive_cases (t : Turns ρ β) (s : Step ρ β) : t.arrive s = t ∨
    ∃ key job, t.ticket? s.name = none ∧ t.arrive s = t.enlist s.name key job := by
  have joins (name : ρ) (key : String) (job : Option β) : t.join name key job = t ∨
      ∃ key' job', t.ticket? name = none ∧ t.join name key job = t.enlist name key' job' := by
    by_cases new : t.ticket? name = none
    · exact .inr ⟨key, job, new, if_pos new⟩
    · exact .inl (if_neg new)
  cases s with
  | acquire name key => exact joins name key none
  | run name key result => exact joins name key (some result)
  | poll name => exact .inl rfl
  | drop name => exact .inl rfl

theorem poll_cases (t : Turns ρ β) (name : ρ) : (t.poll name).1 = t ∨
    ∃ k ∈ t.tickets, (t.poll name).1 = t.serve k ∨ (t.poll name).1 = t.finish k := by
  rw [poll]
  cases hk : t.ticket? name with
  | none => exact .inl rfl
  | some k =>
    have there := List.mem_of_find?_eq_some hk
    dsimp only
    rw [look]
    split
    · exact .inl rfl
    · split
      · split
        · exact .inr ⟨k, there, .inl rfl⟩
        · exact .inr ⟨k, there, .inr rfl⟩
      · exact .inl rfl

/-- Once a new request has arrived, a step leaves all as it is, or serves one request, or ends one.
-/
theorem step_cases (t : Turns ρ β) (s : Step ρ β) : (t.step s).1 = t.arrive s ∨
    ∃ k ∈ (t.arrive s).tickets,
      (t.step s).1 = (t.arrive s).serve k ∨ (t.step s).1 = (t.arrive s).finish k := by
  have starts (name : ρ) (key : String) (job : Option β) :
      let joined := t.join name key job
      (t.start name key job).1 = joined ∨ ∃ k ∈ joined.tickets,
        (t.start name key job).1 = joined.serve k ∨ (t.start name key job).1 = joined.finish k := by
    rw [start, join]
    cases hk : t.ticket? name with
    | some k => exact .inl (if_neg (by simp)).symm
    | none =>
      rw [if_pos rfl]
      exact poll_cases _ name
  cases s with
  | acquire name key => exact starts name key none
  | run name key result => exact starts name key (some result)
  | poll name => exact t.poll_cases name
  | drop name =>
    rw [step, drop]
    cases hk : t.ticket? name with
    | none => exact .inl rfl
    | some k => exact .inr ⟨k, List.mem_of_find?_eq_some hk, .inr rfl⟩

/-! ## One slot for a key -/

/-- The slots fit the live requests, and no key has two of them. -/
structure Sound (t : Turns ρ β) : Prop where
  kept : t.Kept
  single : t.slots.Pairwise (·.1 ≠ ·.1)

omit [DecidableEq ρ] in
theorem sound_idle : (idle : Turns ρ β).Sound := ⟨kept_idle, .nil⟩

omit [DecidableEq ρ] in
theorem single_discharge (h : t.slots.Pairwise (·.1 ≠ ·.1)) (key : String) :
    (t.discharge key).slots.Pairwise (·.1 ≠ ·.1) := by
  rw [discharge]
  split
  · exact h
  · split
    · exact h.filter _
    · exact Pairs.pairwise_assign h

theorem slots_finish (t : Turns ρ β) (k : Ticket ρ β) :
    (t.finish k).slots = (t.discharge k.key).slots := by
  rw [finish, collect, discharge, discharge]
  dsimp only
  split
  · rfl
  · split <;> rfl

theorem Sound.arrive (h : t.Sound) (s : Step ρ β) : (t.arrive s).Sound := by
  rcases t.arrive_cases s with same | ⟨key, job, new, joined⟩
  · rwa [same]
  · rw [joined]
    exact ⟨h.kept.enlist (ticket?_eq_none_iff.mp new), Pairs.pairwise_assign h.single⟩

theorem Sound.step (h : t.Sound) (s : Step ρ β) : (t.step s).1.Sound := by
  have came := h.arrive s
  rcases t.step_cases s with same | ⟨k, there, served | ended⟩
  · rwa [same]
  · rw [served]
    exact ⟨came.kept.serve k, came.single⟩
  · rw [ended]
    refine ⟨came.kept.finish there, ?_⟩
    rw [slots_finish]
    exact single_discharge came.single k.key

theorem sound_steps : ∀ (ss : List (Step ρ β)) {t : Turns ρ β}, t.Sound → (t.steps ss).1.Sound
  | [], _, h => h
  | s :: rest, _, h => sound_steps rest (h.step s)

/-! ## Accounts -/

/-- What slots and locks say of the live requests. -/
structure Accounts (t : Turns ρ β) : Prop where
  /-- There is a slot for a key exactly if a request for the key is live. -/
  slot_iff : ∀ key, t.slots.lookup key ≠ none ↔ ∃ k ∈ t.tickets, k.key = key
  /-- The users of a slot are the live requests for its key. -/
  users : ∀ key s, t.slots.lookup key = some s → s.users = (t.queue key).length
  /-- The requests for a key, and no others, have the lock of its slot. -/
  shared : ∀ key s, t.slots.lookup key = some s → ∀ k ∈ t.tickets, k.lock = s.lock ↔ k.key = key
  /-- That lock is held by one of them, and the others wait for it. -/
  lock : ∀ key s, t.slots.lookup key = some s → ∃ first rest,
    t.locks.lookup s.lock = some ⟨some first, rest⟩ ∧ (t.queue key).map (·.name) = first :: rest
  /-- As many keys are active as have live requests. -/
  active : t.activeKeys = (distinct (t.tickets.map (·.key))).length
  /-- Nothing is left once all requests have ended. -/
  empty : t.tickets = [] → t.slots = [] ∧ t.activeKeys = 0

omit [DecidableEq ρ] in
theorem queue_ne_nil_iff : t.queue key ≠ [] ↔ ∃ k ∈ t.tickets, k.key = key := by
  rw [← List.isEmpty_eq_false_iff, List.isEmpty_eq_false_iff_exists_mem]
  exact exists_congr fun _ => mem_queue

omit [DecidableEq ρ] in
theorem Kept.slot_iff (h : t.Kept) (key : String) :
    t.slots.lookup key ≠ none ↔ ∃ k ∈ t.tickets, k.key = key := by
  rw [← queue_ne_nil_iff]
  constructor
  · intro found
    obtain ⟨s, hs⟩ := Option.ne_none_iff_exists'.mp found
    exact (h.used key s hs).1
  · exact fun live none => live (h.unused key none)

omit [DecidableEq ρ] in
theorem Sound.active (h : t.Sound) : t.activeKeys = (distinct (t.tickets.map (·.key))).length := by
  have single : (t.slots.map (·.1)).Nodup := List.pairwise_map.mpr h.single
  have perm : (t.slots.map (·.1)).Perm (distinct (t.tickets.map (·.key))) := by
    refine (List.perm_ext_iff_of_nodup single (nodup_distinct _)).mpr fun key => ?_
    rw [Pairs.mem_keys_iff, h.kept.slot_iff, mem_distinct, List.mem_map]
  rw [activeKeys, ← perm.length_eq, List.length_map]

omit [DecidableEq ρ] in
/-- A slot that is used has a lock object, which its requests hold and wait for. -/
theorem Fits.exists_lock {slot : Slot} (fits : t.Fits key slot) (used : t.queue key ≠ []) :
    ∃ first rest, t.locks.lookup slot.lock = some ⟨some first, rest⟩ ∧
      (t.queue key).map (·.name) = first :: rest := by
  obtain ⟨first, rest, names⟩ := List.exists_cons_of_ne_nil (mt List.map_eq_nil_iff.mp used)
  refine ⟨first, rest, ?_, names⟩
  have object := fits.lock
  rw [names, Turns.lock] at object
  cases hl : t.locks.lookup slot.lock with
  | some l => rw [hl] at object; exact congrArg some object
  | none =>
    -- A lock that is not there is free, but this one is held.
    rw [hl] at object
    exact absurd (congrArg Lock.holder object) (by simp [Lock.free, Lock.ofLine])

omit [DecidableEq ρ] in
theorem Sound.accounts (h : t.Sound) : t.Accounts where
  slot_iff := h.kept.slot_iff
  users key slot hs := (h.kept.used key slot hs).2.users
  shared key slot hs k hk := by
    obtain ⟨own, hown, fits, lock⟩ := h.kept.exists_slot hk
    constructor
    · exact fun e => h.kept.apart k.key key own slot hown hs (lock.symm.trans e)
    · rintro rfl
      exact (h.kept.used k.key slot hs).2.tickets k (mem_queue.mpr ⟨hk, rfl⟩)
  lock key slot hs := (h.kept.used key slot hs).2.exists_lock (h.kept.used key slot hs).1
  active := h.active
  empty none := by
    have active : t.activeKeys = 0 := by rw [h.active, none]; rfl
    exact ⟨List.length_eq_zero_iff.mp active, active⟩

/-- After any steps the accounts are right. -/
theorem accounts_steps (ss : List (Step ρ β)) : ((idle : Turns ρ β).steps ss).1.Accounts :=
  (sound_steps ss sound_idle).accounts

-- The key is handed to the second request, which is given up before it looks; two other keys are in
-- use.
example :
    let ss : List (Step Nat Nat) := [.acquire 1 "k", .acquire 2 "k", .run 3 "l" 0, .acquire 4 "m",
      .drop 1, .drop 2]
    ((idle : Turns Nat Nat).steps ss).2.map (·.2) = [1, 1, 1, 2, 2, 1] := by decide

end ChatMemory.Turns
