import ChatMemory.Proofs.Fairness

/-!
# Waiting for a turn

A request that wants to hold a key asks for it and then looks again and again, until it finds itself
holding the key. What it is told then agrees with the line: it is told so exactly when it stands
first.

Nobody else can take the key from the request that stands first, and what others do leaves a request
that waits as it is.

## Main statements

* `ticket?_step_other` — a step of one request leaves the tickets of the others.
* `Kept.head_step_other` — the first request in line stays first while others make steps.
* `Kept.ask` — what a request learns when it asks.
-/

namespace ChatMemory

/-! ## The first in line -/

namespace Line

variable {ρ β : Type} [DecidableEq ρ] {l : Line ρ β} {p : Place ρ β} {name first : ρ}

theorem owner?_leave (h : l.owner? = some first) (ho : first ≠ name) :
    (l.leave name).owner? = some first := by
  cases l with
  | nil => exact absurd h (by simp [owner?])
  | cons p rest =>
    obtain rfl : p.name = first := Option.some.inj h
    rw [leave, List.filter_cons_of_pos (by simpa using ho)]
    rfl

theorem owner?_serve (l : Line ρ β) (name : ρ) : (l.serve name).owner? = l.owner? := by
  rw [owner?, serve, List.map_map]
  congr 1
  refine List.map_congr_left fun p _ => ?_
  rw [Function.comp_apply]
  split <;> rfl

theorem owner?_look (h : l.owner? = some first) (ho : first ≠ p.name) :
    (l.look p).1.owner? = some first := by
  rw [look]
  split
  · exact h
  · split
    · split
      · exact (owner?_serve l p.name).trans h
      · exact owner?_leave h ho
    · exact h

theorem owner?_poll (h : l.owner? = some first) (ho : first ≠ name) :
    (l.poll name).1.owner? = some first := by
  rw [poll]
  cases hp : l.place? name with
  | none => exact h
  | some p =>
    have e : p.name = name := of_decide_eq_true (List.find?_some hp :)
    exact owner?_look h (e ▸ ho)

theorem owner?_start (h : l.owner? = some first) (ho : first ≠ name) (job : Option β) :
    (l.start name job).1.owner? = some first := by
  rw [start]
  cases l.place? name with
  | some p => exact h
  | none =>
    refine owner?_poll ?_ ho
    rw [owner?, List.map_append, List.head?_append, show (l.map (·.name)).head? = some first from h]
    rfl

/-- Whatever another request does, the first in line stays first. -/
theorem owner?_step (h : l.owner? = some first) {s : Turns.Step ρ β} (ho : first ≠ s.name) :
    (l.step s).1.owner? = some first := by
  cases s with
  | acquire name key => exact owner?_start h ho none
  | run name key result => exact owner?_start h ho (some result)
  | poll name => exact owner?_poll h ho
  | drop name =>
    rw [step, drop]
    cases l.place? name with
    | none => exact h
    | some p => exact owner?_leave h ho

end Line

namespace Turns

variable {ρ β : Type} [DecidableEq ρ] {t : Turns ρ β} {k : Ticket ρ β} {key other : String}
  {name : ρ} {s : Step ρ β}

/-! ## Tickets -/

theorem ticket?_enlist (hn : t.ticket? name = none) (key : String) (job : Option β) :
    (t.enlist name key job).ticket? name = some ⟨name, key, (t.slot key).lock, job, false⟩ := by
  have new : (t.tickets.find? fun k => decide (k.name = name)) = none := hn
  rw [ticket?, enlist, List.find?_append, new, Option.none_or]
  exact List.find?_cons_of_pos (by simp)

theorem ticket?_finish (t : Turns ρ β) (k : Ticket ρ β) : (t.finish k).ticket? k.name = none := by
  rw [ticket?_eq_none_iff, tickets_finish]
  intro k' hk'
  simpa using (List.mem_filter.mp hk').2

section Others

variable {there : ρ}

theorem ticket?_enlist_other (ho : there ≠ name) (key : String) (job : Option β) :
    (t.enlist name key job).ticket? there = t.ticket? there := by
  rw [ticket?, enlist, List.find?_append, List.find?_cons_of_neg (by simpa using Ne.symm ho),
    List.find?_nil, Option.or_none]
  rfl

theorem ticket?_finish_other (ho : there ≠ k.name) :
    (t.finish k).ticket? there = t.ticket? there := by
  have stays : (fun k' : Ticket ρ β => decide (decide (k'.name ≠ k.name) = true ∧
      decide (k'.name = there) = true)) = fun k' => decide (k'.name = there) := by
    funext k'
    by_cases h : k'.name = there
    · simp [h, ho]
    · simp [h]
  rw [ticket?, tickets_finish, List.find?_filter, stays]
  rfl

theorem ticket?_serve_other (ho : there ≠ k.name) :
    (t.serve k).ticket? there = t.ticket? there := by
  have stays : (fun k' : Ticket ρ β => decide (k'.name = there)) ∘ (fun k' =>
      if k'.name = k.name then { k' with served := true } else k')
        = fun k' => decide (k'.name = there) := by
    funext k'
    rw [Function.comp_apply]
    split <;> rfl
  rw [ticket?, serve, List.find?_map, stays, ticket?]
  cases hk : t.tickets.find? fun k' => decide (k'.name = there) with
  | none => rfl
  | some k' =>
    have e : k'.name = there := of_decide_eq_true (List.find?_some hk :)
    rw [Option.map_some, if_neg fun e' => ho (e.symm.trans e')]

theorem ticket?_look_other (ho : there ≠ k.name) :
    (t.look k).1.ticket? there = t.ticket? there := by
  rw [look]
  split
  · rfl
  · split
    · split
      · exact ticket?_serve_other ho
      · exact ticket?_finish_other ho
    · rfl

theorem ticket?_poll_other (ho : there ≠ name) :
    (t.poll name).1.ticket? there = t.ticket? there := by
  rw [poll]
  cases hk : t.ticket? name with
  | none => rfl
  | some k =>
    have e : k.name = name := of_decide_eq_true (List.find?_some hk :)
    exact ticket?_look_other (e ▸ ho)

theorem ticket?_start_other (ho : there ≠ name) (key : String) (job : Option β) :
    (t.start name key job).1.ticket? there = t.ticket? there := by
  rw [start]
  cases t.ticket? name with
  | some k => rfl
  | none => exact (ticket?_poll_other ho).trans (ticket?_enlist_other ho key job)

/-- A step of one request leaves the tickets of the others. -/
theorem ticket?_step_other (ho : there ≠ s.name) :
    (t.step s).1.ticket? there = t.ticket? there := by
  cases s with
  | acquire name key => exact ticket?_start_other ho key none
  | run name key result => exact ticket?_start_other ho key (some result)
  | poll name => exact ticket?_poll_other ho
  | drop name =>
    change there ≠ name at ho
    rw [step, drop]
    cases hk : t.ticket? name with
    | none => rfl
    | some k =>
      have e : k.name = name := of_decide_eq_true (List.find?_some hk :)
      exact ticket?_finish_other (e ▸ ho)

end Others

/-- A request is in the line of its key and in no other. -/
theorem Kept.mem_names (h : t.Kept) :
    name ∈ t.names key ↔ ∃ k, t.ticket? name = some k ∧ k.key = key := by
  rw [Turns.names, List.mem_map]
  constructor
  · rintro ⟨k, hk, rfl⟩
    obtain ⟨there, hkey⟩ := mem_queue.mp hk
    refine ⟨k, ?_, hkey⟩
    cases hn : t.ticket? k.name with
    | none => exact absurd rfl (ticket?_eq_none_iff.mp hn k there)
    | some k' =>
      obtain ⟨there', e, _⟩ := h.place?_of_ticket? hn
      rw [eq_of_key_eq h.names there' there e]
  · rintro ⟨k, hk, hkey⟩
    obtain ⟨there, e, _⟩ := h.place?_of_ticket? hk
    exact ⟨k, mem_queue.mpr ⟨there, hkey⟩, e⟩

omit [DecidableEq ρ] in
theorem head?_names (t : Turns ρ β) (key : String) : (t.names key).head? = (t.line key).owner? := by
  rw [Line.owner?, names_line]
  rfl

/-- The first request in the line of a key stays first while others make steps. -/
theorem Kept.head_step_other (h : t.Kept) {first : ρ} (hf : (t.names key).head? = some first)
    (ho : first ≠ s.name) : ((t.step s).1.names key).head? = some first := by
  rw [head?_names] at hf ⊢
  by_cases hs : t.keyOf s = some key
  · have moved := congrArg Prod.fst (h.onKey_step hs).moved
    rw [show (t.step s).1.line key = ((t.line key).step s).1 from moved]
    exact Line.owner?_step hf ho
  · rwa [h.line_step_other hs]

/-! ## Asking for a key -/

/-- A request for a key that is to be held: at first it asks, then it looks again. -/
def asking (t : Turns ρ β) (name : ρ) (key : String) : Step ρ β :=
  match t.ticket? name with
  | none => .acquire name key
  | some _ => .poll name

theorem name_asking (t : Turns ρ β) (name : ρ) (key : String) :
    (t.asking name key).name = name := by
  rw [asking]
  split <;> rfl

/-- A request that has asked for a key to hold it, and has not found itself holding it yet. -/
def Waits (t : Turns ρ β) (name : ρ) (key : String) : Prop :=
  ∃ k, t.ticket? name = some k ∧ k.key = key ∧ k.job = none ∧ k.served = false

theorem ticket?_serve (hk : t.ticket? name = some k) :
    (t.serve k).ticket? name = some { k with served := true } := by
  have e : k.name = name := of_decide_eq_true (List.find?_some hk :)
  have stays : (fun k' : Ticket ρ β => decide (k'.name = name)) ∘ (fun k' =>
      if k'.name = k.name then { k' with served := true } else k')
        = fun k' => decide (k'.name = name) := by
    funext k'
    rw [Function.comp_apply]
    split <;> rfl
  rw [ticket?, serve, List.find?_map, stays]
  rw [ticket?] at hk
  rw [hk, Option.map_some, if_pos rfl]

/-- A request that looks finds itself holding its key exactly when it stands first. -/
theorem Kept.look_asking (h : t.Kept) (hk : t.ticket? name = some k) (job : k.job = none)
    (unserved : k.served = false) :
    ((t.look k).2 = .held ∧ ((t.look k).1.names k.key).head? = some name ∧
        ∃ k', (t.look k).1.ticket? name = some k' ∧ k'.key = k.key) ∨
      t.look k = (t, .waiting) := by
  obtain ⟨there, e, _⟩ := h.place?_of_ticket? hk
  rw [look, if_neg (by simp [unserved]), job]
  by_cases owns : t.Owns k
  · rw [if_pos (show (t.lock k.lock).holder = some k.name from owns)]
    refine .inl ⟨rfl, ?_, _, ticket?_serve hk, rfl⟩
    rw [names_serve, head?_names, (h.owns_iff_owner? there).mp owns, e]
  · rw [if_neg (show ¬ (t.lock k.lock).holder = some k.name from owns)]
    exact .inr rfl

/-- When a request asks for a key to hold it, or looks again, it is told that it holds the key if it
stands first, and otherwise it waits. -/
theorem Kept.ask (h : t.Kept) (asks : t.ticket? name = none ∨ t.Waits name key) :
    let out := t.step (t.asking name key)
    (out.2 = .held ∧ (out.1.names key).head? = some name ∧
        ∃ k, out.1.ticket? name = some k ∧ k.key = key) ∨
      (out.2 = .waiting ∧ out.1.Waits name key) := by
  rcases asks with new | ⟨k, hk, rfl, job, unserved⟩
  · have joined : (t.enlist name key none).Kept := h.enlist (ticket?_eq_none_iff.mp new)
    have asked := ticket?_enlist new key none
    have out : t.step (t.asking name key)
        = (t.enlist name key none).look ⟨name, key, (t.slot key).lock, none, false⟩ := by
      rw [asking, new]
      show t.start name key none = _
      rw [start, new]
      show (t.enlist name key none).poll name = _
      rw [poll, asked]
    rw [out]
    rcases joined.look_asking asked rfl rfl with held | waits
    · exact .inl held
    · rw [waits]
      exact .inr ⟨rfl, _, asked, rfl, rfl, rfl⟩
  · have out : t.step (t.asking name k.key) = t.look k := by
      rw [asking, hk]
      show t.poll name = _
      rw [poll, hk]
    rw [out]
    rcases h.look_asking hk job unserved with held | waits
    · exact .inl held
    · rw [waits]
      exact .inr ⟨rfl, k, hk, rfl, job, unserved⟩

theorem ticket?_drop (t : Turns ρ β) (name : ρ) : (t.drop name).1.ticket? name = none := by
  rw [drop]
  cases hk : t.ticket? name with
  | none => exact hk
  | some k =>
    have e : k.name = name := of_decide_eq_true (List.find?_some hk :)
    exact e ▸ ticket?_finish t k

/-- What other requests do leaves a request that waits waiting. -/
theorem Waits.step_other (h : t.Waits name key) (ho : name ≠ s.name) :
    (t.step s).1.Waits name key := by
  rw [Waits, ticket?_step_other ho]
  exact h

/-! ## One more step -/

/-- Nobody but the request that makes a step arrives with it. -/
theorem eq_of_mem_arrived (h : name ∈ t.arrived key s) : name = s.name := by
  rw [arrived] at h
  split at h
  · exact List.mem_singleton.mp h
  · exact absurd h List.not_mem_nil

theorem steps_snoc : ∀ (ss : List (Step ρ β)) (t : Turns ρ β) (s : Step ρ β),
    (t.steps (ss ++ [s])).1 = ((t.steps ss).1.step s).1
  | [], _, _ => rfl
  | first :: rest, t, s => by
    rw [List.cons_append, steps_cons, steps_cons]
    exact steps_snoc rest (t.step first).1 s

theorem history_snoc (key : String) : ∀ (ss : List (Step ρ β)) (h : History ρ) (t : Turns ρ β)
    (s : Step ρ β),
    history key h t (ss ++ [s]) = (history key h t ss).note key (t.steps ss).1 s
  | [], _, _, _ => rfl
  | first :: rest, h, t, s => history_snoc key rest (h.note key t first) (t.step first).1 s

namespace History

variable {h : History ρ}

omit [DecidableEq ρ] in
/-- The live requests have all arrived. -/
theorem InOrder.arrived_of_mem {names : List ρ} (o : h.InOrder names) (hn : name ∈ names) :
    name ∈ h.arrived := by
  obtain ⟨past, _, order, _⟩ := o
  exact order.subset (List.mem_append_right _ hn)

omit [DecidableEq ρ] in
/-- The key was granted to requests that have arrived, and to each at most once. -/
theorem InOrder.granted_sublist {names : List ρ} (o : h.InOrder names) :
    h.granted.Sublist h.arrived := by
  obtain ⟨past, granted, order, _⟩ := o
  rw [granted]
  refine List.Sublist.trans (List.Sublist.append_left ?_ past) order
  cases names with
  | nil => exact .slnil
  | cons first rest => exact (List.nil_sublist rest).cons_cons first

omit [DecidableEq ρ] in
/-- The request that holds the key is the last to which it was granted. -/
theorem InOrder.granted_eq {names : List ρ} {first : ρ} (o : h.InOrder names)
    (hf : names.head? = some first) : ∃ past, h.granted = past ++ [first] := by
  obtain ⟨past, granted, _, _⟩ := o
  exact ⟨past, by rw [granted, hf]; rfl⟩

/-- What was granted stays granted. -/
theorem granted_note (h : History ρ) (key : String) (t : Turns ρ β) (s : Step ρ β) :
    ∃ extra, (h.note key t s).granted = h.granted ++ extra :=
  ⟨_, List.append_assoc ..⟩

end History

end Turns

end ChatMemory
