import ChatMemory.Distinct
import ChatMemory.Turns

/-!
# The line for a key

For one key, taking turns is a line of requests. A new request joins at the end, the first one holds
the key, and a request that ends leaves the line wherever it stands. A line knows nothing of slots,
locks and other keys.

The turns of all keys are such lines side by side: a step moves the line of its own key as it would
move alone, and no other. This rests on an invariant, `Kept`: the slot of a key counts the requests of
the key, all of them have the lock of the slot, the lock is held and waited for in the order of the
line, and no two slots share a lock.

## Main statements

* `Kept.enlist`, `Kept.finish`, `Kept.serve` — the invariant is kept.
* `Kept.onKey_step` — a step is a step of the line of its key.
* `Kept.owns_iff` — the first request in line owns the key, and no other.
-/

namespace ChatMemory

/-! ## A line alone -/

/-- A request in line. -/
structure Place (ρ β : Type) where
  name : ρ
  job : Option β
  served : Bool
deriving DecidableEq

/-- The requests for a key, oldest first. -/
abbrev Line (ρ β : Type) := List (Place ρ β)

namespace Line

variable {ρ β : Type} [DecidableEq ρ]

/-- The request of a name. -/
def place? (l : Line ρ β) (name : ρ) : Option (Place ρ β) := l.find? (·.name = name)

/-- The first request holds the key. -/
def owner? (l : Line ρ β) : Option ρ := (l.map (·.name)).head?

/-- A request leaves; the others move up. -/
def leave (l : Line ρ β) (name : ρ) : Line ρ β := l.filter (·.name ≠ name)

/-- Notes that a request has found itself first. -/
def serve (l : Line ρ β) (name : ρ) : Line ρ β :=
  l.map fun p => if p.name = name then { p with served := true } else p

/-- A request looks whether it is its turn. -/
def look (l : Line ρ β) (p : Place ρ β) : Line ρ β × TurnReply β :=
  if p.served then (l, .held)
  else if l.owner? = some p.name then
    match p.job with
    | none => (l.serve p.name, .held)
    | some result => (l.leave p.name, .finished result)
  else (l, .waiting)

/-- A request looks again. -/
def poll (l : Line ρ β) (name : ρ) : Line ρ β × TurnReply β :=
  match l.place? name with
  | none => (l, .absent)
  | some p => l.look p

/-- A new request joins at the end and looks once. -/
def start (l : Line ρ β) (name : ρ) (job : Option β) : Line ρ β × TurnReply β :=
  match l.place? name with
  | some _ => (l, .taken)
  | none => poll (l ++ [⟨name, job, false⟩]) name

/-- A request is given up. -/
def drop (l : Line ρ β) (name : ρ) : Line ρ β × TurnReply β :=
  match l.place? name with
  | none => (l, .absent)
  | some p => (l.leave name, if p.served then .released else .cancelled)

/-- Makes a step. -/
def step (l : Line ρ β) : Turns.Step ρ β → Line ρ β × TurnReply β
  | .acquire name _ => l.start name none
  | .run name _ result => l.start name (some result)
  | .poll name => l.poll name
  | .drop name => l.drop name

/-- Makes steps one after the other, and gives each reply. -/
def steps (l : Line ρ β) : List (Turns.Step ρ β) → Line ρ β × List (TurnReply β)
  | [] => (l, [])
  | s :: rest =>
    let (l, reply) := l.step s
    let (last, replies) := steps l rest
    (last, reply :: replies)

theorem place?_eq_none_iff {l : Line ρ β} {name : ρ} :
    l.place? name = none ↔ ∀ p ∈ l, p.name ≠ name := by
  rw [place?, List.find?_eq_none]
  exact forall_congr' fun p => forall_congr' fun _ => by simp

theorem leave_eq_self {l : Line ρ β} {name : ρ} (h : ∀ p ∈ l, p.name ≠ name) : l.leave name = l :=
  List.filter_eq_self.mpr fun p hp => by simpa using h p hp

theorem serve_eq_self {l : Line ρ β} {name : ρ} (h : ∀ p ∈ l, p.name ≠ name) : l.serve name = l := by
  rw [serve]
  conv => rhs; rw [← List.map_id l]
  refine List.map_congr_left fun p hp => ?_
  rw [if_neg (h p hp), id]

end Line

namespace Lock

variable {ρ : Type}

/-- The lock of a line: the first holds it and the others wait. -/
def ofLine : List ρ → Lock ρ
  | [] => .free
  | first :: rest => ⟨some first, rest⟩

theorem holder_ofLine : ∀ names : List ρ, (ofLine names).holder = names.head?
  | [] => rfl
  | _ :: _ => rfl

theorem request_ofLine (name : ρ) : ∀ names : List ρ,
    (ofLine names).request name = ofLine (names ++ [name])
  | [] => rfl
  | _ :: _ => rfl

theorem leave_ofLine [DecidableEq ρ] {name : ρ} : ∀ {names : List ρ}, names.Pairwise (· ≠ ·) →
    name ∈ names → (ofLine names).leave name = ofLine (names.filter (· ≠ name))
  | first :: rest, distinct, hn => by
    obtain ⟨hf, hr⟩ := List.pairwise_cons.mp distinct
    by_cases h : first = name
    · subst h
      have others : rest.filter (· ≠ first) = rest :=
        List.filter_eq_self.mpr fun n hn => by simpa using (hf n hn).symm
      rw [leave, if_pos (by rfl), List.filter_cons_of_neg (by simp), others]
      cases rest <;> rfl
    · have erased : rest.erase name = rest.filter (· ≠ name) := by
        rw [List.Nodup.erase_eq_filter hr]
        exact List.filter_congr fun n _ => by rw [decide_not, bne, Bool.beq_eq_decide_eq]
      have waits : (ofLine (first :: rest)).holder ≠ some name := fun e => h (Option.some.inj e)
      rw [leave, if_neg waits, List.filter_cons_of_pos (by simpa using h)]
      exact congrArg (Lock.mk _) erased

end Lock

/-- The place of a live request, without its key and lock. -/
def Ticket.place {ρ β : Type} (k : Ticket ρ β) : Place ρ β := ⟨k.name, k.job, k.served⟩

namespace Turns

open Pairs (assign without lookup_assign lookup_without lookup_filter)

/-! ## The lines of the keys -/

section Lines

variable {ρ β : Type} {t : Turns ρ β} {k : Ticket ρ β} {key other : String} {name : ρ}
  {job : Option β}

/-- The live requests for a key, oldest first. -/
def queue (t : Turns ρ β) (key : String) : List (Ticket ρ β) := t.tickets.filter (·.key = key)

/-- The line of a key. -/
def line (t : Turns ρ β) (key : String) : Line ρ β := (t.queue key).map (·.place)

/-- A request owns its key when it holds the lock it was given. -/
def Owns (t : Turns ρ β) (k : Ticket ρ β) : Prop := (t.lock k.lock).holder = some k.name

instance [DecidableEq ρ] : Decidable (t.Owns k) :=
  inferInstanceAs (Decidable ((t.lock k.lock).holder = some k.name))

theorem mem_queue : k ∈ t.queue key ↔ k ∈ t.tickets ∧ k.key = key := by
  rw [queue, List.mem_filter, decide_eq_true_iff]

theorem mem_line {p : Place ρ β} :
    p ∈ t.line key ↔ ∃ k ∈ t.tickets, k.key = key ∧ k.place = p := by
  rw [line, List.mem_map]
  exact exists_congr fun k => by rw [mem_queue, and_assoc]

theorem names_line : (t.line key).map (·.name) = (t.queue key).map (·.name) := List.map_map

theorem owner?_line : (t.line key).owner? = (t.queue key).head?.map (·.name) := by
  rw [Line.owner?, names_line, List.head?_map]

@[simp] theorem tickets_discharge : (t.discharge key).tickets = t.tickets := by
  rw [discharge]
  split
  · rfl
  · split <;> rfl

@[simp] theorem locks_discharge : (t.discharge key).locks = t.locks := by
  rw [discharge]
  split
  · rfl
  · split <;> rfl

theorem queue_enlist : (t.enlist name key job).queue other =
    t.queue other ++ if key = other then [⟨name, key, (t.slot key).lock, job, false⟩] else [] := by
  rw [queue, enlist, List.filter_append, List.filter_cons, List.filter_nil]
  simp only [decide_eq_true_eq]
  rfl

theorem line_enlist : (t.enlist name key job).line other =
    t.line other ++ if key = other then [⟨name, job, false⟩] else [] := by
  rw [line, queue_enlist, List.map_append]
  split <;> rfl

variable [DecidableEq ρ]

theorem tickets_finish : (t.finish k).tickets = t.tickets.filter (·.name ≠ k.name) := by
  rw [finish, collect, tickets_discharge]

theorem queue_finish : (t.finish k).queue other = (t.queue other).filter (·.name ≠ k.name) := by
  rw [queue, tickets_finish, queue, List.filter_filter, List.filter_filter]
  exact List.filter_congr fun _ _ => Bool.and_comm ..

theorem line_finish : (t.finish k).line other = (t.line other).leave k.name := by
  rw [line, queue_finish, line, Line.leave, List.filter_map]
  rfl

theorem queue_serve : (t.serve k).queue other =
    (t.queue other).map fun k' => if k'.name = k.name then { k' with served := true } else k' := by
  rw [queue, serve, queue, List.filter_map]
  congr 1
  refine List.filter_congr fun k' _ => ?_
  rw [Function.comp_apply]
  split <;> rfl

theorem line_serve : (t.serve k).line other = (t.line other).serve k.name := by
  rw [line, queue_serve, line, Line.serve, List.map_map, List.map_map]
  refine List.map_congr_left fun k' _ => ?_
  rw [Function.comp_apply, Function.comp_apply, apply_ite Ticket.place]
  rfl

theorem ticket?_eq_none_iff : t.ticket? name = none ↔ ∀ k ∈ t.tickets, k.name ≠ name := by
  rw [ticket?, List.find?_eq_none]
  exact forall_congr' fun k => forall_congr' fun _ => by simp

end Lines

/-! ## Slots and locks -/

section Slots

variable {ρ β : Type} {t : Turns ρ β} {k : Ticket ρ β} {key other : String} {name : ρ}
  {job : Option β}

/-- The slot of a key counts the requests of the key, and its lock is held and waited for by them in
the order of the line. -/
structure Fits (t : Turns ρ β) (key : String) (s : Slot) : Prop where
  users : s.users = (t.queue key).length
  lock : t.lock s.lock = .ofLine ((t.queue key).map (·.name))
  tickets : ∀ k ∈ t.queue key, k.lock = s.lock

/-- A slot still fits if neither the requests for its key nor its lock have changed. -/
theorem Fits.congr {t' : Turns ρ β} {s : Slot} (h : t.Fits key s)
    (queue : t'.queue key = t.queue key) (lock : t'.lock s.lock = t.lock s.lock) : t'.Fits key s where
  users := by rw [queue, h.users]
  lock := by rw [queue, lock, h.lock]
  tickets := by
    rw [queue]
    exact h.tickets

/-- What slots, locks and requests have to do with each other. -/
structure Kept (t : Turns ρ β) : Prop where
  names : t.tickets.Pairwise (·.name ≠ ·.name)
  unused : ∀ key, t.slots.lookup key = none → t.queue key = []
  used : ∀ key s, t.slots.lookup key = some s → t.queue key ≠ [] ∧ t.Fits key s
  apart : ∀ key other s s', t.slots.lookup key = some s → t.slots.lookup other = some s' →
    s.lock = s'.lock → key = other

theorem kept_idle : (idle : Turns ρ β).Kept where
  names := .nil
  unused _ _ := rfl
  used _ _ h := absurd h (by simp [idle])
  apart _ _ _ _ h := absurd h (by simp [idle])

theorem le_foldl_max (numbers : List Nat) : ∀ n : Nat,
    n ≤ numbers.foldl max n ∧ ∀ m ∈ numbers, m ≤ numbers.foldl max n := by
  induction numbers with
  | nil => exact fun n => ⟨Nat.le_refl n, by simp⟩
  | cons first rest ih =>
    intro n
    obtain ⟨hmax, hrest⟩ := ih (max n first)
    refine ⟨Nat.le_trans (Nat.le_max_left ..) hmax, fun m hm => ?_⟩
    rcases List.mem_cons.mp hm with rfl | hm
    · exact Nat.le_trans (Nat.le_max_right ..) hmax
    · exact hrest m hm

/-- A fresh lock is free. -/
theorem lock_freshLock : t.lock t.freshLock = .free := by
  have unknown : t.locks.lookup t.freshLock = none := by
    refine List.lookup_eq_none_iff.mpr fun l hl => ?_
    have : l.1 ≤ _ := (le_foldl_max (t.locks.map (·.1)) 0).2 l.1 (List.mem_map_of_mem hl)
    have : l.1 < t.freshLock := Nat.lt_succ_of_le this
    simp only [bne_iff_ne, ne_eq]
    omega
  rw [lock, unknown, Option.getD_none]

/-- A slot in use does not have the fresh lock. -/
theorem Kept.lock_ne_fresh (h : t.Kept) {s : Slot} (hs : t.slots.lookup key = some s) :
    s.lock ≠ t.freshLock := by
  intro e
  obtain ⟨used, fits⟩ := h.used key s hs
  have free := fits.lock
  rw [e, lock_freshLock] at free
  cases hq : t.queue key with
  | nil => exact used hq
  | cons first rest =>
    rw [hq] at free
    exact absurd (congrArg Lock.holder free) (by simp [Lock.free, Lock.ofLine])

/-- A new slot fits a key without requests. -/
theorem Kept.fits_slot (h : t.Kept) (key : String) : t.Fits key (t.slot key) := by
  rw [slot]
  cases hs : t.slots.lookup key with
  | none =>
    have none := h.unused key hs
    rw [Option.getD_none]
    exact ⟨by rw [none]; rfl, by rw [none]; exact lock_freshLock, by simp [none]⟩
  | some s => exact (h.used key s hs).2

theorem Kept.slot_apart (h : t.Kept) {s : Slot} (hs : t.slots.lookup other = some s)
    (ho : other ≠ key) : s.lock ≠ (t.slot key).lock := by
  rw [slot]
  cases hk : t.slots.lookup key with
  | none => exact h.lock_ne_fresh hs
  | some s' => exact fun e => ho (h.apart other key s s' hs hk e)

theorem lock_enlist (number : Nat) : (t.enlist name key job).lock number =
    if number = (t.slot key).lock then (t.lock number).request name else t.lock number := by
  rw [lock, enlist, lookup_assign]
  split
  · next e => rw [Option.getD_some, e]
  · rfl

theorem Kept.fits_enlist (h : t.Kept) (name : ρ) (key : String) (job : Option β) :
    (t.enlist name key job).Fits key { t.slot key with users := (t.slot key).users + 1 } := by
  have fits := h.fits_slot key
  have queue : (t.enlist name key job).queue key =
      t.queue key ++ [⟨name, key, (t.slot key).lock, job, false⟩] := by
    rw [queue_enlist, if_pos rfl]
  refine ⟨?_, ?_, fun k hk => ?_⟩
  · rw [queue, List.length_append, ← fits.users]
    rfl
  · rw [lock_enlist, if_pos rfl, fits.lock, Lock.request_ofLine, queue, List.map_append]
    rfl
  · rw [queue] at hk
    rcases List.mem_append.mp hk with hk | hk
    · exact fits.tickets k hk
    · rw [List.mem_singleton.mp hk]

/-- A new request joins the users of its key. -/
theorem Kept.enlist (h : t.Kept) (new : ∀ k ∈ t.tickets, k.name ≠ name) :
    (t.enlist name key job).Kept where
  names := by
    refine List.pairwise_append.mpr ⟨h.names, List.pairwise_singleton .., fun k hk _ hn => ?_⟩
    rw [List.mem_singleton.mp hn]
    exact new k hk
  unused other hs := by
    rw [Turns.enlist, lookup_assign] at hs
    split at hs
    · exact absurd hs (by simp)
    · next ho => rw [queue_enlist, h.unused other hs, if_neg fun e => ho e.symm, List.nil_append]
  used other s hs := by
    rw [Turns.enlist, lookup_assign] at hs
    split at hs
    · next ho =>
      subst ho
      obtain rfl := Option.some.inj hs
      refine ⟨?_, h.fits_enlist name other job⟩
      rw [queue_enlist, if_pos rfl]
      simp
    · next ho =>
      obtain ⟨used, fits⟩ := h.used other s hs
      have same : (t.enlist name key job).queue other = t.queue other := by
        rw [queue_enlist, if_neg fun e => ho e.symm, List.append_nil]
      exact ⟨same ▸ used, fits.congr same ((lock_enlist _).trans (if_neg (h.slot_apart hs ho)))⟩
  apart first second s s' hs hs' e := by
    rw [Turns.enlist, lookup_assign] at hs hs'
    split at hs <;> split at hs'
    · next h₁ h₂ => exact h₁.trans h₂.symm
    · next h₁ h₂ =>
      -- A new slot gets a fresh lock, and an old one keeps its own.
      obtain rfl := Option.some.inj hs
      exact absurd e.symm (h.slot_apart hs' h₂)
    · next h₁ h₂ =>
      obtain rfl := Option.some.inj hs'
      exact absurd e (h.slot_apart hs h₁)
    · exact h.apart first second s s' hs hs' e

/-- The slot of a request. -/
theorem Kept.exists_slot (h : t.Kept) (hk : k ∈ t.tickets) :
    ∃ s, t.slots.lookup k.key = some s ∧ t.Fits k.key s ∧ k.lock = s.lock := by
  have there : k ∈ t.queue k.key := mem_queue.mpr ⟨hk, rfl⟩
  cases hs : t.slots.lookup k.key with
  | none => exact absurd (h.unused k.key hs ▸ there) List.not_mem_nil
  | some s =>
    have fits := (h.used k.key s hs).2
    exact ⟨s, rfl, fits, fits.tickets k there⟩

theorem Kept.distinct (h : t.Kept) (key : String) :
    ((t.queue key).map (·.name)).Pairwise (· ≠ ·) :=
  List.pairwise_map.mpr (h.names.filter _)

theorem Kept.names_other (h : t.Kept) (hk : k ∈ t.tickets) (ho : other ≠ k.key) :
    ∀ k' ∈ t.queue other, k'.name ≠ k.name := by
  intro k' hk' e
  obtain ⟨ht, hkey⟩ := mem_queue.mp hk'
  exact ho (hkey.symm.trans (congrArg _ (eq_of_key_eq h.names ht hk e)))

theorem Kept.line_names_other (h : t.Kept) (hk : k ∈ t.tickets) (ho : other ≠ k.key) :
    ∀ p ∈ t.line other, p.name ≠ k.name := by
  intro p hp
  obtain ⟨k', hk', hkey, rfl⟩ := mem_line.mp hp
  exact h.names_other hk ho k' (mem_queue.mpr ⟨hk', hkey⟩)

/-- The first request in line owns the key, and no other. -/
theorem Kept.owns_iff (h : t.Kept) (hk : k ∈ t.queue key) :
    t.Owns k ↔ (t.queue key).head? = some k := by
  have hkey := (mem_queue.mp hk).2
  subst hkey
  obtain ⟨s, _, fits, hlock⟩ := h.exists_slot (mem_queue.mp hk).1
  rw [Owns, hlock, fits.lock, Lock.holder_ofLine, List.head?_map, Option.map_eq_some_iff]
  constructor
  · rintro ⟨first, hf, hn⟩
    have there := List.mem_of_mem_head? hf
    rw [hf, eq_of_key_eq (h.names.filter _) there hk hn]
  · exact fun hf => ⟨k, hf, rfl⟩

theorem Kept.owns_iff_owner? (h : t.Kept) (hk : k ∈ t.tickets) :
    t.Owns k ↔ (t.line k.key).owner? = some k.name := by
  have there : k ∈ t.queue k.key := mem_queue.mpr ⟨hk, rfl⟩
  rw [h.owns_iff there, owner?_line, Option.map_eq_some_iff]
  constructor
  · exact fun hf => ⟨k, hf, rfl⟩
  · rintro ⟨first, hf, hn⟩
    rw [hf, eq_of_key_eq (h.names.filter _) (List.mem_of_mem_head? hf) there hn]

/-- The lock of a slot outlives the collection. -/
theorem lock_collect {s : Slot} (hs : t.slots.lookup key = some s) :
    t.collect.lock s.lock = t.lock s.lock := by
  obtain ⟨before, after, e, _⟩ := List.lookup_eq_some_iff.mp hs
  let referred (number : Nat) : Bool :=
    t.slots.any (fun e => e.2.lock = number) || t.tickets.any (fun k => k.lock = number)
  have there : referred s.lock = true := by
    rw [Bool.or_eq_true, List.any_eq_true]
    exact Or.inl ⟨(key, s), e ▸ by simp, by simp⟩
  exact congrArg (Option.getD · _) (lookup_filter there t.locks)

variable [DecidableEq ρ]

theorem lookup_finish {s : Slot} (hs : t.slots.lookup k.key = some s) (other : String) :
    (t.finish k).slots.lookup other =
      if other = k.key then if s.users ≤ 1 then none else some { s with users := s.users - 1 }
      else t.slots.lookup other := by
  rw [finish, collect, discharge, hs]
  dsimp only
  by_cases hu : s.users ≤ 1
  · rw [if_pos hu, if_pos hu, lookup_without]
  · rw [if_neg hu, if_neg hu, lookup_assign]

theorem lock_finish {s : Slot} (hs : (t.finish k).slots.lookup other = some s) :
    (t.finish k).lock s.lock =
      if s.lock = k.lock then (t.lock k.lock).leave k.name else t.lock s.lock := by
  rw [finish] at hs ⊢
  change (discharge _ _).slots.lookup other = some s at hs
  rw [lock_collect hs, lock, locks_discharge, lookup_assign]
  split <;> rfl

theorem Kept.length_finish (h : t.Kept) (hk : k ∈ t.tickets) :
    ((t.finish k).queue k.key).length = (t.queue k.key).length - 1 := by
  have erased : ((t.queue k.key).map (·.name)).filter (· != k.name) =
      ((t.queue k.key).map (·.name)).erase k.name :=
    (List.Nodup.erase_eq_filter (h.distinct k.key) k.name).symm
  have there : k.name ∈ (t.queue k.key).map (·.name) :=
    List.mem_map_of_mem (mem_queue.mpr ⟨hk, rfl⟩)
  calc ((t.finish k).queue k.key).length
      = (((t.queue k.key).map (·.name)).filter (· != k.name)).length := by
        rw [queue_finish, List.filter_map, List.length_map]
        refine congrArg List.length (List.filter_congr fun k' _ => ?_)
        rw [Function.comp_apply, decide_not, bne, Bool.beq_eq_decide_eq]
    _ = (t.queue k.key).length - 1 := by rw [erased, List.length_erase_of_mem there, List.length_map]

/-- A slot that is left has the lock that it had before. -/
theorem exists_slot_of_finish {s s' : Slot} (hs : t.slots.lookup k.key = some s)
    (hs' : (t.finish k).slots.lookup other = some s') :
    ∃ before, t.slots.lookup other = some before ∧ before.lock = s'.lock := by
  rw [lookup_finish hs] at hs'
  split at hs'
  · next ho =>
    subst ho
    split at hs'
    · exact absurd hs' (by simp)
    · obtain rfl := Option.some.inj hs'
      exact ⟨s, hs, rfl⟩
  · exact ⟨s', hs', rfl⟩

theorem Kept.queue_finish_other (h : t.Kept) (hk : k ∈ t.tickets) (ho : other ≠ k.key) :
    (t.finish k).queue other = t.queue other := by
  rw [queue_finish]
  exact List.filter_eq_self.mpr fun k' hk' => by simpa using h.names_other hk ho k' hk'

theorem Kept.fits_finish (h : t.Kept) (hk : k ∈ t.tickets) {s s' : Slot} (fits : t.Fits k.key s)
    (hs' : (t.finish k).slots.lookup k.key = some s') (users : s'.users = s.users - 1)
    (lock : s'.lock = s.lock) : (t.finish k).Fits k.key s' where
  users := by rw [users, fits.users, h.length_finish hk]
  lock := by
    have there : k ∈ t.queue k.key := mem_queue.mpr ⟨hk, rfl⟩
    have hlock : k.lock = s.lock := fits.tickets k there
    rw [lock_finish hs', if_pos (lock.trans hlock.symm), hlock, fits.lock,
      Lock.leave_ofLine (h.distinct k.key) (List.mem_map_of_mem there), queue_finish, List.filter_map]
    rfl
  tickets k' hk' := by
    rw [queue_finish] at hk'
    rw [lock]
    exact fits.tickets k' (List.mem_filter.mp hk').1

/-- A request that ends leaves the rest as it is. -/
theorem Kept.finish (h : t.Kept) (hk : k ∈ t.tickets) : (t.finish k).Kept := by
  obtain ⟨s, hs, fits, hlock⟩ := h.exists_slot hk
  have length := h.length_finish hk
  refine ⟨tickets_finish (t := t) ▸ h.names.filter _, fun other hs' => ?_, fun other s' hs' => ?_,
    fun first second s₁ s₂ h₁ h₂ e => ?_⟩
  · rw [lookup_finish hs] at hs'
    split at hs'
    · next ho =>
      -- The slot goes only with the last request in line.
      subst ho
      split at hs'
      · next hu => exact List.length_eq_zero_iff.mp (by rw [length, ← fits.users]; omega)
      · exact absurd hs' (by simp)
    · next ho => rw [h.queue_finish_other hk ho, h.unused other hs']
  · have found := hs'
    rw [lookup_finish hs] at hs'
    split at hs'
    · next ho =>
      subst ho
      split at hs'
      · exact absurd hs' (by simp)
      · next hu =>
        obtain rfl := Option.some.inj hs'
        have many : ((t.finish k).queue k.key).length ≠ 0 := by rw [length, ← fits.users]; omega
        exact ⟨fun e => many (by rw [e]; rfl), h.fits_finish hk fits found rfl rfl⟩
    · next ho =>
      obtain ⟨used, fits'⟩ := h.used other s' hs'
      have away : s'.lock ≠ k.lock := fun e => ho (h.apart other k.key s' s hs' hs (e.trans hlock))
      have same := h.queue_finish_other hk ho
      exact ⟨same ▸ used, fits'.congr same ((lock_finish found).trans (if_neg away))⟩
  · obtain ⟨s₁', h₁', e₁⟩ := exists_slot_of_finish hs h₁
    obtain ⟨s₂', h₂', e₂⟩ := exists_slot_of_finish hs h₂
    exact h.apart first second s₁' s₂' h₁' h₂' (e₁.trans (e.trans e₂.symm))

/-- That a request was served changes nothing for the others. -/
theorem Kept.serve (h : t.Kept) (k : Ticket ρ β) : (t.serve k).Kept := by
  let mark (k' : Ticket ρ β) : Ticket ρ β := if k'.name = k.name then { k' with served := true } else k'
  have name (k' : Ticket ρ β) : (mark k').name = k'.name := by
    dsimp only [mark]
    split <;> rfl
  have names (key : String) : ((t.serve k).queue key).map (·.name) = (t.queue key).map (·.name) := by
    rw [queue_serve, List.map_map]
    exact List.map_congr_left fun k' _ => name k'
  refine ⟨List.pairwise_map.mpr (h.names.imp fun {a b} hab => ?_), fun key hs => ?_,
    fun key s hs => ?_, h.apart⟩
  · rw [name a, name b]
    exact hab
  · rw [queue_serve, h.unused key hs]
    rfl
  · obtain ⟨used, fits⟩ := h.used key s hs
    refine ⟨fun e => used (by simpa [queue_serve] using e), ?_, ?_, fun k' hk' => ?_⟩
    · rw [queue_serve, List.length_map, fits.users]
    · rw [names, ← fits.lock]
      rfl
    · rw [queue_serve] at hk'
      obtain ⟨k'', hk'', rfl⟩ := List.mem_map.mp hk'
      rw [← fits.tickets k'' hk'']
      split <;> rfl

end Slots

/-! ## Steps -/

section Steps

/-- The request that makes a step. -/
def Step.name {ρ β : Type} : Step ρ β → ρ
  | .acquire name _ => name
  | .run name _ _ => name
  | .poll name => name
  | .drop name => name

/-- The key that a new request asks for. -/
def Step.key? {ρ β : Type} : Step ρ β → Option String
  | .acquire _ key => some key
  | .run _ key _ => some key
  | .poll _ => none
  | .drop _ => none

variable {ρ β : Type} [DecidableEq ρ] {t : Turns ρ β} {k : Ticket ρ β} {key other : String}
  {name : ρ} {s : Step ρ β}

/-- The key that a step is about: the key of the live request that makes it, or else the key that a
new request asks for. -/
def keyOf (t : Turns ρ β) (s : Step ρ β) : Option String :=
  match t.ticket? s.name with
  | some k => some k.key
  | none => s.key?

/-- The line of the key goes on as it does alone, and the other lines stay. -/
structure OnKey (t : Turns ρ β) (key : String) (out : Turns ρ β × TurnReply β)
    (alone : Line ρ β × TurnReply β) : Prop where
  kept : out.1.Kept
  moved : (out.1.line key, out.2) = alone
  others : ∀ other, other ≠ key → out.1.line other = t.line other

/-- In the line of its key a live request is found by its name. -/
theorem Kept.place?_line (h : t.Kept) (hk : k ∈ t.tickets) :
    (t.line k.key).place? k.name = some k.place := by
  have there : k.place ∈ t.line k.key := mem_line.mpr ⟨k, hk, rfl, rfl⟩
  cases hp : (t.line k.key).place? k.name with
  | none => exact absurd rfl (Line.place?_eq_none_iff.mp hp k.place there)
  | some p =>
    obtain ⟨k', hk', _, rfl⟩ := mem_line.mp (List.mem_of_find?_eq_some hp)
    have e : k'.name = k.name := of_decide_eq_true (List.find?_some hp :)
    rw [eq_of_key_eq h.names hk' hk e]

theorem Kept.place?_of_ticket? (h : t.Kept) (hk : t.ticket? name = some k) :
    k ∈ t.tickets ∧ k.name = name ∧ (t.line k.key).place? name = some k.place := by
  have there := List.mem_of_find?_eq_some hk
  have e : k.name = name := of_decide_eq_true (List.find?_some hk :)
  exact ⟨there, e, e ▸ h.place?_line there⟩

theorem place?_line_of_absent (hn : t.ticket? name = none) : (t.line key).place? name = none := by
  refine Line.place?_eq_none_iff.mpr fun p hp => ?_
  obtain ⟨k, hk, _, rfl⟩ := mem_line.mp hp
  exact ticket?_eq_none_iff.mp hn k hk

theorem Kept.onKey_finish (h : t.Kept) (hk : k ∈ t.tickets) (reply : TurnReply β) :
    t.OnKey k.key (t.finish k, reply) ((t.line k.key).leave k.name, reply) where
  kept := h.finish hk
  moved := by rw [line_finish]
  others other ho := by
    rw [line_finish]
    exact Line.leave_eq_self (h.line_names_other hk ho)

theorem Kept.onKey_look (h : t.Kept) (hk : k ∈ t.tickets) :
    t.OnKey k.key (t.look k) ((t.line k.key).look k.place) := by
  have stays (reply : TurnReply β) : t.OnKey k.key (t, reply) (t.line k.key, reply) :=
    ⟨h, rfl, fun _ _ => rfl⟩
  rw [look, Line.look]
  by_cases hs : k.served = true
  · rw [if_pos hs, if_pos (show k.place.served = true from hs)]
    exact stays .held
  · rw [if_neg hs, if_neg (show ¬ k.place.served = true from hs)]
    by_cases ho : t.Owns k
    · rw [if_pos (show (t.lock k.lock).holder = some k.name from ho),
        if_pos (show _ = some k.place.name from (h.owns_iff_owner? hk).mp ho)]
      show t.OnKey k.key (match k.job with | none => _ | some _ => _)
        (match k.job with | none => _ | some _ => _)
      cases k.job with
      | none =>
        refine ⟨h.serve k, by rw [line_serve]; rfl, fun other ho => ?_⟩
        rw [line_serve]
        exact Line.serve_eq_self (h.line_names_other hk ho)
      | some result => exact h.onKey_finish hk (.finished result)
    · rw [if_neg (show ¬ (t.lock k.lock).holder = some k.name from ho),
        if_neg (show ¬ _ = some k.place.name from fun e => ho ((h.owns_iff_owner? hk).mpr e))]
      exact stays .waiting

theorem Kept.onKey_poll (h : t.Kept) (hk : t.ticket? name = some k) :
    t.OnKey k.key (t.poll name) ((t.line k.key).poll name) := by
  obtain ⟨there, _, place⟩ := h.place?_of_ticket? hk
  rw [poll, hk, Line.poll, place]
  exact h.onKey_look there

/-- A new request joins the line of its key and looks. -/
theorem Kept.onKey_start (h : t.Kept) (hn : t.ticket? name = none) (job : Option β) :
    t.OnKey key (t.start name key job) ((t.line key).start name job) := by
  have joined : (t.enlist name key job).Kept := h.enlist (ticket?_eq_none_iff.mp hn)
  have line : (t.enlist name key job).line key = t.line key ++ [⟨name, job, false⟩] := by
    rw [line_enlist, if_pos rfl]
  obtain ⟨k, hk⟩ : ∃ k, (t.enlist name key job).ticket? name = some k := by
    refine Option.ne_none_iff_exists'.mp fun e => ?_
    exact ticket?_eq_none_iff.mp e _ (List.mem_append_right _ (List.mem_singleton_self _)) rfl
  have hkey : k.key = key := by
    have there : (⟨name, key, (t.slot key).lock, job, false⟩ : Ticket ρ β) ∈
        (t.enlist name key job).tickets := List.mem_append_right _ (List.mem_singleton_self _)
    obtain ⟨hk', e, _⟩ := joined.place?_of_ticket? hk
    rw [eq_of_key_eq joined.names hk' there e]
  have polled := joined.onKey_poll hk
  rw [hkey, line] at polled
  rw [start, hn, Line.start, place?_line_of_absent hn]
  refine ⟨polled.kept, polled.moved, fun other ho => ?_⟩
  rw [polled.others other ho, line_enlist, if_neg fun e => ho e.symm, List.append_nil]

/-- A step moves the line of its key as it moves alone, and no other. -/
theorem Kept.onKey_step (h : t.Kept) (hs : t.keyOf s = some key) :
    t.OnKey key (t.step s) ((t.line key).step s) := by
  rw [keyOf] at hs
  cases hk : t.ticket? s.name with
  | none =>
    rw [hk] at hs
    cases s with
    | acquire name key' =>
      obtain rfl := Option.some.inj hs
      exact h.onKey_start hk none
    | run name key' result =>
      obtain rfl := Option.some.inj hs
      exact h.onKey_start hk (some result)
    | poll name => exact absurd hs (by simp [Step.key?])
    | drop name => exact absurd hs (by simp [Step.key?])
  | some k =>
    rw [hk] at hs
    obtain rfl := Option.some.inj hs
    obtain ⟨there, hn, place⟩ := h.place?_of_ticket? hk
    -- A live request cannot be asked for again.
    have taken (job : Option β) (asked : String) :
        t.OnKey k.key (t.start s.name asked job) ((t.line k.key).start s.name job) := by
      rw [start, hk, Line.start, place]
      exact ⟨h, rfl, fun _ _ => rfl⟩
    cases s with
    | acquire name asked => exact taken none asked
    | run name asked result => exact taken (some result) asked
    | poll name => exact h.onKey_poll hk
    | drop name =>
      change t.ticket? name = some k at hk
      change k.name = name at hn
      change (t.line k.key).place? name = some k.place at place
      show t.OnKey k.key (t.drop name) ((t.line k.key).drop name)
      rw [drop, hk, Line.drop, place, ← hn]
      exact h.onKey_finish there _

/-- A step that is about no key changes nothing. -/
theorem step_of_keyOf_none (hs : t.keyOf s = none) : (t.step s).1 = t := by
  rw [keyOf] at hs
  cases hk : t.ticket? s.name with
  | some k => exact absurd (hk ▸ hs) (by simp)
  | none =>
    rw [hk] at hs
    cases s with
    | acquire name key => exact absurd hs (by simp [Step.key?])
    | run name key result => exact absurd hs (by simp [Step.key?])
    | poll name =>
      change t.ticket? name = none at hk
      rw [step, poll, hk]
    | drop name =>
      change t.ticket? name = none at hk
      rw [step, drop, hk]

theorem Kept.step (h : t.Kept) (s : Step ρ β) : (t.step s).1.Kept := by
  cases hs : t.keyOf s with
  | none => exact (step_of_keyOf_none hs).symm ▸ h
  | some key => exact (h.onKey_step hs).kept

theorem Kept.line_step_other (h : t.Kept) (hs : t.keyOf s ≠ some key) :
    (t.step s).1.line key = t.line key := by
  cases ho : t.keyOf s with
  | none => rw [step_of_keyOf_none ho]
  | some other => exact (h.onKey_step ho).others key fun e => hs (e ▸ ho)

end Steps

end Turns

end ChatMemory
