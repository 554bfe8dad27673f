import ChatMemory.Proofs.Errors
import ChatMemory.Proofs.Provenance
import ChatMemory.Proofs.Recovery
import ChatMemory.Proofs.Retry

/-!
# Stopping at any call

An operation may stop after any of its calls, say because its process ends. What it leaves then are
the tables after a beginning of its log (`Action.replay`). An operation that reports failures leaves the
same if all further calls fail (`Faults.cut`), so what is known of failed calls is known of every point
at which it may stop.

At every such point an operation that saves, changes or moves messages has lost none of them and lists
none twice, and it has left the messages alone that it does not name (`Contents.Unlost`).

## Main statements

* `Reports.replay` — the tables after the first calls of an operation.
* `Step.unlost` — what an operation on messages leaves.
* `unlost_at_every_call` — it leaves that wherever it stops.
-/

namespace ChatMemory

/-! ## The first calls of a run -/

/-- After some number of calls, all calls fail. -/
def Faults.cut (faults : Faults) (count : Nat) : Faults := fun made r =>
  if made < count then faults made r else some (FaultRule.failure r)

namespace Action

variable {α : Type} {k : Keyspace} {kind : MemoryError → Prop} {faults : Faults}

/-- The tables after some calls, of which those that fail change nothing. -/
def replay : List (Request × Option KvError) → Tables → Tables
  | [], t => t
  | (r, none) :: rest, t => replay rest (r.effect t)
  | (_, some _) :: rest, t => replay rest t

/-- A run leaves what all its calls leave. -/
theorem replay_log : ∀ (p : Action α) (w : World),
    replay (p.log faults w) w.tables = (p.run faults w).2.tables
  | .done _, _ => rfl
  | .fail _, _ => rfl
  | .call r next, w => by
    cases h : faults w.calls r with
    | none =>
      rw [run_call_success h, log_call_success h]
      exact replay_log (next (.ok (r.answer w.tables)))
        { w with tables := r.effect w.tables, calls := w.calls + 1 }
    | some failure =>
      rw [run_call_failure h, log_call_failure h]
      exact replay_log (next (.error failure)) { w with calls := w.calls + 1 }
  | .enter key next, w => replay_log next (w.enter key)
  | .leave _ next, w => replay_log next w.leave

/-- What the first calls of an action leave is what it leaves when all calls after them fail. -/
theorem Reports.replay : ∀ {p : Action α}, p.Reports k kind →
    ∀ {w : World} {calls : List (Request × Option KvError)}, calls <+: p.log faults w →
    replay calls w.tables = (p.run (faults.cut (w.calls + calls.length)) w).2.tables
  | .done _, _, _, _, h | .fail _, _, _, _, h => by
    rw [List.prefix_nil.mp h]
    rfl
  | .call r next, hp, w, [], _ => by
    obtain ⟨⟨code, context, _, fails⟩, _⟩ := hp
    have failed : faults.cut (w.calls + 0) w.calls r = some (FaultRule.failure r) :=
      if_neg (Nat.lt_irrefl _)
    rw [List.length_nil, run_call_failure failed, ((fails _).run _).2.1]
    rfl
  | .call r next, hp, w, c :: rest, h => by
    obtain ⟨⟨code, context, _, fails⟩, goesOn⟩ := hp
    have same : faults.cut (w.calls + (c :: rest).length) w.calls r = faults w.calls r :=
      if_pos (Nat.lt_add_of_pos_right (Nat.succ_pos _))
    cases hf : faults w.calls r with
    | some failure =>
      rw [log_call_failure hf, ((fails failure).run _).2.2] at h
      obtain ⟨rfl, none_left⟩ := List.cons_prefix_cons.mp h
      obtain rfl := List.prefix_nil.mp none_left
      rw [run_call_failure (same.trans hf), ((fails failure).run _).2.1]
      rfl
    | none =>
      rw [log_call_success hf] at h
      obtain ⟨rfl, begun⟩ := List.cons_prefix_cons.mp h
      rw [run_call_success (same.trans hf), List.length_cons, ← Nat.add_assoc, Nat.add_right_comm]
      exact (goesOn (r.answer w.tables)).replay begun
  | .enter key next, hp, w, calls, h => Reports.replay (p := next) hp (w := w.enter key) h
  | .leave _ next, hp, w, calls, h => Reports.replay (p := next) hp (w := w.leave) h

end Action

/-! ## No message is lost or listed twice -/

namespace Contents

variable {c c' : Contents} {k : Keyspace} {t : Tables} {tracking : Bool} {now : Instant}
  {active : Prop}

/-- Every order lists only messages that its thread has. -/
def Backed (c : Contents) : Prop := ∀ {thread id}, c.Lists thread id → c.Holds thread id

/-- Contents in which, compared to earlier ones, no message is lost and none is listed twice. -/
structure Unlost (names : String → Prop) (c c' : Contents) : Prop where
  /-- What an order lists has a record in its thread, which decodes and tells the id and the thread. -/
  listed : ∀ {thread id}, c'.Lists thread id →
    ∃ x, (c'.view id).IsRecord thread x ∧ x.threadId = thread ∧ x.id = id
  /-- No message is listed by two orders. -/
  once : ∀ {thread other id}, c'.Lists thread id → c'.Lists other id → thread = other
  /-- A message that was stored has a record that decodes in a thread that there is. -/
  kept : ∀ {id}, c.IsStored id → ∃ home, c'.HasThread home ∧ ∃ x, (c'.view id).IsRecord home x
  /-- A message that is not named has the same records, scores and pointer. -/
  others : ∀ id, ¬ names id → c'.view id = c.view id

theorem Sound.aligned (h : c.Sound) : c.Aligned where
  placed {thread id r} hr := by
    obtain ⟨⟨there, _⟩, x, hx, told⟩ := h.placed hr
    refine ⟨there, ?_⟩
    rw [Message.Agrees, hx]
    exact told
  unique := h.unique
  listed := h.listed

theorem Sound.decodes (h : c.Sound) (id : String) : (c.view id).Decodes := by
  intro thread hh
  obtain ⟨r, hr⟩ := Option.ne_none_iff_exists'.mp hh
  obtain ⟨_, x, hx, _⟩ := h.placed hr
  exact ⟨x, r, hr, hx⟩

/-- Records that are new decode if their dates can be written. -/
theorem decodes_of_renewed {w w' : View} (h : w.Renewed (·.createdAt.FourDigit) w')
    (decodes : w.Decodes) : w'.Decodes := by
  intro thread hh
  obtain ⟨r, hr⟩ := Option.ne_none_iff_exists'.mp hh
  rcases h thread r hr with old | ⟨x, dated, writes⟩
  · obtain ⟨x, r', hr', hx⟩ := decodes thread (by rw [View.Holds, old]; exact Option.some_ne_none r)
    obtain rfl := Option.some.inj (old.symm.trans hr')
    exact ⟨x, r, hr, hx⟩
  · exact ⟨x, r, hr, writes.ofRecord dated⟩

/-- Changes keep the dates of messages in years of four digits. -/
theorem makes_dated {op : Operation} (hd : op.Dated Instant.FourDigit) :
    op.Makes (·.createdAt.FourDigit) := by
  cases op with
  | saveMessages ms => exact hd
  | updateMessages us =>
    intro u hu x dated
    rw [Message.apply_createdAt]
    cases date : u.createdAt with
    | none => exact dated
    | some d => exact hd u hu d date
  | _ => trivial

/-- What an operation on messages leaves of sound contents, whether it comes to its end or is
stopped. -/
theorem Step.unlost {op : Operation} (step : Step .agreeing tracking now active c c' op)
    (edits : op.Edits) (sound : c.Sound) (orderly : Orderly .agreeing c) (backed : c.Backed)
    (hd : op.Dated Instant.FourDigit)
    (dated : ∀ id, op.Names id → (c.view id).Reads (·.createdAt.FourDigit)) :
    Unlost (Operation.Names · op) c c' := by
  obtain ⟨follows, torn, stored⟩ := step.torn edits orderly sound.aligned.whole
  have decodes : ∀ id, (c'.view id).Decodes := by
    intro id
    by_cases hid : op.Names id
    · refine decodes_of_renewed (step.renewed ?_ (makes_dated hd) (dated id hid)) (sound.decodes id)
      exact fun _ _ date => date
    · rw [follows.within.view id hid]
      exact sound.decodes id
  -- An order of what is no thread has listed nothing, and nothing is added to it.
  have holds : ∀ {thread id}, c'.Lists thread id → c'.Holds thread id := by
    intro thread id hl
    have there : c'.HasThread thread := by
      rw [follows.within.threads]
      refine Classical.byContradiction fun absent => ?_
      exact absent (orderly.hasThread (backed (follows.within.lists thread id absent hl)))
    obtain ⟨origin, destination, torn⟩ := torn id
    exact torn.lists thread there hl
  refine ⟨fun {thread id} hl => ?_, fun {thread other id} hl ho => ?_, fun {id} hs => ?_,
    fun id hid => follows.within.view id hid⟩
  · obtain ⟨x, hx⟩ := decodes id thread (holds hl)
    obtain ⟨hthread, hid, _⟩ := follows.orderly.isRecord hx
    exact ⟨x, hx, hthread, hid⟩
  · obtain ⟨origin, destination, torn⟩ := torn id
    have loose := torn.loose fun _ hh => follows.orderly.housed hh
    exact loose thread other (holds hl) (holds ho) hl ho
  · obtain ⟨home, hh⟩ := stored id hs
    exact ⟨home, follows.orderly.hasThread hh, decodes id home hh⟩

end Contents

namespace Store

open Action Contents

/--
From sound contents, an operation saves, changes or moves messages, with dates in years of four digits.
Whatever calls of it fail and after whichever call it stops: what an order lists has a record in its
thread that decodes and names it, no message is listed twice, every message that was stored has a
record that decodes in a thread that there is, and messages that the operation does not name are as
they were. The records of a batch are written at the same time, so this is said of any schedule.
-/
theorem unlost_at_every_call (s : Store) {w : World} (sound : (s.keys.contents w.tables).Sound)
    (backed : (s.keys.contents w.tables).Backed) (now : Instant) {op : Operation}
    (edits : op.Edits) (hd : op.Dated Instant.FourDigit)
    (dated : ∀ id, op.Names id →
      ((s.keys.contents w.tables).view id).Reads (·.createdAt.FourDigit))
    (schedule : Schedule) (faults : Faults) {calls : List (Request × Option KvError)}
    (begun : calls <+: (s.perform now op schedule).log faults w) :
    Unlost (Operation.Names · op) (s.keys.contents w.tables)
      (s.keys.contents (replay calls w.tables)) := by
  have changes : op.fallback? = none := by
    cases op with
    | saveMessages _ | updateMessages _ | migrateMessage _ _ _ => rfl
    | _ => exact edits.elim
  have orderly := sound.aligned.orderly
  have undated : op.Dated (RecordRule.agreeing).dates := op.dated_of_forall fun _ => trivial
  have step := s.step_performEdits now (faults.cut (w.calls + calls.length)) w schedule edits orderly
    undated
  rw [← (s.reports_changes now changes schedule).replay begun] at step
  exact step.unlost edits sound orderly backed hd dated

end Store

/-! ## A sample -/

namespace Sample

variable {tracking : Bool} {home : String}

theorem backed : ((store tracking).keys.contents (world tracking home).tables).Backed :=
  fun {thread id} hl => (consistent.lists_iff_holds thread id).mp hl

/-- The first calls of a move of the message. -/
def begun (tracking : Bool) (origin destination : String) (count : Nat) :
    List (Request × Option KvError) :=
  (((store tracking).perform now (.migrateMessage "m" origin destination)).log Faults.none
    (world tracking origin)).take count

end Sample

namespace Store

open Action Contents

/-- A move that is stopped after its fifth call: both threads have the message. -/
theorem unlost_between_threads :
    let before := (Sample.store true).keys.contents (Sample.world true "b").tables
    let after := (Sample.store true).keys.contents
      (replay (Sample.begun true "b" "a" 5) (Sample.world true "b").tables)
    before.Sound ∧ before.Backed ∧ before.Holds "b" "m" ∧ after.Holds "a" "m" ∧ after.Holds "b" "m" ∧
      Unlost (· = "m") before after := by
  intro before after
  obtain ⟨sound, dated⟩ := Sample.sound true "b" (by decide +kernel)
  have edits : (Operation.migrateMessage "m" "b" "a").Edits := trivial
  refine ⟨sound, Sample.backed, Sample.holds_of_isSome (by decide +kernel),
    Sample.holds_of_isSome (by decide +kernel), Sample.holds_of_isSome (by decide +kernel), ?_⟩
  exact unlost_at_every_call (Sample.store true) sound Sample.backed Sample.now edits trivial
    (fun _ _ _ _ ⟨_, hr, hx⟩ => dated hr hx) .inOrder Faults.none (List.take_prefix 5 _)

end Store

end ChatMemory
