import ChatMemory.Proofs.InTurn
import ChatMemory.Proofs.Moving

/-!
# Saving a batch

A batch is checked as a whole, its messages are brought to the threads that they name, and then each
thread gets its part. What happens to one message does not depend on the others, since no id occurs
twice in a batch: the message is homed (`View.Homed`) and then saved (`View.saved`).

## Main statements

* `batchViolations_eq_nil` — what the check of a batch asks for.
* `ends_saveMessages` — what saving a batch does to each of its messages.
-/

namespace ChatMemory

/-- A message with all that is saved besides its id and its thread: a resource whose identifier keeps
the rules, and content. -/
structure Message.Complete (m : Message) : Prop where
  resource : ∃ id, m.resourceId = some id ∧ Identifier.Valid id
  content : m.content.isEmpty = false

namespace View

variable (w : View) (tracking : Bool) (v : Message) (position : Nat)

/-- The record of a saved message. -/
def recorded : View := w.setRecord v.threadId (some (v.toRecord position))

/-- Besides, its thread is noted. -/
def written : View := (w.recorded v position).noted tracking v.threadId

/-- The view after a message was saved. -/
def saved : View := (w.written tracking v position).list v.threadId (scoreFor v.createdAt position)

/-- The views in which an operation that saves the message may end with an error: with the message
written but not listed only if a call failed. -/
def Saving (active : Prop) (w' : View) : Prop :=
  w' = w ∨ w' = w.saved tracking v position ∨
    (active ∧ (w' = w.recorded v position ∨ w' = w.written tracking v position))

/-- What becomes of a message of a batch. -/
def Stored (now : Instant) (has : String → Prop) (w' : View) : Prop :=
  ∃ w₁, w.Homed tracking now has v.threadId w₁ ∧ w' = w₁.saved tracking v position

/-- What may have become of a message of a batch when the operation ends with an error. -/
def Storing (now : Instant) (has : String → Prop) (active : Prop) (w' : View) : Prop :=
  w.Homing tracking now has v.threadId active w' ∨
    ∃ w₁, w.Homed tracking now has v.threadId w₁ ∧ w₁.Saving tracking v position active w'

end View

namespace Store

open Action Contents

/-! ## The check of a batch -/

theorem messageViolations_eq_nil {earlier : List String} {position : Nat} {m : Message} :
    messageViolations earlier position m = [] ↔
      Identifier.ValidMessage m.id ∧ Identifier.Valid m.threadId ∧ m.Complete ∧ m.id ∉ earlier := by
  cases hr : m.resourceId with
  | none =>
    have missing : ¬ m.Complete := fun ⟨⟨id, hid, _⟩, _⟩ => absurd (hr.symm.trans hid) (by simp)
    simp [messageViolations, hr, missing]
  | some resource =>
    have complete : m.Complete ↔ Identifier.Valid resource ∧ m.content.isEmpty = false := by
      refine ⟨fun ⟨⟨id, hid, valid⟩, hc⟩ => ⟨?_, hc⟩, fun ⟨valid, hc⟩ => ⟨⟨resource, hr, valid⟩, hc⟩⟩
      exact Option.some.inj (hr.symm.trans hid) ▸ valid
    simp only [messageViolations, hr, List.append_eq_nil_iff, Identifier.messageViolations_eq_nil,
      Identifier.violations_eq_nil, complete]
    constructor
    · rintro ⟨⟨⟨⟨hi, ht⟩, valid⟩, hc⟩, hrep⟩
      refine ⟨hi, ht, ⟨valid, by simpa using hc⟩, fun hm => ?_⟩
      rw [if_pos ⟨hi.1.ne_empty, hm⟩] at hrep
      exact absurd hrep (by simp)
    · rintro ⟨hi, ht, ⟨valid, hc⟩, hno⟩
      exact ⟨⟨⟨⟨hi, ht⟩, valid⟩, by simp [hc]⟩, if_neg fun hm => hno hm.2⟩

/-- A batch passes the check if its messages have what they need and no id comes twice. -/
theorem batchViolations_eq_nil : ∀ {messages : List Message} {earlier : List String} {position : Nat},
    batchViolations earlier position messages = [] ↔
      (∀ v ∈ messages, Identifier.ValidMessage v.id ∧ Identifier.Valid v.threadId ∧ v.Complete ∧
        v.id ∉ earlier) ∧ messages.Pairwise (·.id ≠ ·.id)
  | [], _, _ => by simp [batchViolations]
  | m :: rest, earlier, position => by
    rw [batchViolations, List.append_eq_nil_iff, messageViolations_eq_nil, batchViolations_eq_nil,
      List.forall_mem_cons, List.pairwise_cons]
    constructor
    · rintro ⟨first, later, distinct⟩
      refine ⟨⟨first, fun v hv => ?_⟩, fun v hv e => ?_, distinct⟩
      · obtain ⟨hi, ht, complete, hno⟩ := later v hv
        exact ⟨hi, ht, complete, fun hm => hno (List.mem_cons_of_mem _ hm)⟩
      · exact (later v hv).2.2.2 (e ▸ List.mem_cons_self)
    · rintro ⟨⟨first, later⟩, apart, distinct⟩
      refine ⟨first, fun v hv => ?_, distinct⟩
      obtain ⟨hi, ht, complete, hno⟩ := later v hv
      refine ⟨hi, ht, complete, fun hm => ?_⟩
      exact (List.mem_cons.mp hm).elim (fun e => apart v hv e.symm) hno

/-! ## The parts of a batch -/

theorem mem_batchOf {messages : List Message} {thread : String} {e : Message × Nat} :
    e ∈ batchOf messages thread ↔ e ∈ messages.zipIdx ∧ e.1.threadId = thread := by
  rw [batchOf, List.mem_filter, decide_eq_true_iff]

theorem mem_batchThreads {messages : List Message} {thread : String} :
    thread ∈ batchThreads messages ↔ ∃ v ∈ messages, v.threadId = thread := by
  rw [batchThreads, Sorting.mem_sort, mem_distinct, List.mem_map]

theorem pairwise_batchThreads (messages : List Message) :
    (batchThreads messages).Pairwise (· ≠ ·) :=
  (Sorting.sort_perm _ _).symm.pairwise (nodup_distinct _) fun h => Ne.symm h

theorem exists_position {α : Type} {items : List α} {v : α} (h : v ∈ items) :
    ∃ position, (v, position) ∈ items.zipIdx := by
  obtain ⟨position, hp⟩ := List.mem_iff_getElem?.mp h
  exact ⟨position, List.mk_mem_zipIdx_iff_getElem?.mpr hp⟩

theorem pairwise_zipIdx {messages : List Message} (h : messages.Pairwise (·.id ≠ ·.id)) :
    messages.zipIdx.Pairwise (·.1.id ≠ ·.1.id) := by
  have h' : (messages.zipIdx.map Prod.fst).Pairwise (·.id ≠ ·.id) := by
    rwa [List.zipIdx_map_fst]
  exact (List.pairwise_map (f := Prod.fst) (R := fun a b : Message => a.id ≠ b.id)).mp h'

variable {s : Store} {faults : Faults} {R : RecordRule} {c : Contents} {now : Instant}
  {schedule : Schedule}

/-! ## Writing -/

theorem ends_requireThreads (threads : List String) :
    Ends s.keys faults (Action.forAll s.requireThread threads) c
      (fun _ c' => c' = c ∧ ∀ thread ∈ threads, ∃ t, c.IsThread thread t)
      (fun _ c' => c' = c) := by
  refine (Ends.forAll (I := fun rest c' => c' = c ∧
    ∀ thread ∈ threads, thread ∉ rest → ∃ t, c.IsThread thread t) ?_ ⟨rfl, ?_⟩).mono
    (fun _ c' h => ⟨h.1, fun thread ht => h.2 thread ht List.not_mem_nil⟩) fun _ _ h => h
  · rintro thread rest c' ⟨rfl, known⟩
    refine (ends_requireThread thread).mono (fun _ c'' h => ?_) fun _ _ h => h
    refine ⟨h.1, fun other ho hno => ?_⟩
    by_cases e : other = thread
    · exact e ▸ h.2
    · exact known other ho fun hm => (List.mem_cons.mp hm).elim e hno
  · exact fun thread ht hno => absurd ht hno

theorem ends_writeOfBatch (h : Orderly R c) {v : Message} (position : Nat)
    (hi : Identifier.ValidMessage v.id) (there : c.HasThread v.threadId)
    (ht : R.threads v.threadId) (hd : R.dates v.createdAt) :
    Ends s.keys faults (s.writeOfBatch (v, position)) c
      (fun _ c' => Follows R (· = v.id) c c' ∧
        c'.view v.id = (c.view v.id).written s.config.trackMessageThreads v position)
      (fun _ c' => faults.Active ∧ Follows R (· = v.id) c c' ∧
        (c'.view v.id = c.view v.id ∨ c'.view v.id = (c.view v.id).recorded v position)) := by
  have f₀ : Follows R (· = v.id) c c := .refl h
  refine (f₀.ends_write rfl there ht hi (R.record ht hi hd position)).andThen ?_
    fun _ c₁ ⟨f₁, v₁⟩ => ?_
  · rintro _ _ ⟨rfl, ha⟩
    exact ⟨ha, f₀, Or.inl rfl⟩
  refine (f₁.ends_note rfl _).mono (fun _ c₂ ⟨f₂, v₂⟩ => ⟨f₂, ?_⟩) ?_
  · rw [v₂, v₁, View.written, View.recorded]
  · rintro _ _ ⟨rfl, ha⟩
    exact ⟨ha, f₁, Or.inr v₁⟩

theorem within_writeOfBatch (s : Store) (e : Message × Nat) :
    (s.writeOfBatch e).Within (s.keys.rowsOf e.1.threadId e.1.id) :=
  only_bind (only_ask ⟨_, rfl, Or.inl rfl⟩) fun _ => s.within_notePointer e.1.threadId e.1.id

/-- The messages of a part have no row in common. -/
theorem apart_batchOf (s : Store) {messages : List Message} (hdis : messages.Pairwise (·.id ≠ ·.id))
    {thread : String} (plain : Plain thread) :
    ((batchOf messages thread).map s.writeOfBatch).Pairwise Action.Apart := by
  refine List.pairwise_map.mpr ?_
  refine ((pairwise_zipIdx hdis).filter _).imp_of_mem fun {e e'} he he' hne => ?_
  refine (s.within_writeOfBatch e).apart (s.within_writeOfBatch e') ?_
  rw [(mem_batchOf.mp he).2, (mem_batchOf.mp he').2]
  exact Keyspace.not_rowsOf plain hne

theorem sure_writeOfBatch (s : Store) (e : Message × Nat) : (s.writeOfBatch e).Sure :=
  sure_bind sure_ask fun _ => s.sure_notePointer e.1.threadId e.1.id

/-- The score that a part of a batch gives one of its messages. -/
theorem entryScore_batchOf {messages : List Message} (hdis : messages.Pairwise (·.id ≠ ·.id))
    {thread : String} {e : Message × Nat} (he : e ∈ batchOf messages thread) :
    entryScore ((batchOf messages thread).map fun (m, i) => ⟨m.id, scoreFor m.createdAt i⟩) e.1.id
      = some (scoreFor e.1.createdAt e.2) := by
  rw [entryScore, Option.map_eq_some_iff]
  refine ⟨⟨e.1.id, scoreFor e.1.createdAt e.2⟩, ?_, rfl⟩
  rw [List.find?_map]
  cases hf : (batchOf messages thread).find?
      ((fun o : OrderEntry => decide (o.id = e.1.id)) ∘ fun x : Message × Nat =>
        ⟨x.1.id, scoreFor x.1.createdAt x.2⟩) with
  | none => exact absurd (List.find?_eq_none.mp hf e he) (by simp)
  | some o =>
    have ho : o.1.id = e.1.id := by simpa using List.find?_some hf
    have hmem := (mem_batchOf.mp (List.mem_of_find?_eq_some hf)).1
    rw [eq_of_key_eq (pairwise_zipIdx hdis) hmem (mem_batchOf.mp he).1 ho]
    rfl

/-- Each thread of a batch gets its part. -/
theorem ends_saveInto (h : Orderly R c) {messages : List Message}
    (hdis : messages.Pairwise (·.id ≠ ·.id))
    (hv : ∀ v ∈ messages, Identifier.ValidMessage v.id ∧ R.dates v.createdAt) {thread : String}
    (there : c.HasThread thread) (ht : R.threads thread) :
    Ends s.keys faults (s.saveInto now messages thread schedule) c
      (fun _ c' => Follows R (fun id => ∃ e ∈ batchOf messages thread, id = e.1.id) c c' ∧
        ∀ e ∈ batchOf messages thread, c'.view e.1.id
          = (c.view e.1.id).saved s.config.trackMessageThreads e.1 e.2)
      (fun _ c' => Follows R (fun id => ∃ e ∈ batchOf messages thread, id = e.1.id) c c' ∧
        ∀ e ∈ batchOf messages thread, (c.view e.1.id).Saving s.config.trackMessageThreads e.1 e.2
          faults.Active (c'.view e.1.id)) := by
  -- The records.
  refine (ends_together_single (fun e => e.1.id)
    (L := fun e w w' => w' = w.written s.config.trackMessageThreads e.1 e.2)
    (P := fun e w w' => w' = w ∨ w' = w.recorded e.1 e.2) ((pairwise_zipIdx hdis).filter _)
    (apart_batchOf s hdis (R.plain ht)) (fun e _ => s.sure_writeOfBatch e) ?_ h).andThen ?_
    fun _ c₁ ⟨f₁, v₁⟩ => ?_
  · intro faults e he c₀ f₀
    obtain ⟨hmem, heq⟩ := mem_batchOf.mp he
    obtain ⟨hi, hd⟩ := hv e.1 (List.fst_mem_of_mem_zipIdx hmem)
    have there₀ : c₀.HasThread e.1.threadId := by rwa [heq, f₀.within.threads]
    exact (ends_writeOfBatch f₀.orderly e.2 hi there₀ (by rwa [heq]) hd).mono (fun _ _ h => h)
      fun _ _ h => h.2
  · rintro _ c' ⟨ha, f, v⟩
    refine ⟨f, fun e he => ?_⟩
    rcases v e he with v | (v | v) | v
    · exact Or.inr (Or.inr ⟨ha, Or.inr v⟩)
    · exact Or.inl v
    · exact Or.inr (Or.inr ⟨ha, Or.inl v⟩)
    · exact Or.inl v
  -- The order.
  have named : ∀ o ∈ (batchOf messages thread).map fun (m, i) =>
      (⟨m.id, scoreFor m.createdAt i⟩ : OrderEntry),
      ∃ e ∈ batchOf messages thread, o.id = e.1.id := by
    intro o ho
    obtain ⟨e, he, rfl⟩ := List.mem_map.mp ho
    exact ⟨e, he, rfl⟩
  refine (f₁.ends_add there (R.plain ht) named).andThen ?_ fun _ c₂ ⟨f₂, v₂⟩ => ?_
  · rintro _ _ ⟨rfl, ha⟩
    exact ⟨f₁, fun e he => Or.inr (Or.inr ⟨ha, Or.inr (v₁ e he)⟩)⟩
  replace v₂ : ∀ e ∈ batchOf messages thread, c₂.view e.1.id
      = (c.view e.1.id).saved s.config.trackMessageThreads e.1 e.2 := by
    intro e he
    rw [v₂, entryScore_batchOf hdis he, v₁ e he, ← (mem_batchOf.mp he).2]
    rfl
  -- The thread.
  refine (f₂.ends_touch there now).mono (fun _ c₃ ⟨f₃, v₃⟩ => ?_) ?_
  · exact ⟨f₃, fun e he => (v₃ _).trans (v₂ e he)⟩
  · rintro _ _ rfl
    exact ⟨f₂, fun e he => Or.inr (Or.inl (v₂ e he))⟩

/-- Every message of a batch is brought to its thread. -/
theorem ends_fetchHomes (h : Orderly R c) {messages : List Message}
    (valid : ∀ v ∈ messages, Identifier.ValidMessage v.id)
    (hdis : messages.Pairwise (·.id ≠ ·.id)) :
    Ends s.keys faults (Action.forAll (s.fetchHome now) messages) c
      (fun _ c' => Follows R (fun id => ∃ v ∈ messages, id = v.id) c c' ∧
        ∀ v ∈ messages, (c.view v.id).Homed s.config.trackMessageThreads now c.HasThread v.threadId
          (c'.view v.id))
      (fun _ c' => Follows R (fun id => ∃ v ∈ messages, id = v.id) c c' ∧
        ∀ v ∈ messages, (c.view v.id).Homed s.config.trackMessageThreads now c.HasThread v.threadId
            (c'.view v.id) ∨
          (c.view v.id).Homing s.config.trackMessageThreads now c.HasThread v.threadId faults.Active
            (c'.view v.id)) := by
  refine (ends_forAll_single (fun v => v.id) (F := True)
    (L := fun v w w' => w.Homed s.config.trackMessageThreads now c.HasThread v.threadId w')
    (P := fun v w w' => w.Homing s.config.trackMessageThreads now c.HasThread v.threadId
      faults.Active w') hdis ?_ h).mono (fun _ _ h => h) ?_
  · intro v hv c₀ f₀
    rw [← f₀.within.threads]
    exact (ends_fetchHome f₀.orderly (valid v hv)).mono (fun _ _ h => h) fun _ _ h => ⟨trivial, h⟩
  · rintro _ c' ⟨_, f, hw⟩
    exact ⟨f, fun v hv => (hw v hv).imp_right fun hw => hw.elim id Or.inl⟩

/-- Every thread of a batch gets its part. The threads do not matter to each other, since no message
is in two parts. -/
theorem ends_saveParts (h : Orderly R c) {messages : List Message}
    (hdis : messages.Pairwise (·.id ≠ ·.id))
    (hv : ∀ v ∈ messages, Identifier.ValidMessage v.id ∧ R.dates v.createdAt)
    (there : ∀ v ∈ messages, c.HasThread v.threadId ∧ R.threads v.threadId) :
    Ends s.keys faults (Action.forAll (s.saveInto now messages · schedule) (batchThreads messages)) c
      (fun _ c' => Follows R (fun id => ∃ v ∈ messages, id = v.id) c c' ∧
        ∀ e ∈ messages.zipIdx, c'.view e.1.id
          = (c.view e.1.id).saved s.config.trackMessageThreads e.1 e.2)
      (fun _ c' => Follows R (fun id => ∃ v ∈ messages, id = v.id) c c' ∧
        ∀ e ∈ messages.zipIdx, (c.view e.1.id).Saving s.config.trackMessageThreads e.1 e.2
          faults.Active (c'.view e.1.id)) := by
  have apart : (batchThreads messages).Pairwise fun a b => ∀ id,
      (∃ e ∈ batchOf messages a, id = e.1.id) → ¬ ∃ e ∈ batchOf messages b, id = e.1.id := by
    refine (pairwise_batchThreads messages).imp fun hne id ⟨e, he, hid⟩ ⟨e', he', hid'⟩ => hne ?_
    have := eq_of_key_eq (pairwise_zipIdx hdis) (mem_batchOf.mp he).1 (mem_batchOf.mp he').1
      (hid.symm.trans hid')
    rw [← (mem_batchOf.mp he).2, this, (mem_batchOf.mp he').2]
  have among : ∀ id, (∃ t ∈ batchThreads messages, ∃ e ∈ batchOf messages t, id = e.1.id) →
      ∃ v ∈ messages, id = v.id := fun id ⟨_, _, e, he, hid⟩ =>
    ⟨e.1, List.fst_mem_of_mem_zipIdx (mem_batchOf.mp he).1, hid⟩
  have part : ∀ e ∈ messages.zipIdx, e.1.threadId ∈ batchThreads messages ∧
      e ∈ batchOf messages e.1.threadId := fun e he =>
    ⟨mem_batchThreads.mpr ⟨e.1, List.fst_mem_of_mem_zipIdx he, rfl⟩, mem_batchOf.mpr ⟨he, rfl⟩⟩
  refine (ends_forAll_local (fun t id => ∃ e ∈ batchOf messages t, id = e.1.id) (F := True)
    (L := fun t id w w' => ∀ e ∈ batchOf messages t, id = e.1.id →
      w' = w.saved s.config.trackMessageThreads e.1 e.2)
    (P := fun t id w w' => ∀ e ∈ batchOf messages t, id = e.1.id →
      w.Saving s.config.trackMessageThreads e.1 e.2 faults.Active w') apart ?_ h).mono ?_ ?_
  · intro thread hthread c₀ f₀
    obtain ⟨v, hm, rfl⟩ := mem_batchThreads.mp hthread
    have there₀ : c₀.HasThread v.threadId := by
      rw [f₀.within.threads]
      exact (there v hm).1
    refine (ends_saveInto f₀.orderly hdis hv there₀ (there v hm).2).mono ?_ ?_
    · rintro _ c' ⟨f, hw⟩
      exact ⟨f, by rintro _ _ e he rfl; exact hw e he⟩
    · rintro _ c' ⟨f, hw⟩
      exact ⟨trivial, f, by rintro _ _ e he rfl; exact hw e he⟩
  · rintro _ c' ⟨f, hw⟩
    refine ⟨f.mono among, fun e he => ?_⟩
    exact hw _ (part e he).1 _ ⟨e, (part e he).2, rfl⟩ e (part e he).2 rfl
  · rintro _ c' ⟨_, f, hw⟩
    refine ⟨f.mono among, fun e he => ?_⟩
    rcases hw _ (part e he).1 _ ⟨e, (part e he).2, rfl⟩ with hw | hw | hw
    · exact Or.inr (Or.inl (hw e (part e he).2 rfl))
    · exact hw e (part e he).2 rfl
    · exact Or.inl hw

/-- What saving a batch does to each of its messages. -/
theorem ends_saveMessages (h : Orderly R c) {messages : List Message}
    (hd : ∀ v ∈ messages, R.dates v.createdAt) :
    Ends s.keys faults (s.saveMessages now messages schedule) c
      (fun ms c' => ms = messages ∧ messages.Pairwise (·.id ≠ ·.id) ∧
        (∀ v ∈ messages, Identifier.ValidMessage v.id ∧ c.HasThread v.threadId) ∧
        Follows R (fun id => ∃ v ∈ messages, id = v.id) c c' ∧
        ∀ e ∈ messages.zipIdx, (c.view e.1.id).Stored s.config.trackMessageThreads e.1 e.2 now
          c.HasThread (c'.view e.1.id))
      (fun _ c' => c' = c ∨ ((∀ v ∈ messages, c.HasThread v.threadId) ∧
        Follows R (fun id => ∃ v ∈ messages, id = v.id) c c' ∧
        ∀ e ∈ messages.zipIdx, (c.view e.1.id).Storing s.config.trackMessageThreads e.1 e.2 now
          c.HasThread faults.Active (c'.view e.1.id))) := by
  refine (ends_check _).andThen (fun _ _ he => Or.inl he.1) fun _ c' hc => ?_
  obtain ⟨rfl, checked⟩ := hc
  obtain ⟨valid, hdis⟩ := batchViolations_eq_nil.mp checked
  refine ends_ite (fun he => ?_) fun _ => ?_
  · rw [List.isEmpty_iff.mp he]
    exact ends_pure ⟨rfl, .nil, by simp, .refl h, by simp⟩
  refine (ends_requireThreads _).andThen (fun _ _ he => Or.inl he) fun _ c' hc => ?_
  obtain ⟨rfl, known⟩ := hc
  have there : ∀ v ∈ messages, c'.HasThread v.threadId := fun v hv => by
    obtain ⟨t, ht⟩ := known v.threadId (mem_batchThreads.mpr ⟨v, hv, rfl⟩)
    exact ht.hasThread (valid v hv).2.1.ne_empty
  refine (ends_fetchHomes h (fun v hv => (valid v hv).1) hdis).andThen ?_ fun _ c₁ ⟨f₁, v₁⟩ => ?_
  · rintro _ c₁ ⟨f, hw⟩
    refine Or.inr ⟨there, f, fun e he => ?_⟩
    rcases hw e.1 (List.fst_mem_of_mem_zipIdx he) with hw | hw
    · exact Or.inr ⟨_, hw, Or.inl rfl⟩
    · exact Or.inl hw
  have homed : ∀ e ∈ messages.zipIdx, (c'.view e.1.id).Homed s.config.trackMessageThreads now
      c'.HasThread e.1.threadId (c₁.view e.1.id) :=
    fun e he => v₁ e.1 (List.fst_mem_of_mem_zipIdx he)
  have there₁ : ∀ v ∈ messages, c₁.HasThread v.threadId ∧ R.threads v.threadId := fun v hv => by
    rw [f₁.within.threads]
    exact ⟨there v hv, R.valid (valid v hv).2.1⟩
  refine (ends_saveParts f₁.orderly hdis (fun v hv => ⟨(valid v hv).1, hd v hv⟩) there₁).andThen ?_
    fun _ c₂ ⟨f₂, v₂⟩ => ?_
  · rintro _ c₂ ⟨f₂, hw⟩
    exact Or.inr ⟨there, f₁.trans f₂, fun e he => Or.inr ⟨_, homed e he, hw e he⟩⟩
  · exact ends_pure ⟨rfl, hdis, fun v hv => ⟨(valid v hv).1, there v hv⟩, f₁.trans f₂,
      fun e he => ⟨_, homed e he, v₂ e he⟩⟩

end Store

end ChatMemory
