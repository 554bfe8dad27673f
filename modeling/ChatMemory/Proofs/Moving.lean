import ChatMemory.Proofs.Parts

/-!
# Moving messages

A move changes the view of its message in five steps: the copy, the old order, the old record, the new
order, the pointer. It may be stopped in front of each of them (`View.Halfway`). Besides, it touches
the two threads, which no view shows.

## Main statements

* `ends_relocate` — the five steps.
* `ends_migrateMessage`, `ends_fetchHome` — the operations that move a message.
-/

namespace ChatMemory

/-- The message in another thread. -/
def Message.into (x : Message) (thread : String) : Message := { x with threadId := thread }

namespace View

variable (w : View) (tracking : Bool) (now : Instant) (x : Message) (origin : String)

/-- The copy is written, and says where it came from. -/
def copied : View := w.setRecord x.threadId (some (x.toMovedRecord origin))

/-- Besides, the old order no longer lists the message. -/
def unlisted : View := (w.copied x origin).setScore origin none

/-- Besides, the old record is deleted. -/
def erased : View := (w.unlisted x origin).setRecord origin none

/-- Besides, the new order lists the message. -/
def relisted : View := (w.erased x origin).list x.threadId (freshScore now)

/-- The view after a move. -/
def moved : View := (w.relisted now x origin).noted tracking x.threadId

/-- The views in which a move may be stopped. -/
def Halfway (w' : View) : Prop :=
  w' = w.copied x origin ∨ w' = w.unlisted x origin ∨ w' = w.erased x origin ∨
    w' = w.relisted now x origin

/-- The views in which an operation that moves the message may end with an error: in the middle of
the move only if a call failed. -/
def Underway (active : Prop) (w' : View) : Prop :=
  (active ∧ w.Halfway now x origin w') ∨ w' = w.moved tracking now x origin

/-- The message is about to leave a thread for another one. -/
structure Leaves (has : String → Prop) (w : View) (origin : String) (before : Message)
    (destination : String) : Prop where
  apart : origin ≠ destination
  there : has destination
  record : w.IsRecord origin before

/-- What becomes of a message that is to be in a thread: nothing if it is not stored or found there
already, and else it moves from where it is found. -/
def Homed (has : String → Prop) (destination : String) (w' : View) : Prop :=
  ((∀ thread, ¬ w.Holds thread) ∧ w' = w) ∨
  (w.Finds tracking has destination ∧ w' = w) ∨
  ∃ origin before, w.Finds tracking has origin ∧ w.Leaves has origin before destination ∧
    w' = w.moved tracking now (before.into destination) origin

/-- What may have become of such a message when the operation ends with an error. -/
def Homing (has : String → Prop) (destination : String) (active : Prop) (w' : View) : Prop :=
  w' = w ∨ ∃ origin before, w.Finds tracking has origin ∧ w.Leaves has origin before destination ∧
    w.Underway tracking now (before.into destination) origin active w'

end View

namespace Store

open Action Contents

variable {s : Store} {faults : Faults} {R : RecordRule} {c : Contents} {now : Instant}

/-- The five steps of a move. -/
theorem ends_relocate (h : Orderly R c) {x : Message} {origin : String}
    (there : c.HasThread x.threadId) (ht : R.threads x.threadId)
    (hi : Identifier.ValidMessage x.id) (hd : R.dates x.createdAt) (held : c.Holds origin x.id) :
    Ends s.keys faults (s.relocate now x origin) c
      (fun _ c' => Follows R (· = x.id) c c' ∧
        c'.view x.id = (c.view x.id).moved s.config.trackMessageThreads now x origin)
      (fun _ c' => faults.Active ∧ (c' = c ∨
        (Follows R (· = x.id) c c' ∧ (c.view x.id).Halfway now x origin (c'.view x.id)))) := by
  have plain₁ : Plain origin := h.plain held
  have plain₂ : Plain x.threadId := R.plain ht
  have here : c.HasThread origin := h.hasThread held
  have f₀ : Follows R (· = x.id) c c := .refl h
  -- The copy.
  refine (f₀.ends_write rfl there ht hi (R.moved ht hi hd origin)).andThen ?_
    fun _ c₁ ⟨f₁, v₁⟩ => ?_
  · rintro _ _ ⟨rfl, ha⟩
    exact ⟨ha, Or.inl rfl⟩
  replace v₁ : c₁.view x.id = (c.view x.id).copied x origin := v₁
  -- The old order.
  refine (f₁.ends_unlist here plain₁ rfl).andThen ?_ fun _ c₂ ⟨f₂, v₂⟩ => ?_
  · rintro _ _ ⟨rfl, ha⟩
    exact ⟨ha, Or.inr ⟨f₁, Or.inl v₁⟩⟩
  replace v₂ : c₂.view x.id = (c.view x.id).unlisted x origin := by rw [v₂, v₁, View.unlisted]
  -- The old record.
  refine (f₂.ends_erase rfl plain₁ hi.isMessage).andThen ?_ fun _ c₃ ⟨f₃, v₃⟩ => ?_
  · rintro _ _ ⟨rfl, ha⟩
    exact ⟨ha, Or.inr ⟨f₂, Or.inr (Or.inl v₂)⟩⟩
  replace v₃ : c₃.view x.id = (c.view x.id).erased x origin := by rw [v₃, v₂, View.erased]
  -- The new order.
  refine (f₃.ends_list there plain₂ rfl _).andThen ?_ fun _ c₄ ⟨f₄, v₄⟩ => ?_
  · rintro _ _ ⟨rfl, ha⟩
    exact ⟨ha, Or.inr ⟨f₃, Or.inr (Or.inr (Or.inl v₃))⟩⟩
  replace v₄ : c₄.view x.id = (c.view x.id).relisted now x origin := by rw [v₄, v₃, View.relisted]
  -- The pointer.
  refine (f₄.ends_note rfl _).mono (fun _ c₅ ⟨f₅, v₅⟩ => ⟨f₅, by rw [v₅, v₄, View.moved]⟩) ?_
  rintro _ _ ⟨rfl, ha⟩
  exact ⟨ha, Or.inr ⟨f₄, Or.inr (Or.inr (Or.inr v₄))⟩⟩

/-- A move with the threads touched. -/
theorem ends_relocateAndTouch (s : Store) (now : Instant) (faults : Faults) (h : Orderly R c)
    {x : Message} {origin : String} (there : c.HasThread x.threadId) (ht : R.threads x.threadId)
    (hi : Identifier.ValidMessage x.id) (hd : R.dates x.createdAt) (held : c.Holds origin x.id) :
    Ends s.keys faults (do
        s.relocate now x origin
        s.touchThread now origin
        s.touchThread now x.threadId
        return x) c
      (fun y c' => y = x ∧ Follows R (· = x.id) c c' ∧
        c'.view x.id = (c.view x.id).moved s.config.trackMessageThreads now x origin)
      (fun _ c' => c' = c ∨ (Follows R (· = x.id) c c' ∧ (c.view x.id).Underway
        s.config.trackMessageThreads now x origin faults.Active (c'.view x.id))) := by
  refine (ends_relocate h there ht hi hd held).andThen ?_ fun _ c₁ ⟨f₁, v₁⟩ => ?_
  · rintro _ c' ⟨ha, e | ⟨f, hv⟩⟩
    · exact Or.inl e
    · exact Or.inr ⟨f, Or.inl ⟨ha, hv⟩⟩
  refine (f₁.ends_touch (h.hasThread held) now).andThen ?_ fun _ c₂ ⟨f₂, v₂⟩ => ?_
  · rintro _ c' rfl
    exact Or.inr ⟨f₁, Or.inr v₁⟩
  refine (f₂.ends_touch there now).andThen ?_ fun _ c₃ ⟨f₃, v₃⟩ => ?_
  · rintro _ c' rfl
    exact Or.inr ⟨f₂, Or.inr ((v₂ _).trans v₁)⟩
  exact ends_pure ⟨rfl, f₃, (v₃ _).trans ((v₂ _).trans v₁)⟩

theorem ends_migrateMessage (h : Orderly R c) (id origin destination : String) :
    Ends s.keys faults (s.migrateMessage now id origin destination) c
      (fun y c' => Follows R (· = id) c c' ∧ ∃ before, (c.view id).IsRecord origin before ∧
        ((origin = destination ∧ y = before ∧ c' = c) ∨
          ((c.view id).Leaves c.HasThread origin before destination ∧
            y = before.into destination ∧
            c'.view id = (c.view id).moved s.config.trackMessageThreads now y origin)))
      (fun _ c' => c' = c ∨ (Follows R (· = id) c c' ∧
        ∃ before, (c.view id).Leaves c.HasThread origin before destination ∧
          (c.view id).Underway s.config.trackMessageThreads now (before.into destination) origin
            faults.Active (c'.view id))) := by
  refine (ends_check _).andThen (fun _ _ he => Or.inl he.1) fun _ c' hc => ?_
  obtain ⟨rfl, valid⟩ := hc
  simp only [List.append_eq_nil_iff, Identifier.messageViolations_eq_nil,
    Identifier.violations_eq_nil] at valid
  obtain ⟨⟨hi, _⟩, hd⟩ := valid
  refine (ends_fetchMessage hi.isMessage).andThen (fun _ _ he => Or.inl he.1) fun found c' hc => ?_
  obtain ⟨rfl, _, hsome⟩ := hc
  cases found with
  | none => exact ends_fail (Or.inl rfl)
  | some before =>
    have record : (c'.view id).IsRecord origin before := hsome before rfl
    obtain ⟨_, hid, dated, _, _⟩ := h.isRecord record
    refine ends_ite (fun e => ends_pure ⟨.refl h, before, record, Or.inl ⟨e, rfl, rfl⟩⟩) fun ne => ?_
    refine (ends_threadExists destination).andThen (fun _ _ he => Or.inl he.1) fun found c' hc => ?_
    obtain ⟨rfl, _, hfound⟩ := hc
    refine ends_ite (fun e => ?_) fun _ => ends_fail (Or.inl rfl)
    obtain ⟨t, ht⟩ := hfound e
    have leaves : (c'.view id).Leaves c'.HasThread origin before destination :=
      ⟨ne, ht.hasThread hd.ne_empty, record⟩
    subst hid
    refine (ends_relocateAndTouch s now faults (x := before.into destination) h leaves.there
      (R.valid hd) hi dated record.holds).mono (fun y c₁ ⟨hy, f, v⟩ => ?_) fun _ c₁ hc => ?_
    · rw [hy]
      exact ⟨f, before, record, Or.inr ⟨leaves, rfl, v⟩⟩
    · exact hc.imp_right fun ⟨f, v⟩ => ⟨f, before, leaves, v⟩

/-- A message is moved to the thread that it names, if it is found in another one. -/
theorem ends_fetchHome (h : Orderly R c) {v : Message} (hi : Identifier.ValidMessage v.id) :
    Ends s.keys faults (s.fetchHome now v) c
      (fun _ c' => Follows R (· = v.id) c c' ∧ (c.view v.id).Homed s.config.trackMessageThreads now
        c.HasThread v.threadId (c'.view v.id))
      (fun _ c' => Follows R (· = v.id) c c' ∧ (c.view v.id).Homing s.config.trackMessageThreads now
        c.HasThread v.threadId faults.Active (c'.view v.id)) := by
  refine (ends_findMessage h hi.isMessage).andThen ?_ fun found c' hc => ?_
  · rintro _ _ ⟨rfl, _⟩
    exact ⟨.refl h, Or.inl rfl⟩
  obtain ⟨rfl, hnone, hsome⟩ := hc
  cases found with
  | none => exact ends_pure ⟨.refl h, Or.inl ⟨hnone rfl, rfl⟩⟩
  | some current =>
    have finds := hsome current rfl
    refine ends_ite (fun e => ends_pure ⟨.refl h, Or.inr (Or.inl ⟨e ▸ finds, rfl⟩)⟩) fun ne => ?_
    refine (ends_migrateMessage h v.id current v.threadId).andThen ?_ fun y c₁ ⟨f, before, _, hy⟩ => ?_
    · rintro _ c₁ (rfl | ⟨f, before, leaves, underway⟩)
      · exact ⟨.refl h, Or.inl rfl⟩
      · exact ⟨f, Or.inr ⟨current, before, finds, leaves, underway⟩⟩
    · rcases hy with ⟨e, _⟩ | ⟨leaves, rfl, hv⟩
      · exact absurd e ne
      · exact ends_pure ⟨f, Or.inr (Or.inr ⟨current, before, finds, leaves, hv⟩)⟩

end Store

end ChatMemory
