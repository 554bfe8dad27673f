import ChatMemory.Proofs.Moving

/-!
# Changing messages

A change either replaces the record of a message where it is, or moves the message with its new
record. Where the date changes, a message that stays gets a new place in its order.

Changes are applied one after the other, and the same message may be changed more than once. So what
a list of changes does is said by a chain of contents (`Contents.Updates`).

## Main statements

* `ends_updateMessage` — what one change does to its message.
* `ends_updateMessages` — the chain of a list of changes, or of its beginning.
-/

namespace ChatMemory

theorem Message.apply_id (x : Message) (u : MessageUpdate) : (x.apply u).id = x.id := rfl

theorem Message.apply_threadId (x : Message) (u : MessageUpdate) :
    (x.apply u).threadId = x.threadId := rfl

theorem Message.apply_createdAt (x : Message) (u : MessageUpdate) :
    (x.apply u).createdAt = u.createdAt.getD x.createdAt := rfl

theorem Message.apply_into (x : Message) (thread : String) (u : MessageUpdate) :
    (x.into thread).apply u = (x.apply u).into thread := rfl

theorem MessageContent.merge_merge (c : MessageContent) (u : MessageContentUpdate) :
    (c.merge u).merge u = c.merge u := by
  obtain ⟨parts, content, metadata⟩ := u
  cases parts <;> cases content <;> cases metadata <;> simp [merge, Object.merge_merge]

/-- A change that has been made changes nothing when it is made again. -/
theorem Message.apply_apply (x : Message) (u : MessageUpdate) :
    (x.apply u).apply u = x.apply u := by
  obtain ⟨id, threadId, resourceId, role, content, kind, createdAt⟩ := u
  cases resourceId <;> cases role <;> cases content <;> cases kind <;> cases createdAt <;>
    simp [apply, MessageContent.merge_merge]

namespace View

variable (w : View) (tracking : Bool) (now : Instant) (has : String → Prop) (before after : Message)
  (u : MessageUpdate)

/-- The record is replaced. -/
def revised : View := w.setRecord after.threadId (some (after.toRecord 0))

/-- Besides, the order no longer lists the message. -/
def unranked : View := (w.revised after).setScore after.threadId none

/-- Besides, the order lists the message by its date. -/
def reranked : View := (w.unranked after).list after.threadId (scoreFor after.createdAt 0)

/-- The view after a change of a message that stays. -/
def replaced : View :=
  if after.createdAt = before.createdAt then w.revised after else w.reranked after

/-- The views in which such a change may be stopped. -/
def Replacing (active : Prop) (w' : View) : Prop :=
  w' = w ∨ w' = w.replaced before after ∨
    (active ∧ (w' = w.revised after ∨ w' = w.unranked after ∧ after.createdAt ≠ before.createdAt))

/-- What becomes of a message under a change, and the version that is handed back. -/
def Updated (y : Message) (w' : View) : Prop :=
  ∃ current before, w.Finds tracking has current ∧ w.IsRecord current before ∧
    (((∀ destination, u.threadId = some destination → destination = current) ∧
        y = before.apply u ∧ w' = w.replaced before y) ∨
      ∃ destination, u.threadId = some destination ∧ w.Leaves has current before destination ∧
        y = (before.apply u).into destination ∧ w' = w.moved tracking now y current)

/-- What may have become of a message when a change of it ends with an error. -/
def Updating (active : Prop) (w' : View) : Prop :=
  w' = w ∨ ∃ current before, w.Finds tracking has current ∧ w.IsRecord current before ∧
    (((∀ destination, u.threadId = some destination → destination = current) ∧
        w.Replacing before (before.apply u) active w') ∨
      ∃ destination, u.threadId = some destination ∧ w.Leaves has current before destination ∧
        w.Underway tracking now ((before.apply u).into destination) current active w')

variable {w} {before}

/-- A changed message is still named after a thread that holds it. -/
theorem IsRecord.holds_apply {thread : String} (record : w.IsRecord thread before)
    (named : ∀ thread x, w.IsRecord thread x → x.threadId = thread) (u : MessageUpdate) :
    w.Holds (before.apply u).threadId := by
  rw [Message.apply_threadId, named thread before record]
  exact record.holds

end View

namespace Contents

/-- Contents after some changes, with the versions that are handed back. -/
inductive Updates (R : RecordRule) (tracking : Bool) (now : Instant) :
    List MessageUpdate → List Message → Contents → Contents → Prop where
  | nil {c : Contents} (h : Orderly R c) : Updates R tracking now [] [] c c
  | cons {u : MessageUpdate} {us : List MessageUpdate} {y : Message} {ys : List Message}
      {c c₁ c' : Contents} (follows : Follows R (· = u.id) c c₁)
      (updated : (c.view u.id).Updated tracking now c.HasThread u y (c₁.view u.id))
      (rest : Updates R tracking now us ys c₁ c') : Updates R tracking now (u :: us) (y :: ys) c c'

/-- Contents after some changes that ended with an error. -/
inductive Interrupted (R : RecordRule) (tracking : Bool) (now : Instant) (active : Prop) :
    List MessageUpdate → Contents → Contents → Prop where
  | here {u : MessageUpdate} {us : List MessageUpdate} {c c' : Contents}
      (follows : Follows R (· = u.id) c c')
      (updating : (c.view u.id).Updating tracking now c.HasThread u active (c'.view u.id)) :
      Interrupted R tracking now active (u :: us) c c'
  | later {u : MessageUpdate} {us : List MessageUpdate} {y : Message} {c c₁ c' : Contents}
      (follows : Follows R (· = u.id) c c₁)
      (updated : (c.view u.id).Updated tracking now c.HasThread u y (c₁.view u.id))
      (rest : Interrupted R tracking now active us c₁ c') :
      Interrupted R tracking now active (u :: us) c c'

end Contents

namespace Store

open Action Contents

variable {s : Store} {faults : Faults} {R : RecordRule} {c : Contents} {now : Instant} {x : Message}

theorem valid_of_updateViolations : ∀ {us : List MessageUpdate} {position : Nat},
    updateViolations position us = [] → ∀ u ∈ us, Identifier.ValidMessage u.id ∧
      ∀ destination, u.threadId = some destination → Identifier.Valid destination
  | [], _, _ => by simp
  | u :: rest, position, h => by
    obtain ⟨h₁, h₂⟩ := List.append_eq_nil_iff.mp h
    obtain ⟨hi, ht⟩ := List.append_eq_nil_iff.mp h₁
    intro v hv
    rcases List.mem_cons.mp hv with rfl | hv
    · refine ⟨Identifier.messageViolations_eq_nil.mp hi, fun destination hd => ?_⟩
      rw [hd] at ht
      exact Identifier.violations_eq_nil.mp ht
    · exact valid_of_updateViolations h₂ v hv

/-! ## One change -/

/-- The message gets the place of its date. -/
theorem ends_rescore {c₀ : Contents} (f : Follows R (· = x.id) c₀ c) (there : c₀.HasThread x.threadId)
    (ht : R.threads x.threadId) :
    Ends s.keys faults (s.rescore x) c
      (fun _ c' => Follows R (· = x.id) c₀ c' ∧ c'.view x.id = ((c.view x.id).setScore x.threadId
        none).list x.threadId (scoreFor x.createdAt 0))
      (fun _ c' => faults.Active ∧ Follows R (· = x.id) c₀ c' ∧
        (c'.view x.id = c.view x.id ∨ c'.view x.id = (c.view x.id).setScore x.threadId none)) := by
  refine (f.ends_unlist there (R.plain ht) rfl).andThen ?_ fun _ c₁ ⟨f₁, v₁⟩ => ?_
  · rintro _ _ ⟨rfl, ha⟩
    exact ⟨ha, f, Or.inl rfl⟩
  refine (f₁.ends_list there (R.plain ht) rfl _).mono (fun _ c₂ ⟨f₂, v₂⟩ => ?_) ?_
  · exact ⟨f₂, by rw [v₂, v₁]⟩
  · rintro _ _ ⟨rfl, ha⟩
    exact ⟨ha, f₁, Or.inr v₁⟩

/-- A change of a message that stays in its thread. -/
theorem ends_updateInPlace (s : Store) (now : Instant) (faults : Faults) (before : Message)
    {after : Message} (h : Orderly R c) (hi : Identifier.ValidMessage after.id)
    (there : c.HasThread after.threadId) (ht : R.threads after.threadId)
    (hd : R.dates after.createdAt) :
    Ends s.keys faults (s.updateInPlace now after.threadId before after) c
      (fun y c' => y = after ∧ Follows R (· = after.id) c c' ∧
        c'.view after.id = (c.view after.id).replaced before after)
      (fun _ c' => Follows R (· = after.id) c c' ∧
        (c.view after.id).Replacing before after faults.Active (c'.view after.id)) := by
  have f₀ : Follows R (· = after.id) c c := .refl h
  refine (f₀.ends_write rfl there ht hi (R.record ht hi hd 0)).andThen ?_
    fun _ c₁ ⟨f₁, v₁⟩ => ?_
  · rintro _ _ ⟨rfl, _⟩
    exact ⟨.refl h, Or.inl rfl⟩
  replace v₁ : c₁.view after.id = (c.view after.id).revised after := v₁
  have touch : ∀ {c₂}, Follows R (· = after.id) c c₂ →
      c₂.view after.id = (c.view after.id).replaced before after →
      Ends s.keys faults (do s.touchThread now after.threadId; return after) c₂
        (fun y c' => y = after ∧ Follows R (· = after.id) c c' ∧
          c'.view after.id = (c.view after.id).replaced before after)
        (fun _ c' => Follows R (· = after.id) c c' ∧
          (c.view after.id).Replacing before after faults.Active (c'.view after.id)) := by
    intro c₂ f₂ v₂
    refine (f₂.ends_touch there now).andThen ?_ fun _ c₃ ⟨f₃, v₃⟩ => ?_
    · rintro _ _ rfl
      exact ⟨f₂, Or.inr (Or.inl v₂)⟩
    · exact ends_pure ⟨rfl, f₃, (v₃ _).trans v₂⟩
  by_cases hdate : after.createdAt = before.createdAt
  · rw [if_pos hdate]
    exact touch f₁ (by rw [v₁, View.replaced, if_pos hdate])
  · rw [if_neg hdate]
    refine (ends_rescore f₁ there ht).andThen ?_ fun _ c₂ ⟨f₂, v₂⟩ => touch f₂ ?_
    · rintro _ c₂ ⟨ha, f₂, v₂ | v₂⟩
      · exact ⟨f₂, Or.inr (Or.inr ⟨ha, Or.inl (v₂.trans v₁)⟩)⟩
      · exact ⟨f₂, Or.inr (Or.inr ⟨ha, Or.inr ⟨by rw [v₂, v₁, View.unranked], hdate⟩⟩)⟩
    · rw [v₂, v₁, View.replaced, if_neg hdate, View.reranked, View.unranked]

/-- A change of a message that names no other thread. -/
theorem ends_updateStaying (h : Orderly R c) {u : MessageUpdate} (hi : Identifier.ValidMessage u.id)
    {current : String} {before : Message}
    (finds : (c.view u.id).Finds s.config.trackMessageThreads c.HasThread current)
    (record : (c.view u.id).IsRecord current before) (hdate : R.dates (before.apply u).createdAt)
    (stays : ∀ destination, u.threadId = some destination → destination = current) :
    Ends s.keys faults (s.updateInPlace now current before (before.apply u)) c
      (fun y c' => Follows R (· = u.id) c c' ∧ (c.view u.id).Updated s.config.trackMessageThreads now
        c.HasThread u y (c'.view u.id))
      (fun _ c' => Follows R (· = u.id) c c' ∧ (c.view u.id).Updating
        s.config.trackMessageThreads now c.HasThread u faults.Active (c'.view u.id)) := by
  obtain ⟨hthread, hid, _, threads, there⟩ := h.isRecord record
  have atHome : (before.apply u).threadId = current := hthread
  have same : (before.apply u).id = u.id := hid
  have replaced := ends_updateInPlace s now faults before h (by rwa [same]) (by rwa [atHome])
    (by rwa [atHome]) hdate
  rw [same, atHome] at replaced
  refine replaced.mono ?_ ?_
  · rintro y c₁ ⟨rfl, f, v⟩
    exact ⟨f, current, before, finds, record, Or.inl ⟨stays, rfl, v⟩⟩
  · rintro _ c₁ ⟨f, v⟩
    exact ⟨f, Or.inr ⟨current, before, finds, record, Or.inl ⟨stays, v⟩⟩⟩

/-- A change of a message that names another thread. -/
theorem ends_updateMoving (h : Orderly R c) {u : MessageUpdate} (hi : Identifier.ValidMessage u.id)
    {current destination : String} {before : Message}
    (finds : (c.view u.id).Finds s.config.trackMessageThreads c.HasThread current)
    (record : (c.view u.id).IsRecord current before) (hdate : R.dates (before.apply u).createdAt)
    (named : u.threadId = some destination) (apart : destination ≠ current)
    (valid : Identifier.Valid destination) :
    Ends s.keys faults (s.updateAndMove now current destination (before.apply u)) c
      (fun y c' => Follows R (· = u.id) c c' ∧ (c.view u.id).Updated s.config.trackMessageThreads now
        c.HasThread u y (c'.view u.id))
      (fun _ c' => Follows R (· = u.id) c c' ∧ (c.view u.id).Updating
        s.config.trackMessageThreads now c.HasThread u faults.Active (c'.view u.id)) := by
  refine (ends_requireThread destination).andThen ?_ fun _ c' hc => ?_
  · rintro _ _ rfl
    exact ⟨.refl h, Or.inl rfl⟩
  obtain ⟨rfl, t, there⟩ := hc
  have leaves : (c'.view u.id).Leaves c'.HasThread current before destination :=
    ⟨apart.symm, there.hasThread valid.ne_empty, record⟩
  have same : ((before.apply u).into destination).id = u.id := (h.isRecord record).2.1
  have moved := ends_relocateAndTouch s now faults (x := (before.apply u).into destination) h
    leaves.there (R.valid valid) (by rwa [same]) hdate (same ▸ finds.holds)
  rw [same] at moved
  refine moved.mono ?_ ?_
  · rintro y c₁ ⟨rfl, f, v⟩
    exact ⟨f, current, before, finds, record, Or.inr ⟨destination, named, leaves, rfl, v⟩⟩
  · rintro _ c₁ (rfl | ⟨f, v⟩)
    · exact ⟨.refl h, Or.inl rfl⟩
    · exact ⟨f, Or.inr ⟨current, before, finds, record, Or.inr ⟨destination, named, leaves, v⟩⟩⟩

/-- What one change does to its message. -/
theorem ends_updateMessage (h : Orderly R c) {u : MessageUpdate}
    (hi : Identifier.ValidMessage u.id)
    (ht : ∀ destination, u.threadId = some destination → Identifier.Valid destination)
    (hd : ∀ date, u.createdAt = some date → R.dates date) :
    Ends s.keys faults (s.updateMessage now u) c
      (fun y c' => Follows R (· = u.id) c c' ∧ (c.view u.id).Updated s.config.trackMessageThreads now
        c.HasThread u y (c'.view u.id))
      (fun _ c' => Follows R (· = u.id) c c' ∧ (c.view u.id).Updating
        s.config.trackMessageThreads now c.HasThread u faults.Active (c'.view u.id)) := by
  have same : ∀ {c'}, c' = c → Follows R (· = u.id) c c' ∧ (c.view u.id).Updating
      s.config.trackMessageThreads now c.HasThread u faults.Active (c'.view u.id) := by
    rintro _ rfl
    exact ⟨.refl h, Or.inl rfl⟩
  refine (ends_findMessage h hi.isMessage).andThen (fun _ _ he => same he.1) fun found c' hc => ?_
  obtain ⟨rfl, _, hsome⟩ := hc
  cases found with
  | none => exact ends_fail (same rfl)
  | some current =>
    have finds := hsome current rfl
    refine (ends_fetchMessage hi.isMessage).andThen (fun _ _ he => same he.1) fun found c' hc => ?_
    obtain ⟨rfl, _, hsome⟩ := hc
    cases found with
    | none => exact ends_fail (same rfl)
    | some before =>
      have record := hsome before rfl
      have hdate : R.dates (before.apply u).createdAt := by
        rw [Message.apply_createdAt]
        cases hu : u.createdAt with
        | none => exact (h.isRecord record).2.2.1
        | some date => exact hd date hu
      cases hf : u.threadId.filter (· ≠ current) with
      | none =>
        refine ends_updateStaying h hi finds record hdate fun destination hu => ?_
        rw [hu] at hf
        simpa using hf
      | some destination =>
        obtain ⟨hu, hne⟩ := Option.filter_eq_some_iff.mp hf
        exact ends_updateMoving h hi finds record hdate hu (of_decide_eq_true hne)
          (ht destination hu)

/-! ## Many changes -/

theorem ends_eachUpdate : ∀ {us : List MessageUpdate} {c : Contents}, Orderly R c →
    (∀ u ∈ us, (Identifier.ValidMessage u.id ∧
      ∀ destination, u.threadId = some destination → Identifier.Valid destination) ∧
      ∀ date, u.createdAt = some date → R.dates date) →
    Ends s.keys faults (Action.each (s.updateMessage now) us) c
      (fun ys c' => Updates R s.config.trackMessageThreads now us ys c c')
      (fun _ c' => Interrupted R s.config.trackMessageThreads now faults.Active us c c')
  | [], _, h, _ => ends_pure (.nil h)
  | u :: us, c, h, hv => by
    obtain ⟨⟨hi, ht⟩, hd⟩ := hv u List.mem_cons_self
    refine (ends_updateMessage h hi ht hd).andThen (fun _ c₁ ⟨f, v⟩ => .here f v)
      fun y c₁ ⟨f, v⟩ => ?_
    refine (ends_eachUpdate f.orderly fun u' hu' => hv u' (List.mem_cons_of_mem _ hu')).andThen
      (fun _ c₂ h₂ => .later f v h₂) fun ys c₂ h₂ => ?_
    exact ends_pure (.cons f v h₂)

/-- What a list of changes does. -/
theorem ends_updateMessages (h : Orderly R c) {us : List MessageUpdate}
    (hd : ∀ u ∈ us, ∀ date, u.createdAt = some date → R.dates date) :
    Ends s.keys faults (s.updateMessages now us) c
      (fun ys c' => Updates R s.config.trackMessageThreads now us ys c c')
      (fun _ c' => c' = c ∨
        Interrupted R s.config.trackMessageThreads now faults.Active us c c') := by
  refine (ends_check _).andThen (fun _ _ he => Or.inl he.1) fun _ c' hc => ?_
  obtain ⟨rfl, checked⟩ := hc
  have valid := valid_of_updateViolations checked
  exact (ends_eachUpdate h fun u hu => ⟨valid u hu, hd u hu⟩).mono (fun _ _ h => h)
    fun _ _ h => Or.inr h

end Store

end ChatMemory
