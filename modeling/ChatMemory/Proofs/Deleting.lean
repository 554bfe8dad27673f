import ChatMemory.Proofs.InTurn
import ChatMemory.Proofs.Parts

/-!
# Deleting a thread

All that belongs to a thread is deleted at the same time. When all goes well it does not matter in which
order. When the deletion is stopped, any part of it may be left (`Contents.Shed`), also messages of a
thread whose record is gone.

Where the deletions are made in order, the messages go first, one by one, then the order of the thread,
and last its record. Then, as long as a message is left, the thread is still there
(`Contents.Emptying`).

## Main statements

* `ends_purge` — the deletion of all that belongs to a thread, in order.
* `ends_deleteWholeThread` — the operation, in order.
* `ends_purge_scheduled` — the deletion of all that belongs to a thread, at any schedule.
-/

namespace ChatMemory

namespace View

/-- The pointer is forgotten if pointers are kept and it names the thread. -/
def Forgot (tracking : Bool) (w : View) (thread : String) (w' : View) : Prop :=
  (tracking = true ∧ w.Names thread ∧ w' = w.setPointer none) ∨
    (¬ (tracking = true ∧ w.Names thread) ∧ w' = w)

variable {tracking : Bool} {w w' : View} {thread : String}

theorem Forgot.record (h : w.Forgot tracking thread w') : w'.record = w.record := by
  rcases h with ⟨_, _, rfl⟩ | ⟨_, rfl⟩ <;> rfl

theorem Forgot.score (h : w.Forgot tracking thread w') : w'.score = w.score := by
  rcases h with ⟨_, _, rfl⟩ | ⟨_, rfl⟩ <;> rfl

end View

namespace Contents

variable {R : RecordRule} {c c₁ : Contents} {tracking : Bool} {thread : String}

/-- All messages of a thread are deleted. -/
structure Emptied (R : RecordRule) (tracking : Bool) (thread : String) (c c₁ : Contents) : Prop where
  follows : Follows R (c.Holds thread) c c₁
  view : ∀ id, c.Holds thread id →
    ((c.view id).setRecord thread none).Forgot tracking thread (c₁.view id)

/-- Some messages of a thread are deleted, and one perhaps with its pointer left. -/
structure Emptying (R : RecordRule) (tracking : Bool) (thread : String) (c c₁ : Contents) :
    Prop where
  follows : Follows R (c.Holds thread) c c₁
  view : ∀ id, c.Holds thread id → c₁.view id = c.view id ∨
    c₁.view id = (c.view id).setRecord thread none ∨
    ((c.view id).setRecord thread none).Forgot tracking thread (c₁.view id)

/-- The order and the record of a thread deleted. -/
def closed (c : Contents) (thread : String) : Contents :=
  (c.setIndex thread none).setThread thread none

theorem Emptied.emptying (h : Emptied R tracking thread c c₁) : Emptying R tracking thread c c₁ :=
  ⟨h.follows, fun id hid => Or.inr (Or.inr (h.view id hid))⟩

/-- A thread that was emptied holds nothing. -/
theorem Emptied.not_holds (h : Emptied R tracking thread c c₁) (id : String) :
    ¬ c₁.Holds thread id := by
  intro hh
  by_cases hid : c.Holds thread id
  · have := (h.view id hid).record
    exact hh (by rw [← record_view, this]; simp)
  · have := h.follows.within.view id hid
    exact hid (by rw [Holds, ← record_view, ← this]; exact hh)

theorem hasThread_closed (c : Contents) (thread other : String) :
    (c.closed thread).HasThread other ↔ other ≠ thread ∧ c.HasThread other := by
  rw [closed, HasThread, HasThread, thread_setThread]
  by_cases h : other = thread
  · simp [h]
  · simp [h]

theorem view_closed (c : Contents) (thread id : String) :
    (c.closed thread).view id = (c.view id).setScore thread none := by
  rw [closed, view_setThread, view_cleared]

theorem Emptied.orderly_closed (h : Emptied R tracking thread c c₁) :
    Orderly R (c₁.closed thread) where
  placed {other id r} hr := by
    obtain ⟨ht, admitted⟩ := h.follows.orderly.placed hr
    refine ⟨(hasThread_closed ..).mpr ⟨?_, ht⟩, admitted⟩
    rintro rfl
    exact h.not_holds id (by rw [Holds, show c₁.record other id = some r from hr]; simp)
  readable {other} ht := by
    obtain ⟨hne, ht⟩ := (hasThread_closed ..).mp ht
    show StoredOrder.Readable (if other = thread then none else c₁.index other)
    rw [if_neg hne]
    exact h.follows.orderly.readable ht

end Contents

namespace Store

open Action Contents

variable {s : Store} {faults : Faults} {R : RecordRule} {c : Contents}

/-- Deletes a record and then the pointer of its message, if it names the thread. -/
theorem ends_deleteAndForget (h : Orderly R c) {thread id : String} (plain : Plain thread)
    (hi : IsMessage id) {code : String} {context : ErrorContext} :
    Ends s.keys faults (do
        let _ ← Action.ask (.delete .messages (s.keys.message thread id)) code context
        s.forgetPointer id thread) c
      (fun _ c' => Follows R (· = id) c c' ∧ ((c.view id).setRecord thread none).Forgot
        s.config.trackMessageThreads thread (c'.view id))
      (fun _ c' => faults.Active ∧ Follows R (· = id) c c' ∧
        (c'.view id = c.view id ∨ c'.view id = (c.view id).setRecord thread none)) := by
  have f₀ : Follows R (· = id) c c := .refl h
  refine (f₀.ends_erase rfl plain hi).andThen ?_ fun _ c₁ ⟨f₁, v₁⟩ => ?_
  · rintro _ _ ⟨rfl, ha⟩
    exact ⟨ha, f₀, Or.inl rfl⟩
  refine (ends_forgetPointer id thread).mono (fun _ c₂ h₂ => ?_) ?_
  · rcases h₂ with ⟨tracking, names, rfl⟩ | ⟨hno, rfl⟩
    · refine ⟨f₁.setPointer rfl none, Or.inl ⟨tracking, by rw [← v₁]; exact names, ?_⟩⟩
      rw [view_setPointer_same, v₁]
    · exact ⟨f₁, Or.inr ⟨by rw [← v₁]; exact hno, v₁⟩⟩
  · rintro _ _ ⟨rfl, ha⟩
    exact ⟨ha, f₁, Or.inr v₁⟩

/-- The deletion of all that belongs to a thread, in order. -/
theorem ends_purge (h : Orderly R c) {thread : String} (plain : Plain thread) {ids : List String}
    (distinct : ids.Pairwise (· < ·)) (hids : ∀ id, id ∈ ids ↔ c.Holds thread id) :
    Ends s.keys faults (s.purge thread ids) c
      (fun _ c' => ∃ c₁, Emptied R s.config.trackMessageThreads thread c c₁ ∧
        c' = c₁.closed thread)
      (fun _ c' => faults.Active ∧ ∃ c₁, Emptying R s.config.trackMessageThreads thread c c₁ ∧
        (c' = c₁ ∨
          Emptied R s.config.trackMessageThreads thread c c₁ ∧ c' = c₁.setIndex thread none)) := by
  have among : ∀ id, (∃ m ∈ ids, id = m) → c.Holds thread id := by
    rintro id ⟨m, hm, rfl⟩
    exact (hids id).mp hm
  rw [purge_inOrder]
  refine (ends_forAll_single (fun m => m) (F := faults.Active)
    (L := fun _ w w' => (w.setRecord thread none).Forgot s.config.trackMessageThreads thread w')
    (P := fun _ w w' => w' = w ∨ w' = w.setRecord thread none)
    (distinct.imp String.ne_of_lt) ?_ h).andThen ?_ fun _ c₁ ⟨f₁, v₁⟩ => ?_
  · exact fun m hm c₀ f₀ =>
      ends_deleteAndForget f₀.orderly plain (h.isMessage ((hids m).mp hm))
  · rintro _ c₁ ⟨ha, f, v⟩
    refine ⟨ha, c₁, ⟨f.mono among, fun id hid => ?_⟩, Or.inl rfl⟩
    rcases v id ((hids id).mpr hid) with v | (v | v) | v
    · exact Or.inr (Or.inr v)
    · exact Or.inl v
    · exact Or.inr (Or.inl v)
    · exact Or.inl v
  have emptied : Emptied R s.config.trackMessageThreads thread c c₁ :=
    ⟨f₁.mono among, fun id hid => v₁ id ((hids id).mpr hid)⟩
  refine (OrderIndex.ends_clear plain).andThen ?_ fun _ c₂ e₂ => ?_
  · rintro _ _ ⟨rfl, ha⟩
    exact ⟨ha, _, emptied.emptying, Or.inl rfl⟩
  rw [e₂]
  exact ends_deleteThread ⟨c₁, emptied, rfl⟩
    fun ha _ => ⟨ha, c₁, emptied.emptying, Or.inr ⟨emptied, rfl⟩⟩

/-- The messages of a thread of orderly contents. -/
theorem Orderly.ends_messageIds (h : Orderly R c) (thread : String) :
    Ends s.keys faults (s.messageIds thread) c
      (fun ids c' => c' = c ∧ ids.Pairwise (· < ·) ∧ ∀ id, id ∈ ids ↔ c.Holds thread id)
      (fun _ c' => c' = c ∧ faults.Active) := by
  refine (Store.ends_messageIds thread).mono (fun ids c' => ?_) fun _ _ h => h
  rintro ⟨rfl, sorted, hids⟩
  refine ⟨rfl, sorted, fun id => ?_⟩
  rw [hids]
  exact ⟨fun hid => hid.2, fun hh => ⟨h.isMessage hh, hh⟩⟩

theorem ends_deleteWholeThread (h : Orderly R c) (thread : String) :
    Ends s.keys faults (s.deleteThread thread) c
      (fun _ c' => c.HasThread thread ∧ ∃ c₁,
        Emptied R s.config.trackMessageThreads thread c c₁ ∧ c' = c₁.closed thread)
      (fun _ c' => c' = c ∨ (faults.Active ∧ c.HasThread thread ∧
        ∃ c₁, Emptying R s.config.trackMessageThreads thread c c₁ ∧ (c' = c₁ ∨
          Emptied R s.config.trackMessageThreads thread c c₁ ∧ c' = c₁.setIndex thread none))) := by
  refine (ends_check _).andThen (fun _ _ he => Or.inl he.1) fun _ c' hc => ?_
  obtain ⟨rfl, checked⟩ := hc
  have valid := Identifier.violations_eq_nil.mp checked
  refine (ends_threadExists thread).andThen (fun _ _ he => Or.inl he.1) fun found c' hc => ?_
  obtain ⟨rfl, _, hfound⟩ := hc
  refine ends_ite (fun e => ?_) fun _ => ends_fail (Or.inl rfl)
  obtain ⟨t, ht⟩ := hfound e
  have there := ht.hasThread valid.ne_empty
  refine (Orderly.ends_messageIds h thread).andThen (fun _ _ he => Or.inl he.1) fun ids c' hc => ?_
  obtain ⟨rfl, sorted, hids⟩ := hc
  exact (ends_purge h valid.plain sorted hids).mono (fun _ _ h => ⟨there, h⟩)
    fun _ _ h => Or.inr ⟨h.1, there, h.2⟩

end Store

/-! ## At the same time -/

namespace Contents

/-- Contents that lack some of what belongs to a thread. Pointers do not count. -/
structure Shed (thread : String) (c c' : Contents) : Prop where
  threads : ∀ other, c'.thread other = c.thread other ∨ other = thread ∧ c'.thread other = none
  records : ∀ other id, c'.record other id = c.record other id ∨
    other = thread ∧ c'.record other id = none
  orders : ∀ other, c'.index other = c.index other ∨ other = thread ∧ c'.index other = none

namespace Shed

variable {thread : String} {c c' c'' : Contents}

theorem refl (thread : String) (c : Contents) : Shed thread c c :=
  ⟨fun _ => Or.inl rfl, fun _ _ => Or.inl rfl, fun _ => Or.inl rfl⟩

theorem trans (h : Shed thread c c') (h' : Shed thread c' c'') : Shed thread c c'' where
  threads other := (h'.threads other).elim (fun e => e ▸ h.threads other) Or.inr
  records other id := (h'.records other id).elim (fun e => e ▸ h.records other id) Or.inr
  orders other := (h'.orders other).elim (fun e => e ▸ h.orders other) Or.inr

theorem holds (h : Shed thread c c') {other id : String} (hh : c'.Holds other id) :
    c.Holds other id := by
  rcases h.records other id with e | ⟨_, e⟩
  · rwa [Holds, e] at hh
  · exact absurd e hh

theorem hasThread (h : Shed thread c c') {other : String} (there : c'.HasThread other) :
    c.HasThread other := by
  rcases h.threads other with e | ⟨_, e⟩
  · rwa [HasThread, e] at there
  · exact absurd e there.2

theorem parted (h : Shed thread c c') (parted : c.Parted) : c'.Parted :=
  fun other id hh => parted other id (h.holds hh)

theorem setRecord (thread id : String) (c : Contents) : Shed thread c (c.setRecord thread id none) where
  threads _ := Or.inl rfl
  records other other' := by
    rw [record_setRecord]
    by_cases e : other = thread ∧ other' = id
    · exact Or.inr ⟨e.1, if_pos e⟩
    · exact Or.inl (if_neg e)
  orders _ := Or.inl rfl

theorem setIndex (thread : String) (c : Contents) : Shed thread c (c.setIndex thread none) where
  threads _ := Or.inl rfl
  records _ _ := Or.inl rfl
  orders other := by
    rw [index_setIndex]
    by_cases e : other = thread
    · exact Or.inr ⟨e, if_pos e⟩
    · exact Or.inl (if_neg e)

theorem setThread (thread : String) (c : Contents) : Shed thread c (c.setThread thread none) where
  threads other := by
    rw [thread_setThread]
    by_cases e : other = thread
    · exact Or.inr ⟨e, if_pos e⟩
    · exact Or.inl (if_neg e)
  records _ _ := Or.inl rfl
  orders _ := Or.inl rfl

theorem setPointer (thread id : String) (v : Option Json) (c : Contents) :
    Shed thread c (c.setPointer id v) :=
  ⟨fun _ => Or.inl rfl, fun _ _ => Or.inl rfl, fun _ => Or.inl rfl⟩

end Shed

/-- Contents that lack all that belongs to a thread: some messages, its order and its record. -/
structure Gone (thread : String) (ids : List String) (c c' : Contents) : Prop where
  shed : Shed thread c c'
  records : ∀ id ∈ ids, ¬ c'.Holds thread id
  order : c'.index thread = none
  absent : c'.thread thread = none

end Contents

namespace Store

open Action Contents

variable {s : Store} {faults : Faults} {c : Contents} {thread : String} {ids : List String}

theorem within_purgeMessage (s : Store) (thread id : String) :
    (s.purgeMessage thread id).Within (s.keys.rowsOf thread id) :=
  only_bind (only_ask ⟨_, rfl, Or.inl rfl⟩) fun _ => s.within_forgetPointer thread id

theorem within_clear (s : Store) (thread : String) :
    (OrderIndex.clear s.keys thread).Within (· = (.messages, s.keys.order thread)) :=
  only_exclusively (only_ask ⟨_, rfl, rfl⟩)

theorem within_purgeRecord (s : Store) (thread : String) :
    (s.purgeRecord thread).Within (· = (.threads, s.keys.thread thread)) :=
  only_ask ⟨_, rfl, rfl⟩

/-- The deletions of a thread have no row in common. -/
theorem apart_purges (s : Store) (plain : Plain thread) (distinct : ids.Pairwise (· ≠ ·))
    (message : ∀ id ∈ ids, IsMessage id) : (s.purges thread ids).Pairwise Action.Apart := by
  refine List.pairwise_append.mpr ⟨List.pairwise_map.mpr ?_, ?_, ?_⟩
  · exact distinct.imp fun {id id'} hne => (s.within_purgeMessage thread id).apart
      (s.within_purgeMessage thread id') (Keyspace.not_rowsOf plain hne)
  · refine List.pairwise_pair.mpr ?_
    refine (s.within_clear thread).apart (s.within_purgeRecord thread) ?_
    rintro _ rfl e
    exact absurd (Prod.mk.inj e).1 (by simp)
  · intro p hp p' hp'
    obtain ⟨id, hid, rfl⟩ := List.mem_map.mp hp
    rcases List.mem_cons.mp hp' with rfl | hp'
    · refine (s.within_purgeMessage thread id).apart (s.within_clear thread) ?_
      rintro _ (rfl | rfl) e
      · have same : s.keys.message thread id = s.keys.message thread Keyspace.orderField :=
          (Prod.mk.inj e).2
        exact (message id hid).2 ((Keyspace.message_eq_iff plain plain).mp same).2
      · exact absurd (Prod.mk.inj e).1 (by simp)
    · obtain rfl := List.mem_singleton.mp hp'
      refine (s.within_purgeMessage thread id).apart (s.within_purgeRecord thread) ?_
      rintro _ (rfl | rfl) e
      · exact absurd (Prod.mk.inj e).1 (by simp)
      · exact absurd (Prod.mk.inj e).1 (by simp)

theorem sure_purges (s : Store) (thread : String) (ids : List String) :
    ∀ p ∈ s.purges thread ids, p.Sure := by
  intro p hp
  rcases List.mem_append.mp hp with hp | hp
  · obtain ⟨id, _, rfl⟩ := List.mem_map.mp hp
    exact sure_bind sure_ask fun _ => s.sure_forgetPointer thread id
  · rcases List.mem_cons.mp hp with rfl | hp
    · exact sure_thenLeave _ sure_ask
    · obtain rfl := List.mem_singleton.mp hp
      exact sure_ask

/-- The record of a message goes, and perhaps its pointer. -/
theorem ends_purgeMessage {id : String} (plain : Plain thread) (hi : IsMessage id)
    (parted : c.Parted) : Ends s.keys faults (s.purgeMessage thread id) c
      (fun _ c' => Shed thread c c' ∧ ¬ c'.Holds thread id) (fun _ c' => Shed thread c c') := by
  refine Ends.bind (ends_deleteMessage plain hi parted ?_ fun _ _ => .refl thread c)
  have erased : ¬ (c.setRecord thread id none).Holds thread id :=
    fun hh => hh (if_pos ⟨rfl, rfl⟩)
  refine (ends_forgetPointer id thread).mono (fun _ c' hc => ?_) fun _ _ h => h.1 ▸ .setRecord ..
  rcases hc with ⟨_, _, rfl⟩ | ⟨_, rfl⟩
  · exact ⟨(Shed.setRecord ..).trans (.setPointer ..), erased⟩
  · exact ⟨.setRecord .., erased⟩

/-- Each of the deletions of a thread takes away something of what belongs to it. -/
theorem ends_purges (plain : Plain thread) (message : ∀ id ∈ ids, IsMessage id) (parted : c.Parted) :
    ∀ p ∈ s.purges thread ids,
      Ends s.keys faults p c (fun _ c' => Shed thread c c') (fun _ c' => Shed thread c c') := by
  intro p hp
  rcases List.mem_append.mp hp with hp | hp
  · obtain ⟨id, hid, rfl⟩ := List.mem_map.mp hp
    exact (ends_purgeMessage plain (message id hid) parted).mono (fun _ _ h => h.1) fun _ _ h => h
  · rcases List.mem_cons.mp hp with rfl | hp
    · exact (OrderIndex.ends_clear plain).mono (fun _ _ e => e ▸ .setIndex ..) fun _ _ h => h.1 ▸ .refl ..
    · obtain rfl := List.mem_singleton.mp hp
      exact ends_deleteThread (.setThread ..) fun _ _ => .refl ..

theorem ends_purge_inOrder (plain : Plain thread) (message : ∀ id ∈ ids, IsMessage id)
    (parted : c.Parted) : Ends s.keys faults (s.purge thread ids) c
      (fun _ c' => Gone thread ids c c') fun _ _ => True := by
  rw [purge_inOrder]
  refine (Ends.forAll (E := fun _ _ => True) (I := fun rest c' => (∀ id ∈ rest, id ∈ ids) ∧
    Shed thread c c' ∧ ∀ id ∈ ids, id ∈ rest ∨ ¬ c'.Holds thread id) ?_ ⟨fun _ h => h,
      .refl thread c, fun id hid => Or.inl hid⟩).andThen (fun _ _ h => h)
    fun _ c₁ ⟨_, shed, gone⟩ => ?_
  · rintro id rest c' ⟨among, shed, gone⟩
    have hid := among id List.mem_cons_self
    refine (ends_purgeMessage plain (message id hid) (shed.parted parted)).mono
      (fun _ c'' ⟨shed', erased⟩ => ?_) fun _ _ _ => trivial
    refine ⟨fun other ho => among other (List.mem_cons_of_mem _ ho), shed.trans shed',
      fun other ho => ?_⟩
    rcases gone other ho with hm | hn
    · rcases List.mem_cons.mp hm with rfl | hm
      · exact Or.inr erased
      · exact Or.inl hm
    · exact Or.inr fun hh => hn (shed'.holds hh)
  refine (OrderIndex.ends_clear plain).andThen (fun _ _ _ => trivial) fun _ c₂ e => ?_
  rw [e]
  refine ends_deleteThread ⟨?_, ?_, if_pos rfl, if_pos rfl⟩ fun _ _ => trivial
  · exact (shed.trans (.setIndex ..)).trans (.setThread ..)
  · exact fun id hid => (gone id hid).resolve_left List.not_mem_nil

/--
The deletion of some messages of a thread, of its order and of its record at the same time. When it is
stopped, any of this may be left.
-/
theorem ends_purge_scheduled {schedule : Schedule} (plain : Plain thread)
    (distinct : ids.Pairwise (· ≠ ·)) (message : ∀ id ∈ ids, IsMessage id) (parted : c.Parted) :
    Ends s.keys faults (s.purge thread ids schedule) c
      (fun _ c' => Gone thread ids c c') (fun _ c' => Shed thread c c') := by
  have apart := apart_purges s plain distinct message
  have well := ends_together faults (schedule thread) apart fun _ =>
    ends_purge_inOrder (s := s) plain message parted
  have stopped := ends_together_stopped (k := s.keys) faults (schedule thread) (I := Shed thread c)
    apart fun _ => by
      refine (Ends.forAll (E := fun _ _ => False) (I := fun rest c' =>
        (∀ p ∈ rest, p ∈ s.purges thread ids) ∧ Shed thread c c') ?_
        ⟨fun _ h => h, .refl thread c⟩).mono (fun _ _ h => h.2) fun _ _ _ => trivial
      rintro p rest c' ⟨among, shed⟩
      refine (Ends.attempt (ends_purges plain message (shed.parted parted) p
        (among p List.mem_cons_self))).mono (fun _ _ shed' => ?_) fun _ _ h => h
      exact ⟨fun p' hp' => among p' (List.mem_cons_of_mem _ hp'), shed.trans shed'⟩
  exact (well.and stopped).mono (fun _ _ h => h.1) fun _ _ h => h.2

end Store

end ChatMemory
