import ChatMemory.Proofs.Recovery

/-!
# What a deletion leaves

All that belongs to a thread is deleted at the same time. A deletion that is stopped can leave any part
of it. If the record of the thread is left, the thread is one that lists messages which it does not
have, and reconciling it settles that. If the record is gone, messages of it may be left all the same
(`Contents.Remnant`). No other thread has to do with them, so they stay until the thread that is gone is
reconciled.

So what operations leave that are stopped is settled by reconciling each thread that there was before.

## Main statements

* `ends_deleteThread_scheduled` — what a deletion leaves, at any schedule.
* `ends_reconcileRemnant` — reconciling keeps remnants, and that of their thread ends them.
* `leaves_perform` — an operation that is stopped leaves scattered contents or remnants.
* `sound_of_reconciled` — after all threads were reconciled that there were, everything is sound.
-/

namespace ChatMemory

/-- Operations that change messages in several steps. -/
def Operation.Rearranges : Operation → Prop
  | .saveMessages _ | .updateMessages _ | .migrateMessage _ _ _ | .deleteThread _ => True
  | _ => False

namespace Contents

variable {c c₀ c' : Contents} {k : Keyspace} {t : Tables} {thread other id : String}

/-- All but the pointers. -/
def main (c : Contents) : (String → Option Json) × (String → String → Option Json) ×
    (String → Option Json) := (c.thread, c.record, c.index)

/-! ## Threads in order -/

/-- A thread whose records decode and name it, and whose order lists its messages. -/
structure Tidy (c : Contents) (thread : String) : Prop where
  placed : ∀ {id r}, c.record thread id = some r →
    ∃ x, Message.ofRecord r = .ok x ∧ x.threadId = thread ∧ x.id = id
  readable : StoredOrder.Readable (c.index thread)
  listed : ∀ id, c.Lists thread id ↔ c.Holds thread id

theorem Sound.tidy (h : c.Sound) (there : c.HasThread thread) : c.Tidy thread where
  placed hr := (h.placed hr).2
  readable := (h.listed there).1
  listed := (h.listed there).2

/-! ## Remnants -/

/-- Contents without the record of a thread, and perhaps without some messages of it and its order. -/
structure Remnant (thread : String) (c₀ c : Contents) : Prop where
  absent : c.thread thread = none
  threads : ∀ other, other ≠ thread → c.thread other = c₀.thread other
  records : ∀ other id, other ≠ thread → c.record other id = c₀.record other id
  orders : ∀ other, other ≠ thread → c₀.HasThread other → c.index other = c₀.index other
  holds : ∀ id, c.Holds thread id → c₀.Holds thread id

namespace Remnant

theorem refl (absent : c.thread thread = none) : Remnant thread c c :=
  ⟨absent, fun _ _ => rfl, fun _ _ _ => rfl, fun _ _ _ => rfl, fun _ hh => hh⟩

theorem of_main_eq (h : Remnant thread c₀ c) (e : c'.main = c.main) : Remnant thread c₀ c' := by
  obtain ⟨same, e⟩ := Prod.mk.inj e
  obtain ⟨same', same''⟩ := Prod.mk.inj e
  refine ⟨same ▸ h.absent, fun other => same ▸ h.threads other, fun other id => same' ▸ h.records other id,
    fun other => same'' ▸ h.orders other, fun id hh => h.holds id ?_⟩
  rwa [Holds, same'] at hh

theorem shed (h : Remnant thread c₀ c) (shed : Shed thread c c') : Remnant thread c₀ c' where
  absent := (shed.threads thread).elim (fun e => e.trans h.absent) And.right
  threads other hne := ((shed.threads other).resolve_right fun e => hne e.1).trans (h.threads other hne)
  records other id hne :=
    ((shed.records other id).resolve_right fun e => hne e.1).trans (h.records other id hne)
  orders other hne there :=
    ((shed.orders other).resolve_right fun e => hne e.1).trans (h.orders other hne there)
  holds id hh := h.holds id (shed.holds hh)

theorem hasThread_iff (h : Remnant thread c₀ c) (hne : other ≠ thread) :
    c.HasThread other ↔ c₀.HasThread other := by
  rw [HasThread, HasThread, h.threads other hne]

theorem trans (h : Remnant thread c₀ c) (h' : Remnant thread c c') : Remnant thread c₀ c' where
  absent := h'.absent
  threads other hne := (h'.threads other hne).trans (h.threads other hne)
  records other id hne := (h'.records other id hne).trans (h.records other id hne)
  orders other hne there :=
    (h'.orders other hne ((h.hasThread_iff hne).mpr there)).trans (h.orders other hne there)
  holds id hh := h.holds id (h'.holds id hh)

/-- The order of another thread that is gone may go too. -/
theorem cleared (h : Remnant thread c₀ c) (absent : ¬ c.HasThread other) :
    Remnant thread c₀ (c.setIndex other none) where
  absent := h.absent
  threads := h.threads
  records := h.records
  orders other' hne there := by
    rw [index_setIndex, if_neg]
    · exact h.orders other' hne there
    · rintro rfl
      exact absent ((h.hasThread_iff hne).mpr there)
  holds := h.holds

variable (h : Remnant thread c₀ c)
include h

theorem tidy (sound : c₀.Sound) (hne : other ≠ thread) (there : c.HasThread other) :
    c.Tidy other := by
  have there₀ := (h.hasThread_iff hne).mp there
  obtain ⟨placed, readable, listed⟩ := sound.tidy there₀
  refine ⟨fun {id r} hr => placed (by rwa [h.records other id hne] at hr), ?_, fun id => ?_⟩
  · rwa [h.orders other hne there₀]
  · rw [Lists, Holds, h.orders other hne there₀, h.records other id hne]
    exact listed id

/-- A thread without a record, other than the one that was deleted, has no messages. -/
theorem not_holds (sound : c₀.Sound) (hne : other ≠ thread) (absent : ¬ c.HasThread other) :
    ¬ c.Holds other id := by
  intro hh
  obtain ⟨r, hr⟩ := Option.ne_none_iff_exists'.mp hh
  rw [h.records other id hne] at hr
  exact absent ((h.hasThread_iff hne).mpr (sound.placed hr).1.1)

theorem parted (parted : c₀.Parted) : c.Parted := by
  intro other id hh
  by_cases e : other = thread
  · exact parted other id (e ▸ h.holds id (e ▸ hh))
  · rw [Holds, h.records other id e] at hh
    exact parted other id hh

/-- When nothing of the messages is left, the contents are sound. -/
theorem sound (sound : c₀.Sound) (ended : ∀ id, ¬ c.Holds thread id) : c.Sound := by
  have record : ∀ {other id r}, c.record other id = some r →
      other ≠ thread ∧ c₀.record other id = some r := by
    intro other id r hr
    have hne : other ≠ thread := by
      rintro rfl
      exact ended id (by rw [Holds, hr]; exact Option.some_ne_none r)
    exact ⟨hne, h.records other id hne ▸ hr⟩
  have holds : ∀ {other id}, c.Holds other id → c₀.Holds other id := by
    intro other id hh
    obtain ⟨r, hr⟩ := Option.ne_none_iff_exists'.mp hh
    rw [Holds, (record hr).2]
    exact Option.some_ne_none r
  refine ⟨fun {other id r} hr => ?_, fun hh ho => sound.unique (holds hh) (holds ho), fun {other} ht => ?_⟩
  · obtain ⟨hne, hr⟩ := record hr
    obtain ⟨⟨there, t, r', hr', ht⟩, placed⟩ := sound.placed hr
    exact ⟨⟨(h.hasThread_iff hne).mpr there, t, r', (h.threads other hne).trans hr', ht⟩, placed⟩
  · have hne : other ≠ thread := by
      rintro rfl
      exact ht.2 h.absent
    obtain ⟨_, readable, listed⟩ := h.tidy sound hne ht
    exact ⟨readable, listed⟩

theorem dated (dated : c₀.Dated) (ended : ∀ id, ¬ c.Holds thread id) : c.Dated := by
  intro other id r x hr hx
  have hne : other ≠ thread := by
    rintro rfl
    exact ended id (by rw [Holds, hr]; exact Option.some_ne_none r)
  rw [h.records other id hne] at hr
  exact dated hr hx

end Remnant

/-- A deletion leaves scattered contents, or remnants of the thread. -/
theorem Shed.scattered_or_remnant (shed : Shed thread c c') (whole : c.Whole)
    (orderly : Orderly soundRule c) : Scattered c' ∨ Remnant thread c c' := by
  by_cases absent : c'.thread thread = none
  · refine Or.inr ⟨absent, fun other hne => (shed.threads other).resolve_right fun e => hne e.1,
      fun other id hne => (shed.records other id).resolve_right fun e => hne e.1,
      fun other hne _ => (shed.orders other).resolve_right fun e => hne e.1, fun _ => shed.holds⟩
  have threads : c'.thread = c.thread := by
    funext other
    rcases shed.threads other with e | ⟨rfl, e⟩
    · exact e
    · exact absurd e absent
  have lists : ∀ {other id}, c'.Lists other id → c.Lists other id := by
    intro other id hl
    rcases shed.orders other with e | ⟨_, e⟩
    · rwa [Lists, e] at hl
    · rw [Lists, e] at hl
      exact absurd hl (by simp)
  refine Or.inl ⟨⟨fun {other id r} hr => ?_, fun {other} there => ?_⟩, fun id => ?_⟩
  · rw [hasThread_of_thread_eq threads]
    rcases shed.records other id with e | ⟨_, e⟩
    · exact orderly.placed (e ▸ hr)
    · exact absurd (e.symm.trans hr) (by simp)
  · rw [hasThread_of_thread_eq threads] at there
    rcases shed.orders other with e | ⟨_, e⟩
    · exact e ▸ orderly.readable there
    · exact e ▸ StoredOrder.sorted_none.readable
  · exact ((whole.scattered orderly).loose id).mono (fun _ => shed.holds) fun _ => lists

/-- What an operation on messages leaves of sound contents. -/
inductive Leaves (op : Operation) (c c' : Contents) : Prop where
  /-- No message is lost but those of a thread that is deleted. -/
  | scattered (h : Scattered c') (threads : ∀ thread, c'.HasThread thread → c.HasThread thread)
      (kept : ∀ thread id, c.Holds thread id → op ≠ .deleteThread thread → c'.IsStored id)
  /-- A thread is gone, and perhaps not all of its messages. -/
  | remnant {thread : String} (deleted : op = .deleteThread thread) (h : Remnant thread c c')

end Contents

namespace Store

open Action Contents

variable {s : Store} {faults : Faults} {c c₀ : Contents} {thread other : String} {schedule : Schedule}

/-! ## Deleting -/

/-- A deletion takes away nothing but what belongs to its thread, at any schedule. -/
theorem ends_deleteThread_scheduled (parted : c.Parted) (thread : String) (schedule : Schedule) :
    Ends s.keys faults (s.deleteThread thread schedule) c
      (fun _ c' => Shed thread c c') (fun _ c' => Shed thread c c') := by
  have refl : ∀ {c'}, c' = c → Shed thread c c' := fun e => e ▸ .refl ..
  refine (ends_check _).andThen (fun _ _ h => refl h.1) fun _ c' hc => ?_
  obtain ⟨rfl, checked⟩ := hc
  have plain := (Identifier.violations_eq_nil.mp checked).plain
  refine (ends_threadExists thread).andThen (fun _ _ h => refl h.1) fun found c' hc => ?_
  obtain ⟨rfl, _⟩ := hc
  refine ends_ite (fun _ => ?_) fun _ => ends_fail (.refl ..)
  refine (ends_messageIds thread).andThen (fun _ _ h => refl h.1) fun ids c' hc => ?_
  obtain ⟨rfl, sorted, hids⟩ := hc
  refine (ends_purge_scheduled plain (sorted.imp String.ne_of_lt) (fun id hid => ((hids id).mp hid).1)
    parted).mono (fun _ _ h => h.shed) fun _ _ h => h

/-! ## Reconciling -/

/-- A message that is in its place stays there. -/
theorem ends_settleCopy_inPlace {id : String} {r : Json} {x : Message} (hi : IsMessage id)
    (hr : c.record thread id = some r) (hx : Message.ofRecord r = .ok x) (home : x.threadId = thread)
    {order : OrderSnapshot} (listed : order.contains id = true) :
    Ends s.keys faults (s.settleCopy thread order id) c
      (fun fate c' => c' = c ∧ fate = .kept x) (fun _ c' => c' = c) := by
  refine (ends_loadCopy hi).andThen (fun _ _ h => h.1) fun found c' hc => ?_
  obtain ⟨rfl, hnone, hsome⟩ := hc
  cases found with
  | none => exact absurd ⟨r, hr, hx⟩ (hnone rfl x)
  | some copy =>
    obtain ⟨r', hr', hx', _⟩ := hsome copy rfl
    obtain rfl := Option.some.inj (hr.symm.trans hr')
    obtain rfl := Except.ok.inj (hx.symm.trans hx')
    refine ends_ite (fun _ => ends_pure ⟨rfl, rfl⟩) fun hne => absurd ?_ hne
    rw [listed, decide_eq_true home]
    rfl

theorem ends_noteAll_main (s : Store) (thread : String) (present : List Message) :
    Ends s.keys faults (Action.forAll (fun x : Message => s.notePointer x.id thread) present) c
      (fun _ c' => c'.main = c.main) (fun _ c' => c'.main = c.main) := by
  refine (Ends.forAll (E := fun _ c' => c'.main = c.main) (I := fun _ c' => c'.main = c.main) ?_
    rfl).mono (fun _ _ h => h) fun _ _ h => h
  intro x rest c₁ same
  refine (ends_notePointer x.id thread).mono (fun _ c₂ e => ?_) fun _ _ h => h.1 ▸ same
  rw [e, noted]
  split
  · exact same
  · exact same

/-- The messages of a thread that is in order are all kept as they are. -/
theorem ends_settleCopies_inPlace (h : c.Tidy thread) {order : OrderSnapshot}
    (lists : ∀ id, order.contains id = true ↔ c.Holds thread id) {ids : List String}
    (hids : ∀ id ∈ ids, IsMessage id ∧ c.Holds thread id) :
    Ends s.keys faults (Action.each (s.settleCopy thread order) ids) c
      (fun fates c' => c' = c ∧ (∀ id ∈ ids, ∃ x, .kept x ∈ fates ∧ x.id = id) ∧
        ∀ fate ∈ fates, ∃ x, fate = .kept x ∧ c.Holds thread x.id)
      (fun _ c' => c' = c) := by
  refine (Ends.each (E := fun _ c' => c' = c) (I := fun rest fates c' => c' = c ∧
    (∀ id ∈ rest, id ∈ ids) ∧ (∀ id ∈ ids, id ∈ rest ∨ ∃ x, .kept x ∈ fates ∧ x.id = id) ∧
      ∀ fate ∈ fates, ∃ x, fate = .kept x ∧ c.Holds thread x.id) ?_ ⟨rfl, fun _ h => h,
        fun id hid => Or.inl hid, fun _ h => absurd h List.not_mem_nil⟩).mono
    (fun fates c' ⟨e, _, settled, kept⟩ => ?_) fun _ _ e => e
  · rintro id rest fates _ ⟨rfl, among, settled, kept⟩
    obtain ⟨hi, hh⟩ := hids id (among id List.mem_cons_self)
    obtain ⟨r, hr⟩ := Option.ne_none_iff_exists'.mp hh
    obtain ⟨x, hx, home, name⟩ := h.placed hr
    refine (ends_settleCopy_inPlace hi hr hx home ((lists id).mpr hh)).mono ?_ fun _ _ h => h
    rintro _ _ ⟨rfl, rfl⟩
    refine ⟨rfl, fun id' hid' => among id' (List.mem_cons_of_mem _ hid'), fun id' hid' => ?_,
      fun fate hf => ?_⟩
    · rcases settled id' hid' with hm | ⟨y, hy, e⟩
      · rcases List.mem_cons.mp hm with rfl | hm
        · exact Or.inr ⟨x, List.mem_append_right _ List.mem_cons_self, name⟩
        · exact Or.inl hm
      · exact Or.inr ⟨y, List.mem_append_left _ hy, e⟩
    · rcases List.mem_append.mp hf with hf | hf
      · exact kept fate hf
      · exact ⟨x, List.mem_singleton.mp hf, name ▸ hh⟩
  · rw [List.nil_append] at settled kept
    exact ⟨e, fun id hid => (settled id hid).resolve_left List.not_mem_nil, kept⟩

/-- Reconciling a thread that is in order changes nothing but pointers. -/
theorem ends_reconcileTidy (h : c.Tidy thread) (plain : Plain thread) {ids : List String}
    (hids : ∀ id, id ∈ ids ↔ IsMessage id ∧ c.Holds thread id)
    (message : ∀ id, c.Holds thread id → IsMessage id) :
    Ends s.keys faults (s.reconcileExisting thread ids) c
      (fun _ c' => c'.main = c.main) (fun _ c' => c'.main = c.main) := by
  refine (OrderIndex.ends_snapshot plain).andThen (fun _ _ e => by rw [e.1]) fun order c' hc => ?_
  obtain ⟨rfl, entries, he, rfl⟩ := hc
  have lists : ∀ id, (OrderSnapshot.ofEntries entries).contains id = true ↔ c'.Holds thread id :=
    fun id => (StoredOrder.lists_iff_contains he).symm.trans (h.listed id)
  generalize OrderSnapshot.ofEntries entries = order at lists ⊢
  refine (ends_settleCopies_inPlace h lists fun id => (hids id).mp).andThen (fun _ _ e => by rw [e])
    fun fates c₁ hc => ?_
  obtain ⟨rfl, settled, kept⟩ := hc
  -- Nothing is dropped from the order, and nothing is added.
  have dropped : order.ids.filter (fun id => !((fates.filterMap CopyFate.present?).any (·.id = id)) &&
      !(fates.filterMap CopyFate.unreadable?).contains id) = [] := by
    refine List.filter_eq_nil_iff.mpr fun id hid => ?_
    rw [OrderSnapshot.ids_eq_map, List.mem_map, ← OrderSnapshot.contains_iff, lists] at hid
    obtain ⟨x, hx, e⟩ := settled id ((hids id).mpr ⟨message id hid, hid⟩)
    have found : (fates.filterMap CopyFate.present?).any (·.id = id) = true :=
      List.any_eq_true.mpr ⟨x, List.mem_filterMap.mpr ⟨_, hx, rfl⟩, decide_eq_true e⟩
    simp [found]
  have unindexed : (fates.filterMap CopyFate.present?).filter (fun m => !order.contains m.id) = [] := by
    refine List.filter_eq_nil_iff.mpr fun x hx => ?_
    obtain ⟨fate, hf, hp⟩ := List.mem_filterMap.mp hx
    obtain ⟨y, rfl, hh⟩ := kept fate hf
    obtain rfl := Option.some.inj hp
    simp [(lists y.id).mpr hh]
  simp only [dropped, unindexed, List.map_nil]
  exact (s.ends_noteAll_main thread _).andThen (fun _ _ h => h) fun _ _ h => ends_pure h

/-- Reconciling a thread without a record takes away its messages. -/
theorem ends_reconcileGone_scheduled (plain : Plain thread) (parted : c.Parted) {ids : List String}
    (distinct : ids.Pairwise (· ≠ ·)) (message : ∀ id ∈ ids, IsMessage id) :
    Ends s.keys faults (s.reconcileGone thread ids schedule) c
      (fun _ c' => Shed thread c c' ∧ ∀ id ∈ ids, ¬ c'.Holds thread id)
      (fun _ c' => Shed thread c c') := by
  refine (s.reads_snapshot thread).ends.andThen (fun _ _ e => e ▸ .refl ..) fun order c' e => ?_
  subst e
  refine ends_ite (fun nothing => ?_) fun _ => ?_
  · obtain rfl := List.isEmpty_iff.mp (Bool.and_eq_true_iff.mp nothing).1
    exact ends_pure ⟨.refl .., fun _ hid => absurd hid List.not_mem_nil⟩
  · refine (ends_purge_scheduled plain distinct message parted).andThen (fun _ _ h => h) fun _ _ h => ?_
    exact ends_pure ⟨h.shed, h.records⟩

/-- Reconciling leaves remnants at most, and none if it is that of their thread. -/
theorem ends_reconcileRemnant (h : Remnant thread c₀ c) (sound : c₀.Sound) (parted : c₀.Parted)
    (message : ∀ other id, c₀.Holds other id → IsMessage id) (other : String) (schedule : Schedule) :
    Ends s.keys faults (s.reconcileThread other schedule) c
      (fun _ c' => Remnant thread c c' ∧ (other = thread → ∀ id, ¬ c'.Holds thread id))
      (fun _ c' => Remnant thread c c') := by
  have rest : Remnant thread c c := .refl h.absent
  refine (ends_check _).andThen (fun _ _ e => e.1 ▸ rest) fun _ c' hc => ?_
  obtain ⟨rfl, checked⟩ := hc
  have valid := Identifier.violations_eq_nil.mp checked
  refine (ends_messageIds other).andThen (fun _ _ e => e.1 ▸ rest) fun ids c' hc => ?_
  obtain ⟨rfl, sorted, hids⟩ := hc
  refine (ends_threadExists other).andThen (fun _ _ e => e.1 ▸ rest) fun found c' hc => ?_
  obtain ⟨rfl, hnone, hsome⟩ := hc
  refine ends_ite (fun hf => ?_) fun hf => ?_
  · obtain ⟨t, ht⟩ := hsome hf
    have there := ht.hasThread valid.ne_empty
    have hne : other ≠ thread := by
      rintro rfl
      exact there.2 h.absent
    refine (ends_reconcileTidy (h.tidy sound hne there) valid.plain hids fun id hh => ?_).mono
      (fun _ _ e => ⟨rest.of_main_eq e, fun e => absurd e hne⟩) fun _ _ e => rest.of_main_eq e
    rw [Holds, h.records other id hne] at hh
    exact message other id hh
  have absent : c'.thread other = none := hnone (by simpa using hf)
  by_cases hne : other = thread
  · subst hne
    refine (ends_reconcileGone_scheduled valid.plain (h.parted parted) (sorted.imp String.ne_of_lt)
      fun id hid => ((hids id).mp hid).1).mono (fun _ c₁ hc => ⟨rest.shed hc.1, fun _ id hh => ?_⟩)
      fun _ _ shed => rest.shed shed
    have before := hc.1.holds hh
    exact hc.2 id ((hids id).mpr ⟨message other id (h.holds id before), before⟩) hh
  · have gone : ¬ c'.HasThread other := fun there => there.2 absent
    obtain rfl : ids = [] := List.eq_nil_iff_forall_not_mem.mpr fun id hid =>
      h.not_holds sound hne gone ((hids id).mp hid).2
    have cleared : ∀ {c₁}, c₁ = c' ∨ c₁ = c'.setIndex other none → Remnant thread c' c₁ := by
      rintro _ (rfl | rfl)
      · exact rest
      · exact rest.cleared gone
    exact (ends_reconcileGone valid absent).mono (fun _ _ e => ⟨cleared e, fun e => absurd e hne⟩)
      fun _ _ e => cleared (e.imp_right And.right)

/-- Remnants of a thread are gone when it was reconciled, and other threads have what they had. -/
theorem sound_of_remnant {w w' : World} (h : Remnant thread c₀ (s.keys.contents w.tables))
    (sound : c₀.Sound) (parted : c₀.Parted) (message : ∀ other id, c₀.Holds other id → IsMessage id)
    {attempts : List (String × Schedule)} {results : List (String × Except MemoryError ReconcileReport)}
    (run : s.reconcileAll faults attempts w = (results, w'))
    (done : c₀.HasThread thread → ∃ report, (thread, .ok report) ∈ results) :
    Remnant thread c₀ (s.keys.contents w'.tables) ∧
      ∀ id, ¬ (s.keys.contents w'.tables).Holds thread id := by
  have keeps : ∀ {c c' : Contents}, Remnant thread c c' → ∀ other,
      (other = thread → ∀ id, ¬ c.Holds thread id) → other = thread → ∀ id, ¬ c'.Holds thread id :=
    fun left other none e id hh => none e id (left.holds id hh)
  obtain ⟨left, _, all⟩ := reconcileAll_induction (I := Remnant thread c₀)
    (D := fun other c' => other = thread → ∀ id, ¬ c'.Holds thread id) (fun other schedule c left =>
      (ends_reconcileRemnant left sound parted message other schedule).mono
        (fun _ _ ⟨left', ended⟩ => ⟨left.trans left', ended, keeps left'⟩)
        fun _ _ left' => ⟨left.trans left', keeps left'⟩) attempts run h
  refine ⟨left, ?_⟩
  by_cases there : c₀.HasThread thread
  · obtain ⟨report, hm⟩ := done there
    exact all thread report hm rfl
  · intro id hh
    obtain ⟨r, hr⟩ := Option.ne_none_iff_exists'.mp (left.holds id hh)
    exact there (sound.placed hr).1.1

/-! ## All is sound again -/

/-- What an operation on messages leaves, whether it comes to its end or is stopped. -/
theorem leaves_perform (s : Store) {w : World} (sound : (s.keys.contents w.tables).Sound)
    (dated : (s.keys.contents w.tables).Dated) {op : Operation} (rearranges : op.Rearranges)
    (hd : op.Dated Instant.FourDigit) (now : Instant) (schedule : Schedule) (faults : Faults) :
    Leaves op (s.keys.contents w.tables)
      (s.keys.contents ((s.perform now op schedule).run faults w).2.tables) := by
  have orderly := sound.orderly dated
  by_cases edits : op.Edits
  · obtain ⟨scattered, threads, kept⟩ :=
      (step_performEdits s now faults w schedule edits orderly hd).scattered edits orderly sound.whole
    exact .scattered scattered (fun _ there => threads ▸ there) fun thread id hh _ =>
      kept id ⟨thread, hh⟩
  cases op with
  | deleteThread gone =>
    have deleted : Ends s.keys faults (s.perform now (.deleteThread gone) schedule)
        (s.keys.contents w.tables) (fun _ c' => Shed gone (s.keys.contents w.tables) c')
        fun _ c' => Shed gone (s.keys.contents w.tables) c' :=
      Ends.map (ends_deleteThread_scheduled orderly.parted gone schedule)
    have shed := deleted.always rfl
    rcases shed.scattered_or_remnant sound.whole orderly with scattered | left
    · refine .scattered scattered (fun _ there => shed.hasThread there) fun thread id hh hne =>
        ⟨thread, ?_⟩
      have same := (shed.records thread id).resolve_right fun e => hne (congrArg _ e.1.symm)
      exact fun none => hh (same.symm.trans none)
    · exact .remnant rfl left
  | saveMessages _ | updateMessages _ | migrateMessage _ _ _ => exact absurd trivial edits
  | _ => exact rearranges.elim

/--
From sound contents, any operation that rearranges messages may be stopped by any calls that fail, with
what it does at the same time in any order. When after that threads are reconciled, with more calls
failing, but each thread that there was before, the one that was being deleted too, once without
failure, then the contents are sound again. A message that was stored before is in exactly one thread,
unless it was in a thread that was being deleted.
-/
theorem sound_of_reconciled (s : Store) {w w₁ w₂ : World}
    (sound : (s.keys.contents w.tables).Sound) (dated : (s.keys.contents w.tables).Dated)
    {op : Operation} (rearranges : op.Rearranges) (hd : op.Dated Instant.FourDigit) (now : Instant)
    (schedule : Schedule) (faults : Faults) (h₁ : ((s.perform now op schedule).run faults w).2 = w₁)
    (attempts : List (String × Schedule)) (faults' : Faults)
    {results : List (String × Except MemoryError ReconcileReport)}
    (h₂ : s.reconcileAll faults' attempts w₁ = (results, w₂))
    (each : ∀ thread, (s.keys.contents w.tables).HasThread thread →
      ∃ report, (thread, .ok report) ∈ results) :
    (s.keys.contents w₂.tables).Sound ∧ (s.keys.contents w₂.tables).Dated ∧
      ∀ thread id, (s.keys.contents w.tables).Holds thread id → op ≠ .deleteThread thread →
        ∃ home, ∀ other, (s.keys.contents w₂.tables).Holds other id ↔ other = home := by
  have leaves := s.leaves_perform sound dated rearranges hd now schedule faults
  rw [h₁] at leaves
  cases leaves with
  | scattered h threads kept =>
    obtain ⟨sound₂, dated₂, stored⟩ := sound_of_scattered h h₂ fun thread there =>
      each thread (threads thread there)
    exact ⟨sound₂, dated₂, fun thread id hh hne =>
      sound₂.exists_home (stored id (kept thread id hh hne))⟩
  | @remnant gone deleted h =>
    obtain ⟨left, ended⟩ := sound_of_remnant h sound (sound.orderly dated).parted
      (fun _ _ hh => isMessage_of_holds hh) h₂ fun there => each gone there
    have sound₂ := left.sound sound ended
    refine ⟨sound₂, left.dated dated ended, fun thread id hh hne => sound₂.exists_home ⟨thread, ?_⟩⟩
    have apart : thread ≠ gone := fun e => hne (e ▸ deleted)
    exact fun none => hh ((left.records thread id apart).symm.trans none)

end Store

/-! ## A sample -/

namespace Sample

open Contents

/-- The order of the calls in which the message is deleted after the thread. -/
def messagesLast : Schedule := fun _ => [1, 2]

/-- The record of the message in a thread cannot be deleted. -/
def undeletable (thread : String) : Faults :=
  FaultRule.faults [⟨some "delete", none, some ("messages:" ++ thread ++ ":m")⟩]

/-- After a deletion of the thread of the message was stopped. -/
def remains : Except MemoryError Reply × World :=
  ((store true).perform now (.deleteThread "b") messagesLast).run (undeletable "b") (world true "b")

/-- After that some threads are reconciled. -/
def swept (threads : List String) : List (String × Except MemoryError ReconcileReport) × World :=
  (store true).reconcileAll Faults.none (threads.map (·, Schedule.inOrder)) remains.2

theorem exists_report {results : List (String × Except MemoryError ReconcileReport)}
    {thread : String} (h : results.any (fun e => e.1 == thread && e.2.isOk) = true) :
    ∃ report, (thread, .ok report) ∈ results := by
  obtain ⟨⟨_, result⟩, hm, found⟩ := List.any_eq_true.mp h
  obtain ⟨e, ok⟩ := Bool.and_eq_true_iff.mp found
  cases result with
  | ok report => exact ⟨report, eq_of_beq e ▸ hm⟩
  | error _ => exact absurd ok (by simp [Except.isOk, Except.toBool])

theorem not_hasThread {thread : String} {t : Tables}
    (h : (t.get? .threads ((store true).keys.thread thread)).isNone) :
    ¬ ((store true).keys.contents t).HasThread thread := fun there =>
  there.2 (Option.isNone_iff_eq_none.mp h)

end Sample

namespace Store

open Contents

/--
A deletion that is stopped has left the message without its thread. When both threads that there were
are reconciled, the message is gone too.
-/
theorem sound_after_deletion :
    ((Sample.store true).keys.contents Sample.remains.2.tables).Holds "b" "m" ∧
    ¬ ((Sample.store true).keys.contents Sample.remains.2.tables).HasThread "b" ∧
    ((Sample.store true).keys.contents (Sample.swept ["a", "b"]).2.tables).Sound ∧
    ((Sample.store true).keys.contents (Sample.swept ["a", "b"]).2.tables).Dated := by
  obtain ⟨sound, dated⟩ := Sample.sound true "b" (by decide +kernel)
  have reconciled : ∀ thread ∈ ["a", "b"], (Sample.swept ["a", "b"]).1.any
      (fun e => e.1 == thread && e.2.isOk) = true := by decide +kernel
  have rearranges : (Operation.deleteThread "b").Rearranges := trivial
  obtain ⟨sound', dated', _⟩ := sound_of_reconciled (Sample.store true) sound dated rearranges trivial
    Sample.now Sample.messagesLast (Sample.undeletable "b") rfl _ Faults.none rfl fun thread there =>
      Sample.exists_report (reconciled thread (Sample.mem_of_hasThread (by decide +kernel) there))
  exact ⟨Sample.holds_of_isSome (by decide +kernel), Sample.not_hasThread (by decide +kernel), sound',
    dated'⟩

/--
When only the threads are reconciled that there still are, the message stays without its thread.
-/
theorem unsound_after_deletion :
    ((Sample.store true).keys.contents (Sample.world true "b").tables).Sound ∧
    ((Sample.store true).keys.contents (Sample.world true "b").tables).Dated ∧
    Sample.remains.1.isOk = false ∧
    (∀ thread, ((Sample.store true).keys.contents Sample.remains.2.tables).HasThread thread →
      ∃ report, (thread, .ok report) ∈ (Sample.swept ["a"]).1) ∧
    ¬ ((Sample.store true).keys.contents (Sample.swept ["a"]).2.tables).Sound := by
  obtain ⟨sound, dated⟩ := Sample.sound true "b" (by decide +kernel)
  refine ⟨sound, dated, by decide +kernel, fun thread there => ?_, fun unsound => ?_⟩
  · have mem : thread ∈ ["a"] := Sample.mem_of_hasThread (by decide +kernel) there
    obtain rfl := List.mem_singleton.mp mem
    exact Sample.exists_report (by decide +kernel)
  · have left : ((Sample.store true).keys.contents (Sample.swept ["a"]).2.tables).Holds "b" "m" :=
      Sample.holds_of_isSome (by decide +kernel)
    obtain ⟨r, hr⟩ := Option.ne_none_iff_exists'.mp left
    exact Sample.not_hasThread (by decide +kernel) (unsound.placed hr).1.1

end Store

end ChatMemory
