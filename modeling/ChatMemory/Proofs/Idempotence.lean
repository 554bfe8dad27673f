import ChatMemory.Proofs.Removal

/-!
# Reconciling twice

A thread is at rest if its order lists the records that decode and nothing that is not there, and all
these records name the thread and are noted. Reconciling a thread at rest changes nothing and reports
nothing, and reconciling any thread leaves it at rest. So the second of two passes is for nothing, and
the report of a pass is clean just if the pass changed neither a thread nor a message.

## Main statements

* `Fates.isClean_iff` — when the report on the fates of all records is clean.
* `AtRest.yields_reconcileExisting` — reconciling a thread at rest.
* `Settlement.atRest`, `Settlement.isClean_iff` — a thread with a record after a pass, and the report.
* `yields_purge` — a thread without a record after a pass.
* `reconcileThread_idempotent` — what two passes do, whatever was wrong before.
-/

namespace ChatMemory

namespace Store

open Action

variable {s : Store} {thread id : String} {t t' : Tables} {ids : List String}
  {fate : String → CopyFate} {order : OrderSnapshot} {report : ReconcileReport}

/-! ## Clean reports -/

theorem isClean_reportOf {fates : List CopyFate} : (reportOf thread order fates).isClean = true ↔
    unlistedOf order fates = [] ∧ staleOf order fates = [] ∧
      fates.filterMap CopyFate.removed? = [] ∧ fates.filterMap CopyFate.adopted? = [] := by
  simp [ReconcileReport.isClean, reportOf, List.isEmpty_iff, and_assoc]

namespace Fates

/-- If the report is clean, the records that decode stay and were listed. -/
theorem stays_of_isClean (h : Fates s thread t t' ids fate order)
    (clean : (reportOf thread order (ids.map fate)).isClean = true) (hid : id ∈ ids) {x : Message}
    (hx : x.ReadFrom (s.keys.stored t thread id)) :
    fate id = .kept x ∧ StoredOrder.Lists (s.keys.stored t thread Keyspace.orderField) id := by
  obtain ⟨listed, _, removed, adopted⟩ := isClean_reportOf.mp clean
  have quiet : ∀ {f : CopyFate → Option String}, (ids.map fate).filterMap f = [] →
      f (fate id) = none := fun he =>
    List.filterMap_eq_nil_iff.mp he _ (List.mem_map_of_mem hid)
  cases h.fates id hid with
  | unreadable damaged _ _ => exact absurd hx (damaged x)
  | removed _ _ f _ => exact absurd (f ▸ quiet removed) (by simp [CopyFate.removed?])
  | adopted _ _ f _ => exact absurd (f ▸ quiet adopted) (by simp [CopyFate.adopted?])
  | kept hy _ f _ =>
    obtain rfl := hx.unique hy
    obtain rfl := h.named id ((h.mem id).mp hid).1 x hx
    refine ⟨f, h.contains_iff.mp ?_⟩
    have present := h.mem_present.mpr ⟨hid, by rw [f]; rfl⟩
    simpa using List.filter_eq_nil_iff.mp listed x present

/-- If the report is clean, the order listed nothing that is not there. -/
theorem mem_of_isClean (h : Fates s thread t t' ids fate order)
    (clean : (reportOf thread order (ids.map fate)).isClean = true)
    (hl : StoredOrder.Lists (s.keys.stored t thread Keyspace.orderField) id) : id ∈ ids := by
  obtain ⟨_, fresh, _, _⟩ := isClean_reportOf.mp clean
  refine Classical.byContradiction fun hid => ?_
  refine List.not_mem_nil (fresh ▸ h.mem_stale.mpr ⟨hl, ?_, fun hu => hid hu.1⟩)
  rintro x hx rfl
  exact hid (h.mem_present.mp hx).1

theorem unreadable_or_kept (h : Fates s thread t t' ids fate order) (hid : id ∈ ids)
    (kept : ∀ x : Message, x.ReadFrom (s.keys.stored t thread id) → fate id = .kept x) :
    fate id = .unreadable id ∨
      ∃ x : Message, x.ReadFrom (s.keys.stored t thread id) ∧ fate id = .kept x := by
  cases h.fates id hid with
  | unreadable _ f _ => exact Or.inl f
  | kept hx _ _ _ => exact Or.inr ⟨_, hx, kept _ hx⟩
  | adopted hx _ _ _ => exact Or.inr ⟨_, hx, kept _ hx⟩
  | removed hx _ _ _ => exact Or.inr ⟨_, hx, kept _ hx⟩

/-- A report is clean just if the records that decode stay and were listed, and nothing else was. -/
theorem isClean_iff (h : Fates s thread t t' ids fate order) :
    (reportOf thread order (ids.map fate)).isClean = true ↔
      (∀ id ∈ ids, ∀ x : Message, x.ReadFrom (s.keys.stored t thread id) →
        fate id = .kept x ∧ StoredOrder.Lists (s.keys.stored t thread Keyspace.orderField) id) ∧
      ∀ id, StoredOrder.Lists (s.keys.stored t thread Keyspace.orderField) id → id ∈ ids := by
  refine ⟨fun clean => ⟨fun id hid x hx => h.stays_of_isClean clean hid hx,
    fun id hl => h.mem_of_isClean clean hl⟩, ?_⟩
  rintro ⟨stays, there⟩
  -- If every record that decodes is kept, no other fates are left than these two.
  have split : ∀ id ∈ ids, _ := fun id hid =>
    h.unreadable_or_kept hid fun x hx => (stays id hid x hx).1
  have quiet : ∀ {f : CopyFate → Option String}, (∀ x, f (.kept x) = none) →
      (∀ id, f (.unreadable id) = none) → (ids.map fate).filterMap f = [] := by
    intro f hkept hunreadable
    rw [List.filterMap_map]
    refine List.filterMap_eq_nil_iff.mpr fun id hid => ?_
    rw [Function.comp_apply]
    rcases split id hid with f | ⟨x, _, f⟩
    · rw [f, hunreadable]
    · rw [f, hkept]
  have listed : unlistedOf order (ids.map fate) = [] := by
    refine List.filter_eq_nil_iff.mpr fun x hx => ?_
    obtain ⟨hid, hp⟩ := h.mem_present.mp hx
    rcases split x.id hid with f | ⟨y, hy, _⟩
    · exact absurd (f ▸ hp) (by simp [CopyFate.present?])
    · simp [h.contains_iff.mpr (stays x.id hid y hy).2]
  have fresh : staleOf order (ids.map fate) = [] := by
    refine List.eq_nil_iff_forall_not_mem.mpr fun id hs => ?_
    obtain ⟨hl, away, readable⟩ := h.mem_stale.mp hs
    have hid := there id hl
    rcases split id hid with f | ⟨x, hx, f⟩
    · exact readable ⟨hid, f⟩
    · obtain rfl := h.named id ((h.mem id).mp hid).1 x hx
      exact away x (h.mem_present.mpr ⟨hid, by rw [f]; rfl⟩) rfl
  exact isClean_reportOf.mpr ⟨listed, fresh, quiet (fun _ => rfl) fun _ => rfl,
    quiet (fun _ => rfl) fun _ => rfl⟩

end Fates

/-! ## Threads at rest -/

/-- There is nothing to be settled in a thread. -/
structure AtRest (s : Store) (thread : String) (t : Tables) : Prop where
  readable : StoredOrder.Readable (s.keys.stored t thread Keyspace.orderField)
  named : s.keys.Named t thread
  inPlace : ∀ id, IsMessage id → ∀ x : Message, x.ReadFrom (s.keys.stored t thread id) →
    x.threadId = thread ∧ StoredOrder.Lists (s.keys.stored t thread Keyspace.orderField) id ∧
      (s.config.trackMessageThreads = true →
        t.get? .messageThreads (s.keys.pointer id) = some (.str thread))
  there : ∀ id, StoredOrder.Lists (s.keys.stored t thread Keyspace.orderField) id →
    IsMessage id ∧ s.keys.stored t thread id ≠ none

/-- A record in a thread at rest is left as it is. -/
theorem AtRest.yields_settleCopy (h : AtRest s thread t) (hi : IsMessage id)
    (lists : order.contains id = true ↔
      StoredOrder.Lists (s.keys.stored t thread Keyspace.orderField) id) :
    ∃ fate, (s.settleCopy thread order id).Yields t fate t ∧
      Fate thread id False (s.keys.stored t thread id) fate (s.keys.stored t thread id) := by
  obtain ⟨found, t', loaded, _⟩ : ∃ found t', (s.loadCopy thread id).Yields t found t' ∧ _ :=
    (ends_loadCopy hi).exists_yields fun _ _ h => Faults.not_active_none h.2
  obtain ⟨rfl, hnone, hsome⟩ := yields_loadCopy loaded
  cases found with
  | none =>
    exact ⟨_, yields_bind.mpr ⟨_, _, loaded, yields_pure.mpr ⟨rfl, rfl⟩⟩,
      .unreadable (hnone rfl) rfl rfl⟩
  | some copy =>
    have hx := (hsome copy rfl).1
    obtain ⟨here, listed, _⟩ := h.inPlace id hi copy.message hx
    refine ⟨.kept copy.message, yields_bind.mpr ⟨_, _, loaded, ?_⟩, .kept hx here rfl rfl⟩
    refine yields_ite.mpr (Or.inl ⟨?_, yields_pure.mpr ⟨rfl, rfl⟩⟩)
    rw [lists.mpr listed, decide_eq_true here]
    rfl

/-- All records in a thread at rest are left as they are. -/
theorem AtRest.fates (h : AtRest s thread t)
    (mem : ∀ id, id ∈ ids ↔ IsMessage id ∧ s.keys.stored t thread id ≠ none) :
    ∃ fate order, Fates s thread t t ids fate order ∧
      (OrderIndex.snapshot s.keys thread).Yields t order t ∧
      (Action.each (s.settleCopy thread order) ids).Yields t (ids.map fate) t := by
  obtain ⟨entries, he⟩ := h.readable
  obtain ⟨fate, hfate⟩ := Classical.axiomOfChoice (r := fun id fate => id ∈ ids →
      (s.settleCopy thread (.ofEntries entries) id).Yields t fate t ∧
        Fate thread id False (s.keys.stored t thread id) fate (s.keys.stored t thread id))
    fun id => by
      by_cases hid : id ∈ ids
      · obtain ⟨fate, hf⟩ := h.yields_settleCopy ((mem id).mp hid).1
          (StoredOrder.lists_iff_contains he).symm
        exact ⟨fate, fun _ => hf⟩
      · exact ⟨.unreadable id, fun h => absurd h hid⟩
  exact ⟨fate, .ofEntries entries, ⟨h.named, mem, ⟨entries, he, rfl⟩,
    fun id hid => (hfate id hid).2.mono False.elim⟩,
    OrderIndex.yields_snapshot.mpr ⟨rfl, entries, he, rfl⟩,
    Yields.each_rest fun id hid => (hfate id hid).1⟩

theorem put_same {table : Table} {key : String} {v : Json} (h : t.get? table key = some v) :
    t.put table key v = t := by
  refine Tables.ext fun other k => ?_
  rw [Tables.get?_put]
  split
  · next e => rw [e.1, e.2, h]
  · rfl

/-- Reconciling a thread at rest does nothing. -/
theorem AtRest.yields_reconcileExisting (h : AtRest s thread t)
    (mem : ∀ id, id ∈ ids ↔ IsMessage id ∧ s.keys.stored t thread id ≠ none) :
    (s.reconcileExisting thread ids).Yields t { threadId := thread } t := by
  obtain ⟨fate, order, fates, snapshot, settled⟩ := h.fates mem
  have kept : ∀ id ∈ ids, ∀ x : Message, x.ReadFrom (s.keys.stored t thread id) →
      fate id = .kept x := by
    intro id hid x hx
    cases fates.fates id hid with
    | unreadable damaged _ _ => exact absurd hx (damaged x)
    | kept hy _ f _ => exact hx.unique hy ▸ f
    | adopted hy away _ _ => exact absurd (h.inPlace id ((mem id).mp hid).1 _ hy).1 away
    | removed _ _ _ e => exact absurd e ((mem id).mp hid).2
  have clean := fates.isClean_iff.mpr ⟨fun id hid x hx => ⟨kept id hid x hx,
    (h.inPlace id ((mem id).mp hid).1 x hx).2.1⟩, fun id hl => (mem id).mpr (h.there id hl)⟩
  obtain ⟨listed, fresh, removed, adopted⟩ := isClean_reportOf.mp clean
  -- With nothing to take out of the order or to put in, the order is not even written.
  have remove : (OrderIndex.remove s.keys thread (staleOf order (ids.map fate))).Yields t () t := by
    rw [fresh]
    exact yields_pure.mpr ⟨rfl, rfl⟩
  have add : (OrderIndex.add s.keys thread ((unlistedOf order (ids.map fate)).map
      fun x => ⟨x.id, scoreFor x.createdAt 0⟩)).Yields t () t := by
    rw [listed]
    exact yields_pure.mpr ⟨rfl, rfl⟩
  have noted : (Action.forAll (fun x : Message => s.notePointer x.id thread)
      (presentOf (ids.map fate))).Yields t () t := by
    refine Yields.forAll_rest fun x hx => yields_ite.mpr ?_
    by_cases on : s.config.trackMessageThreads = true
    · refine Or.inl ⟨on, yields_ask.mpr ⟨rfl, (put_same ?_).symm⟩⟩
      obtain ⟨hid, hp⟩ := fates.mem_present.mp hx
      obtain ⟨hi, stored⟩ := (mem x.id).mp hid
      cases fates.fates x.id hid with
      | unreadable _ f _ => exact absurd (f ▸ hp) (by simp [CopyFate.present?])
      | kept hy _ _ _ => exact (h.inPlace x.id hi _ hy).2.2 on
      | adopted hy _ _ _ => exact (h.inPlace x.id hi _ hy).2.2 on
      | removed _ _ _ e => exact absurd e stored
    · exact Or.inr ⟨on, yields_pure.mpr ⟨rfl, rfl⟩⟩
  refine yields_bind.mpr ⟨order, t, snapshot, yields_bind.mpr ⟨ids.map fate, t, settled, ?_⟩⟩
  refine yields_bind.mpr ⟨(), t, remove, yields_bind.mpr ⟨(), t, add, ?_⟩⟩
  refine yields_bind.mpr ⟨(), t, noted, yields_pure.mpr ⟨?_, rfl⟩⟩
  show ({ threadId := thread } : ReconcileReport) = reportOf thread order (ids.map fate)
  rw [reportOf, listed, fresh, removed, adopted]
  rfl

/-! ## After a pass over a thread with a record -/

namespace Settlement

theorem named_after (h : Settlement s thread t t' ids fate order) : s.keys.Named t' thread := by
  intro id hi x hx
  have hid : id ∈ ids := Classical.byContradiction fun hid => hx.ne_none (h.absent id hi hid)
  exact (h.fates id hid).named (h.named id hi) hx

/-- The pass leaves the thread at rest. -/
theorem atRest (h : Settlement s thread t t' ids fate order) : AtRest s thread t' where
  readable := h.readable
  named := h.named_after
  inPlace id hi x hx := by
    have hid : id ∈ ids := Classical.byContradiction fun hid => hx.ne_none (h.absent id hi hid)
    have stays : (fate id).present? = some x := by
      cases h.fates id hid with
      | unreadable damaged _ e => exact absurd (e ▸ hx) (damaged x)
      | kept hy _ f e => rw [f, hy.unique (e ▸ hx)]; rfl
      | adopted _ _ f e =>
        rw [e] at hx
        rw [f, hx.of_toRecord]
        rfl
      | removed _ _ _ e => exact absurd e hx.ne_none
    have listed : StoredOrder.Lists (s.keys.stored t' thread Keyspace.orderField) id := by
      rw [StoredOrder.Lists, h.score_present hid stays]
      simp
    obtain rfl := h.id_of_present hid stays
    exact ⟨h.names hid hx, listed, fun on => h.noted on x (h.mem_present.mpr ⟨hid, stays⟩)⟩
  there id hl := by
    have hid : id ∈ ids := Classical.byContradiction fun hid =>
      hl (h.score_gone fun h => absurd h hid)
    refine ⟨((h.mem id).mp hid).1, ?_⟩
    cases h.fates id hid with
    | unreadable _ _ e => exact e ▸ ((h.mem id).mp hid).2
    | kept _ _ _ e => exact e ▸ ((h.mem id).mp hid).2
    | adopted _ _ _ e => exact e ▸ Option.some_ne_none _
    | removed _ _ f _ => exact absurd (h.score_gone fun _ => f) hl

/-- The report is clean just if no message was changed. -/
theorem isClean_iff (h : Settlement s thread t t' ids fate order) :
    (reportOf thread order (ids.map fate)).isClean = true ↔ t'.messages = t.messages := by
  constructor
  · intro clean
    obtain ⟨listed, fresh, _, _⟩ := isClean_reportOf.mp clean
    obtain ⟨kept, _⟩ := h.toFates.isClean_iff.mp clean
    refine Rows.ext fun key => Classical.byContradiction fun changed => ?_
    rcases h.confined .messages key changed with e | ⟨_, rfl | ⟨id, x, hi, rfl, hx⟩⟩
    · exact absurd e (by decide)
    · refine changed (h.index.trans ?_)
      rw [listed, fresh, StoredOrder.removed_nil]
      exact StoredOrder.added_nil _
    · have hid := (h.mem id).mpr ⟨hi, hx.ne_none⟩
      have stays := (kept id hid x hx).1
      cases h.fates id hid with
      | unreadable _ _ e => exact changed e
      | kept _ _ _ e => exact changed e
      | adopted _ _ f _ => exact absurd (stays.symm.trans f) (by simp)
      | removed _ _ f _ => exact absurd (stays.symm.trans f) (by simp)
  · intro same
    have same : ∀ id, s.keys.stored t' thread id = s.keys.stored t thread id := fun id =>
      congrArg (·.get? (s.keys.message thread id)) same
    refine h.toFates.isClean_iff.mpr ⟨fun id hid x hx => ?_, fun id hl => ?_⟩
    · cases h.fates id hid with
      | unreadable damaged _ _ => exact absurd hx (damaged x)
      | adopted hy away _ e =>
        rw [← same, e] at hy
        exact absurd (congrArg Message.threadId hy.of_toRecord) away
      | removed _ _ _ e => exact absurd (same id ▸ e) hx.ne_none
      | kept hy _ f _ =>
        obtain rfl := hx.unique hy
        refine ⟨f, ?_⟩
        rw [← same, StoredOrder.Lists, h.score_present hid (by rw [f]; rfl)]
        simp
    · rw [← same] at hl
      exact Classical.byContradiction fun hid => hl (h.score_gone fun h => absurd h hid)

end Settlement

/-! ## After a pass over a thread without a record -/

/-- Nothing is left of a thread that was purged. -/
theorem yields_purge (given : thread ≠ "") {u : Unit}
    (mem : ∀ id, IsMessage id → s.keys.stored t thread id ≠ none → id ∈ ids)
    (h : (s.purge thread ids).Yields t u t') : t'.get? .threads (s.keys.thread thread) = none ∧
      s.keys.stored t' thread Keyspace.orderField = none ∧
      ∀ id, IsMessage id → s.keys.stored t' thread id = none := by
  have cleared := clears_purge given h
  refine ⟨(cleared _ _).1 (Or.inr (Or.inr ⟨rfl, rfl⟩)),
    (cleared _ _).1 (Or.inr (Or.inl ⟨rfl, rfl⟩)), fun id hi => ?_⟩
  -- A record that is left was there before, and is not among those that were deleted.
  refine Classical.byContradiction fun left => ?_
  obtain ⟨r, hr⟩ := Option.ne_none_iff_exists'.mp left
  obtain ⟨kept, stored⟩ := cleared.get?_eq_some_iff.mp hr
  have hid := mem id hi fun none => absurd (stored.symm.trans none) (by simp)
  exact kept (Or.inl ⟨id, hid, rfl⟩)

/-- Reconciling a thread of which nothing is left does nothing. -/
theorem yields_reconcileThread_gone (valid : Identifier.Valid thread)
    (absent : t.get? .threads (s.keys.thread thread) = none)
    (cleared : s.keys.stored t thread Keyspace.orderField = none)
    (empty : ∀ id, IsMessage id → s.keys.stored t thread id = none) :
    (s.reconcileThread thread).Yields t { threadId := thread } t := by
  obtain ⟨ids, hids⟩ := exists_messageIds s t thread
  obtain rfl : ids = [] := List.eq_nil_iff_forall_not_mem.mpr fun id hid => by
    obtain ⟨hi, hs⟩ := ((yields_messageIds hids).2.2 id).mp hid
    exact hs (empty id hi)
  refine yields_bind.mpr ⟨(), t, yields_check.mpr ⟨Identifier.violations_eq_nil.mpr valid, rfl⟩, ?_⟩
  refine yields_bind.mpr ⟨[], t, hids, yields_bind.mpr ⟨false, t, exists_threadExists absent, ?_⟩⟩
  refine yields_bind.mpr ⟨.ofEntries [], t, ?_, yields_pure.mpr ⟨rfl, rfl⟩⟩
  exact OrderIndex.yields_snapshot.mpr ⟨rfl, [], by rw [cleared]; rfl, rfl⟩

/-! ## Two passes -/

/-- What a first pass does and what a second one does then. -/
theorem yields_reconcileThread_twice (named : s.keys.Named t thread)
    (h : (s.reconcileThread thread).Yields t report t') :
    (report.isClean = true ↔ t'.threads = t.threads ∧ t'.messages = t.messages) ∧
      ∃ again, (s.reconcileThread thread).Yields t' again t' ∧ again.isClean = true := by
  obtain ⟨valid, ids, nodup, mem, ⟨found, existing⟩ | ⟨absent, gone⟩⟩ := yields_reconcileThread h
  · obtain ⟨fate, order, settlement, rfl⟩ := settlement_of_yields named nodup mem existing
    refine ⟨settlement.isClean_iff.trans ⟨fun e => ⟨settlement.confined.threads, e⟩, And.right⟩,
      { threadId := thread }, ?_, rfl⟩
    obtain ⟨ids', hids⟩ := exists_messageIds s t' thread
    refine yields_bind.mpr ⟨(), t', yields_check.mpr ⟨Identifier.violations_eq_nil.mpr valid, rfl⟩, ?_⟩
    refine yields_bind.mpr ⟨ids', t', hids, yields_bind.mpr ⟨true, t',
      threadExists_congr found settlement.confined.threads, ?_⟩⟩
    exact settlement.atRest.yields_reconcileExisting (yields_messageIds hids).2.2
  · obtain ⟨order, _, h₁, after₁⟩ := yields_bind.mp gone
    obtain ⟨rfl, entries, he, rfl⟩ := OrderIndex.yields_snapshot.mp h₁
    rcases yields_ite.mp after₁ with ⟨_, quiet⟩ | ⟨something, purged⟩
    · obtain ⟨rfl, rfl⟩ := yields_pure.mp quiet
      exact ⟨iff_of_true rfl ⟨rfl, rfl⟩, _, h, rfl⟩
    · obtain ⟨_, _, h₂, h₃⟩ := yields_bind.mp purged
      obtain ⟨rfl, rfl⟩ := yields_pure.mp h₃
      obtain ⟨absent', cleared, empty⟩ :=
        yields_purge valid.ne_empty (fun id hi hs => (mem id).mpr ⟨hi, hs⟩) h₂
      refine ⟨iff_of_false (by simp [ReconcileReport.isClean]) ?_, _,
        yields_reconcileThread_gone valid absent' cleared empty, rfl⟩
      -- What called for the purge, a record or a listed id, is gone after it.
      rintro ⟨_, same⟩
      refine something (Bool.and_eq_true_iff.mpr ⟨List.isEmpty_iff.mpr ?_, ?_⟩)
      · refine List.eq_nil_iff_forall_not_mem.mpr fun id hid => ?_
        obtain ⟨hi, hs⟩ := (mem id).mp hid
        exact hs ((congrArg (·.get? (s.keys.message thread id)) same).symm.trans (empty id hi))
      · have unlisted := (congrArg (·.get? (s.keys.order thread)) same).symm.trans cleared
        rw [show s.keys.stored _ thread Keyspace.orderField = none from unlisted] at he
        obtain rfl := Except.ok.inj he
        rfl

/--
Reconciling a thread, whatever is wrong with its records as long as they carry the ids of their keys:
the report is clean just if neither a thread nor a message was changed, and a second pass goes well,
reports nothing and changes nothing.
-/
theorem reconcileThread_idempotent {w w' : World} (named : s.keys.Named w.tables thread)
    (run : (s.reconcileThread thread).run Faults.none w = (.ok report, w')) :
    (report.isClean = true ↔
        w'.tables.threads = w.tables.threads ∧ w'.tables.messages = w.tables.messages) ∧
      ∃ again w'', (s.reconcileThread thread).run Faults.none w' = (.ok again, w'') ∧
        again.isClean = true ∧ w''.tables = w'.tables := by
  have first := yields_of_run (s.strict_reconcileThread thread) run
  obtain ⟨truthful, again, second, clean⟩ := yields_reconcileThread_twice named first
  obtain ⟨e, same⟩ := second.run
  exact ⟨truthful, again, _, Prod.ext e rfl, clean, same⟩

/-- The damaged thread is settled by one pass, which reports changes, and a second one finds none. -/
theorem damaged_settled_once :
    (Sample.store true).keys.Named (Sample.damaged true).tables "a" ∧
    ∃ report w', ((Sample.store true).reconcileThread "a").run Faults.none (Sample.damaged true)
        = (.ok report, w') ∧ report.adopted = ["n"] ∧
      (report.isClean = true ↔ w'.tables.threads = (Sample.damaged true).tables.threads ∧
        w'.tables.messages = (Sample.damaged true).tables.messages) ∧
      ∃ again w'', ((Sample.store true).reconcileThread "a").run Faults.none w' = (.ok again, w'') ∧
        again.isClean = true ∧ w''.tables = w'.tables := by
  have named : (Sample.store true).keys.Named (Sample.damaged true).tables "a" :=
    Sample.named_damaged true (by decide)
  obtain ⟨report, w', run, _, adopted⟩ := Sample.reconcile_damaged
  exact ⟨named, report, w', run, adopted, reconcileThread_idempotent named run⟩

end Store

end ChatMemory
