import ChatMemory.Proofs.Consistency
import ChatMemory.Proofs.Errors
import ChatMemory.Proofs.Settling

/-!
# What reconciling establishes

When a thread that has a record is reconciled without an error, its order lists the records that were
kept, each record names the thread, and nothing else has changed. A record goes only if another thread
has the message, so the last copy of a message is never deleted. This holds for tables that are damaged
in any way, as long as records carry the ids that their keys name.

## Main statements

* `strict_reconcileThread` — a call that fails ends the reconciliation with an error.
* `Confined.others` — what is changed of one thread does not touch another.
* `reconcileThread_mends` — what reconciling establishes, and what it may delete (`Mends`).
-/

namespace ChatMemory

/-- Nothing in a reconciliation handles an error, so one that goes well has had no failed call. -/
theorem Store.strict_reconcileThread (s : Store) (thread : String) :
    (s.reconcileThread thread).Strict := by
  have reports : (s.reconcileThread thread).Reports s.keys fun _ => True :=
    s.reports_reconcileThread (fun _ _ => trivial) thread (fun _ => trivial) .inOrder
  exact reports.strict

/-! ## Other threads -/

namespace Keyspace

variable {k : Keyspace} {thread other id : String} {t t' : Tables}

/--
The keys of a thread are its own. A thread with a colon in it could share some with a thread that has
none, but not if every record under them that decodes carries the id that its key names.
-/
def Unmistakable (k : Keyspace) (t : Tables) (thread : String) : Prop :=
  Plain thread ∨ ∀ id, ∀ x : Message, x.ReadFrom (k.stored t thread id) → x.id = id

/-- Nothing is changed of another thread. -/
theorem Confined.others (h : k.Confined thread t t') (plain : Plain thread)
    (named : k.Named t thread) (hne : other ≠ thread) (ho : k.Unmistakable t other) (id : String) :
    k.stored t' other id = k.stored t other id := by
  refine Classical.byContradiction fun changed => ?_
  rcases h .messages _ changed with e | ⟨_, e | ⟨id', x, hi, e, hx⟩⟩
  · exact absurd e (by decide)
  · rw [order_eq_message] at e
    exact hne ((message_eq_plain_iff plain plain_orderField).mp e).1
  · rcases ho with ho | ho
    · exact hne ((message_eq_iff ho plain).mp e).1
    · -- The key names an id in either thread, and the record carries only one.
      have hid : id = id' := (ho id x (by rw [stored, e]; exact hx)).symm.trans (named id' hi x hx)
      exact hne (message_inj_left (hid ▸ e))

theorem Confined.hasThread (h : k.Confined thread t t') :
    (k.contents t').HasThread = (k.contents t).HasThread := by
  funext other
  show (other ≠ "" ∧ t'.threads.get? _ ≠ none) = (other ≠ "" ∧ t.threads.get? _ ≠ none)
  rw [h.threads]

end Keyspace

/-! ## The claim of a reconciliation -/

/-- What reconciling a thread establishes, and all that it may delete. -/
structure Mends (k : Keyspace) (thread : String) (before after : Tables) : Prop where
  /-- The order can be read. -/
  readable : StoredOrder.Readable (k.stored after thread Keyspace.orderField)
  /-- It lists the records that decoded and are still there, and those that did not decode if it
  listed them before. -/
  lists : ∀ id, StoredOrder.Lists (k.stored after thread Keyspace.orderField) id ↔
    id ≠ Keyspace.orderField ∧
      (k.stored after thread id ≠ none ∧ (∃ x : Message, x.ReadFrom (k.stored before thread id)) ∨
        k.stored before thread id ≠ none ∧
          (∀ x : Message, ¬ x.ReadFrom (k.stored before thread id)) ∧
          StoredOrder.Lists (k.stored before thread Keyspace.orderField) id)
  /-- What stays listed keeps its score. -/
  keeps : ∀ id, StoredOrder.Lists (k.stored before thread Keyspace.orderField) id →
    StoredOrder.Lists (k.stored after thread Keyspace.orderField) id →
    StoredOrder.score? (k.stored after thread Keyspace.orderField) id
      = StoredOrder.score? (k.stored before thread Keyspace.orderField) id
  /-- What is listed newly has the score of its date at the first position of a batch. -/
  gains : ∀ id, ¬ StoredOrder.Lists (k.stored before thread Keyspace.orderField) id →
    StoredOrder.Lists (k.stored after thread Keyspace.orderField) id →
    ∃ x : Message, x.ReadFrom (k.stored before thread id) ∧
      StoredOrder.score? (k.stored after thread Keyspace.orderField) id
        = some (scoreFor x.createdAt 0)
  /-- Every record that decodes names the thread. -/
  names : ∀ id, id ≠ Keyspace.orderField → ∀ x : Message, x.ReadFrom (k.stored after thread id) →
    x.threadId = thread
  /-- A record is gone only if another thread has the message, and lists it or says that it came from
  here. -/
  superseded : ∀ id, id ≠ Keyspace.orderField → k.stored before thread id ≠ none →
    k.stored after thread id = none → Store.Superseded k after thread id
  /-- No record and no order of another thread has changed. -/
  others : ∀ other, other ≠ thread → Plain other ∨ (k.contents before).HasThread other →
    ∀ id, k.stored after other id = k.stored before other id
  threads : after.threads = before.threads
  resources : after.resources = before.resources

namespace Store

open Action

variable {s : Store} {thread id : String} {t t' : Tables} {ids : List String}
  {fate : String → CopyFate} {order : OrderSnapshot}

namespace Settlement

/-- Every record is told by its id, and whether it was there before. -/
theorem mem_or_absent (h : Settlement s thread t t' ids fate order)
    (given : s.keys.stored t thread "" = none) (hne : id ≠ Keyspace.orderField) :
    id ∈ ids ∨ s.keys.stored t thread id = none ∧ s.keys.stored t' thread id = none := by
  by_cases hid : id ∈ ids
  · exact Or.inl hid
  by_cases empty : id = ""
  · subst empty
    exact Or.inr ⟨given, (h.stored_eq hne fun hi => hi.1 rfl).trans given⟩
  · have hi : IsMessage id := ⟨empty, hne⟩
    refine Or.inr ⟨Classical.byContradiction fun h' => hid ((h.mem id).mpr ⟨hi, h'⟩), ?_⟩
    exact h.absent id hi hid

theorem lists_iff (h : Settlement s thread t t' ids fate order)
    (given : s.keys.stored t thread "" = none) :
    StoredOrder.Lists (s.keys.stored t' thread Keyspace.orderField) id ↔
      id ≠ Keyspace.orderField ∧
        (s.keys.stored t' thread id ≠ none ∧
            (∃ x : Message, x.ReadFrom (s.keys.stored t thread id)) ∨
          s.keys.stored t thread id ≠ none ∧
            (∀ x : Message, ¬ x.ReadFrom (s.keys.stored t thread id)) ∧
            StoredOrder.Lists (s.keys.stored t thread Keyspace.orderField) id) := by
  by_cases hid : id ∈ ids
  · have hne := ((h.mem id).mp hid).1.2
    have stored := ((h.mem id).mp hid).2
    have listed : ∀ x, (fate id).present? = some x →
        StoredOrder.Lists (s.keys.stored t' thread Keyspace.orderField) id := fun x hx => by
      rw [StoredOrder.Lists, h.score_present hid hx]
      simp
    cases h.fates id hid with
    | unreadable damaged f e =>
      rw [StoredOrder.Lists, h.score_unreadable hid f]
      refine ⟨fun hl => ⟨hne, Or.inr ⟨stored, damaged, hl⟩⟩, ?_⟩
      rintro ⟨_, ⟨_, x, hx⟩ | ⟨_, _, hl⟩⟩
      · exact absurd hx (damaged x)
      · exact hl
    | kept hx here f e =>
      exact iff_of_true (listed _ (by rw [f]; rfl)) ⟨hne, Or.inl ⟨e ▸ stored, _, hx⟩⟩
    | adopted hx away f e =>
      refine iff_of_true (listed _ (by rw [f]; rfl)) ⟨hne, Or.inl ⟨?_, _, hx⟩⟩
      exact e ▸ Option.some_ne_none _
    | removed hx why f e =>
      refine iff_of_false (fun hl => hl (h.score_gone fun _ => f)) ?_
      rintro ⟨_, ⟨hs, _⟩ | ⟨_, damaged, _⟩⟩
      · exact hs e
      · exact damaged _ hx
  · refine iff_of_false (fun hl => hl (h.score_gone fun h => absurd h hid)) ?_
    rintro ⟨hne, h'⟩
    obtain ⟨absent, absent'⟩ := (h.mem_or_absent given hne).resolve_left hid
    rcases h' with ⟨hs, _⟩ | ⟨hs, _⟩
    · exact hs absent'
    · exact hs absent

/-- Where a listed message has its score from. -/
theorem score_of_lists (h : Settlement s thread t t' ids fate order)
    (hl : StoredOrder.Lists (s.keys.stored t' thread Keyspace.orderField) id) :
    StoredOrder.score? (s.keys.stored t' thread Keyspace.orderField) id
        = StoredOrder.score? (s.keys.stored t thread Keyspace.orderField) id ∨
      ∃ x : Message, x.ReadFrom (s.keys.stored t thread id) ∧
        StoredOrder.score? (s.keys.stored t' thread Keyspace.orderField) id
          = (StoredOrder.score? (s.keys.stored t thread Keyspace.orderField) id).or
              (some (scoreFor x.createdAt 0)) := by
  by_cases hid : id ∈ ids
  · cases h.fates id hid with
    | unreadable _ f _ => exact Or.inl (h.score_unreadable hid f)
    | kept hx _ f _ => exact Or.inr ⟨_, hx, h.score_present hid (by rw [f]; rfl)⟩
    | @adopted x hx _ f _ =>
      exact Or.inr ⟨x, hx, h.score_present (x := x.under thread) hid (by rw [f]; rfl)⟩
    | removed _ _ f _ => exact absurd (h.score_gone fun _ => f) hl
  · exact absurd (h.score_gone fun h => absurd h hid) hl

theorem names (h : Settlement s thread t t' ids fate order) (hid : id ∈ ids) {x : Message}
    (hx : x.ReadFrom (s.keys.stored t' thread id)) : x.threadId = thread := by
  cases h.fates id hid with
  | unreadable damaged _ e => exact absurd (e ▸ hx) (damaged x)
  | kept hy here _ e => exact hy.unique (e ▸ hx) ▸ here
  | adopted _ _ _ e =>
    rw [e] at hx
    rw [hx.of_toRecord]
    rfl
  | removed _ _ _ e => exact absurd e hx.ne_none

/-- The reason for which a copy went still holds at the end. -/
theorem superseded (h : Settlement s thread t t' ids fate order) (plain : Plain thread)
    (own : ∀ other, (s.keys.contents t).HasThread other → s.keys.Unmistakable t other)
    (hid : id ∈ ids) (gone : s.keys.stored t' thread id = none) :
    Superseded s.keys t' thread id := by
  have why : SupersededLater s.keys t thread id := by
    cases h.fates id hid with
    | unreadable _ _ e => exact absurd (e.symm.trans gone) ((h.mem id).mp hid).2
    | kept _ _ _ e => exact absurd (e.symm.trans gone) ((h.mem id).mp hid).2
    | adopted _ _ _ e => exact absurd (e.symm.trans gone) (Option.some_ne_none _)
    | removed _ why _ _ => exact why
  obtain ⟨t₁, confined, other, hne, there, stored, why⟩ := why
  rw [confined.hasThread] at there
  -- The reason was found in the middle of the pass, and stands in a thread that the pass leaves alone.
  have same : ∀ a, s.keys.stored t' other a = s.keys.stored t₁ other a := fun a =>
    (h.confined.others plain h.named hne (own other there) a).trans
      (confined.others plain h.named hne (own other there) a).symm
  refine ⟨other, hne, by rwa [h.confined.hasThread], by rwa [same], ?_⟩
  rwa [same, same]

end Settlement

/--
What reconciling a thread with a record establishes and what it may delete, when it goes well, whatever
calls may fail and whatever was wrong with the tables.
-/
theorem reconcileThread_mends {faults : Faults} {w w' : World} {report : ReconcileReport}
    (there : (s.keys.contents w.tables).HasThread thread)
    (given : s.keys.stored w.tables thread "" = none)
    (named : s.keys.Named w.tables thread)
    (own : ∀ other, (s.keys.contents w.tables).HasThread other → s.keys.Unmistakable w.tables other)
    (run : (s.reconcileThread thread).run faults w = (.ok report, w')) :
    Mends s.keys thread w.tables w'.tables := by
  obtain ⟨valid, ids, nodup, mem, ⟨_, existing⟩ | ⟨absent, _⟩⟩ :=
    yields_reconcileThread (yields_of_run (s.strict_reconcileThread thread) run)
  · obtain ⟨fate, order, h, _⟩ := settlement_of_yields named nodup mem existing
    exact {
      readable := h.readable
      lists := fun id => h.lists_iff given
      keeps := fun id before after => by
        rcases h.score_of_lists after with e | ⟨x, _, e⟩
        · exact e
        · obtain ⟨y, hy⟩ := Option.ne_none_iff_exists'.mp before
          rw [e, hy, Option.some_or]
      gains := fun id before after => by
        have unlisted := Classical.not_not.mp before
        rcases h.score_of_lists after with e | ⟨x, hx, e⟩
        · exact absurd (e.trans unlisted) after
        · exact ⟨x, hx, by rw [e, unlisted, Option.none_or]⟩
      names := fun id hne x hx => by
        rcases h.mem_or_absent given hne with hid | ⟨_, absent⟩
        · exact h.names hid hx
        · exact absurd absent hx.ne_none
      superseded := fun id hne before after => by
        rcases h.mem_or_absent given hne with hid | ⟨absent, _⟩
        · exact h.superseded valid.plain own hid after
        · exact absurd absent before
      others := fun other hne ho id =>
        h.confined.others valid.plain h.named hne (ho.elim Or.inl (own other)) id
      threads := h.confined.threads
      resources := h.confined.resources }
  · exact absurd absent there.2

end Store

/-! ## A damaged thread -/

namespace Sample

/--
Thread `a` has a copy of a message that thread `b` lists, a record that names `b`, a record that does
not decode, and an order that lists this record and one that is not there.
-/
def damaged (tracking : Bool) : World :=
  let k := (store tracking).keys
  let w := world tracking "b"
  { w with
    tables := w.tables.put .messages (k.message "a" "m") ((message "a").toRecord 0)
      |>.put .messages (k.message "a" "n") ({ message "b" with id := "n" }.toRecord 0)
      |>.put .messages (k.message "a" "broken") (.str "?")
      |>.put .messages (k.order "a") (OrderSnapshot.toJson
        ⟨[⟨"broken", freshScore now⟩, ⟨"lost", freshScore now⟩]⟩) }

/-- Whether every record that decodes stands under its own id, in one of two threads. -/
def tells (k : Keyspace) (rows : Rows) : Bool :=
  rows.entries.all fun e =>
    match Message.ofRecord e.2 with
    | .ok x => e.1 == k.message "a" x.id || e.1 == k.message "b" x.id
    | .error _ => true

theorem named_of_tells {k : Keyspace} {t : Tables} (h : tells k t.messages = true) {thread : String}
    (plain : Plain thread) : k.Named t thread := by
  rintro id _ x ⟨r, hr, hx⟩
  have told := List.all_eq_true.mp h (k.message thread id, r) (Rows.mem_entries_iff.mpr hr)
  simp only [hx, Bool.or_eq_true, beq_iff_eq] at told
  rcases told with e | e
  · exact ((Keyspace.message_eq_iff plain (by decide)).mp e).2.symm
  · exact ((Keyspace.message_eq_iff plain (by decide)).mp e).2.symm

theorem named_damaged (tracking : Bool) {thread : String} (plain : Plain thread) :
    (store tracking).keys.Named (damaged tracking).tables thread := by
  refine named_of_tells ?_ plain
  cases tracking <;> decide +kernel

/-- One copy in the damaged thread goes, and one record is made to name the thread. -/
theorem reconcile_damaged : ∃ report w', ((store true).reconcileThread "a").run Faults.none
    (damaged true) = (.ok report, w') ∧ report.removed = ["m"] ∧ report.adopted = ["n"] := by
  have changes : (((store true).reconcileThread "a").run Faults.none
      (damaged true)).1.toOption.map (fun r => (r.removed, r.adopted))
        = some (["m"], ["n"]) := by decide +kernel
  generalize ((store true).reconcileThread "a").run Faults.none (damaged true) = out at changes ⊢
  obtain ⟨result, w'⟩ := out
  cases result with
  | error _ => exact absurd changes (by simp [Except.toOption])
  | ok report =>
    obtain ⟨removed, adopted⟩ := Prod.mk.inj (Option.some.inj changes)
    exact ⟨report, w', rfl, removed, adopted⟩

end Sample

/-- The damaged thread is mended. -/
theorem Store.damaged_mended :
    ((Sample.store true).keys.contents (Sample.damaged true).tables).HasThread "a" ∧
    (Sample.store true).keys.stored (Sample.damaged true).tables "a" "" = none ∧
    (Sample.store true).keys.Named (Sample.damaged true).tables "a" ∧
    (∀ other, ((Sample.store true).keys.contents (Sample.damaged true).tables).HasThread other →
      (Sample.store true).keys.Unmistakable (Sample.damaged true).tables other) ∧
    ∃ report w', ((Sample.store true).reconcileThread "a").run Faults.none (Sample.damaged true)
        = (.ok report, w') ∧ report.removed = ["m"] ∧ report.adopted = ["n"] ∧
      Mends (Sample.store true).keys "a" (Sample.damaged true).tables w'.tables := by
  have there : ((Sample.store true).keys.contents (Sample.damaged true).tables).HasThread "a" := by
    refine ⟨by decide, Option.isSome_iff_ne_none.mp ?_⟩
    decide +kernel
  have given : (Sample.store true).keys.stored (Sample.damaged true).tables "a" "" = none := by
    rw [← Option.isNone_iff_eq_none]
    decide +kernel
  have named : (Sample.store true).keys.Named (Sample.damaged true).tables "a" :=
    Sample.named_damaged true (by decide)
  have own : ∀ other,
      ((Sample.store true).keys.contents (Sample.damaged true).tables).HasThread other →
        (Sample.store true).keys.Unmistakable (Sample.damaged true).tables other := by
    refine fun other ho => Or.inl ?_
    rcases Sample.eq_of_hasThread (by decide +kernel) ho with rfl | rfl <;> decide
  obtain ⟨report, w', run, removed, adopted⟩ := Sample.reconcile_damaged
  exact ⟨there, given, named, own, report, w', run, removed, adopted,
    reconcileThread_mends there given named own run⟩

end ChatMemory
