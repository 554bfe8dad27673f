import ChatMemory.Proofs.Aging
import ChatMemory.Proofs.Exact

/-!
# Batches

A batch may mix messages that are new, messages that are saved again where they are, and messages that
are in other threads. Whatever happens to each on the way, in the end each is housed in the thread that
it names. Its place in the order tells where it came from: a message that was there keeps its place, a
new one is placed by its date and its position in the batch, and one that was moved is placed by the
clock.

The threads of a batch are touched. A thread whose date of creation is past the year 9999, as it may be
when the date is stored as a number, cannot be read any more once it is touched.

## Main statements

* `Stored.score_of_at`, `Stored.score_of_nowhere`, `Stored.score_of_moved` — places in the order.
* `saved_batch` — what saving a batch does.
* `far_thread_lost` — the thread that cannot be read any more.
-/

namespace ChatMemory

namespace View

variable {has : String → Prop} {w w' : View} {tracking : Bool} {now : Instant} {v x : Message}
  {position : Nat} {thread origin : String}

/-- A message of a batch is read in the thread that it names. -/
theorem Stored.isRecord (stored : w.Stored tracking v position now has w')
    (dated : v.createdAt.FourDigit) : w'.IsRecord v.threadId v := by
  obtain ⟨w₁, _, rfl⟩ := stored
  refine ⟨v.toRecord position, ?_, Message.ofRecord_toRecord_of_fourDigit dated position⟩
  simp [saved, written, recorded]

/-- A message that is saved again where it is keeps its place. -/
theorem Stored.score_of_at (stored : w.Stored tracking v position now has w')
    (h : w.At has v.threadId) : w'.score v.threadId = w.score v.threadId := by
  obtain ⟨score, hs⟩ := Option.ne_none_iff_exists'.mp h.listed
  obtain ⟨w₁, ⟨hno, rfl⟩ | ⟨_, rfl⟩ | ⟨origin, before, finds, leaves, rfl⟩, rfl⟩ := stored
  · exact absurd ((h.holds v.threadId).mpr rfl) (hno v.threadId)
  · rw [score_saved, hs, Option.some_or]
  · exact absurd ((h.holds origin).mp finds.holds) leaves.apart

/-- A new message is placed by its date and its position in the batch. -/
theorem Stored.score_of_nowhere (stored : w.Stored tracking v position now has w')
    (h : w.Nowhere has) (there : has v.threadId) :
    w'.score v.threadId = some (scoreFor v.createdAt position) := by
  have unlisted : w.score v.threadId = none := Classical.not_not.mp (h.lists v.threadId there)
  obtain ⟨w₁, ⟨_, rfl⟩ | ⟨finds, _⟩ | ⟨origin, before, finds, _⟩, rfl⟩ := stored
  · rw [score_saved, unlisted, Option.none_or]
  · exact absurd finds.holds (h.holds v.threadId)
  · exact absurd finds.holds (h.holds origin)

/-- A message from another thread is placed by the clock. -/
theorem Stored.score_of_moved (stored : w.Stored tracking v position now has w')
    (h : w.At has thread) (apart : thread ≠ v.threadId) (there : has v.threadId) :
    w'.score v.threadId = some (freshScore now) := by
  have unlisted : w.score v.threadId = none := by
    refine Classical.not_not.mp fun listed => apart ?_
    exact ((h.lists v.threadId there).mp listed).symm
  obtain ⟨w₁, ⟨hno, _⟩ | ⟨finds, _⟩ | ⟨origin, before, finds, leaves, rfl⟩, rfl⟩ := stored
  · exact absurd ((h.holds thread).mpr rfl) (hno thread)
  · exact absurd ((h.holds v.threadId).mp finds.holds).symm apart
  · have moved : (w.moved tracking now (before.into v.threadId) origin).score v.threadId
        = some (freshScore now) := by
      refine (score_moved (x := before.into v.threadId) leaves.apart).trans ?_
      show (w.score v.threadId).or _ = _
      rw [unlisted, Option.none_or]
    rw [score_saved, moved, Option.some_or]

end View

namespace Store

variable {s : Store} {faults : Faults} {now : Instant}

/--
When a batch is saved into exact contents and that goes well, the contents are exact again and the
batch is handed back. Each of its messages is housed in the thread that it names, and a client that
asks for it gets it. It keeps its place if it was there before, and is placed by its date and its
position in the batch if it was nowhere. Messages that are not in the batch stay as they are, and so do
the threads but for their dates of change, as long as their dates are of the years 0 to 9999.
-/
theorem saved_batch (s : Store) (faults : Faults) (now : Instant) {w w' : World}
    {batch ms : List Message} (exact_ : (s.keys.contents w.tables).Exact)
    (dated : ∀ v ∈ batch, v.createdAt.FourDigit)
    (run : (s.saveMessages now batch).run faults w = (.ok ms, w')) :
    let c := s.keys.contents w.tables
    let c' := s.keys.contents w'.tables
    ms = batch ∧ c'.Exact ∧
      (∀ position v, batch[position]? = some v → c'.Houses v ∧ s.Answers w' v ∧
        (c.Holds v.threadId v.id →
          (c'.view v.id).score v.threadId = (c.view v.id).score v.threadId) ∧
        ((∀ thread, ¬ c.Holds thread v.id) →
          (c'.view v.id).score v.threadId = some (scoreFor v.createdAt position)) ∧
        ∀ thread, c.Holds thread v.id → thread ≠ v.threadId →
          (c'.view v.id).score v.threadId = some (freshScore now)) ∧
      (∀ id, (∀ v ∈ batch, v.id ≠ id) → c'.view id = c.view id) ∧
      ∀ thread t, c.IsThread thread t → ∃ date,
        (c'.thread thread = c.thread thread ∧ date = t.updatedAt ∨
          c'.thread thread = some ({ t with updatedAt := date } : Thread).toJson) ∧
        (t.createdAt.FourDigit → date.FourDigit →
          c'.IsThread thread { t with updatedAt := date }) := by
  intro c c'
  obtain ⟨rfl, distinct, there, follows, stored⟩ :=
    (ends_saveMessages exact_.aligned.orderly fun _ _ => trivial).ok rfl run
  have aged : c.Aged c' := ((ages_saveMessages ms) c).ok rfl run
  have placed : ∀ position v, ms[position]? = some v → (c.view v.id).Stored
      s.config.trackMessageThreads v position now c.HasThread (c'.view v.id) :=
    fun position v hv => stored (v, position) (List.mk_mem_zipIdx_iff_getElem?.mpr hv)
  have houses : ∀ v ∈ ms, c'.Houses v := by
    intro v hv
    obtain ⟨position, hp⟩ := List.mem_iff_getElem?.mp hv
    have stored := placed position v hp
    exact exact_.houses_of_at follows
      ((exact_.aligned.whole v.id).stored (there v hv).2 stored) (stored.isRecord (dated v hv))
  have exact' : c'.Exact := exact_.follows follows fun id ⟨v, hv, e⟩ => ⟨v, houses v hv, e.symm⟩
  refine ⟨rfl, exact', fun position v hp => ?_, fun id hid => ?_, fun thread t ht => ?_⟩
  · have hv := List.mem_of_getElem? hp
    have stored := placed position v hp
    refine ⟨houses v hv, exact'.answers (houses v hv), fun held => ?_, fun hno => ?_, ?_⟩
    · exact stored.score_of_at (exact_.at_of_holds held)
    · exact stored.score_of_nowhere (exact_.nowhere hno) (there v hv).2
    · intro thread held apart
      exact stored.score_of_moved (exact_.at_of_holds held) apart (there v hv).2
  · exact follows.within.view id fun ⟨v, hv, e⟩ => hid v hv e.symm
  · exact aged.isThread ht

end Store

/-! ## Samples -/

namespace Sample

open Contents

/-- Two threads are created, and a message is saved in each. -/
def filing : List (Instant × Operation) :=
  [(now, .saveThread (.create now "a" "r")), (now, .saveThread (.create now "b" "r")),
    (now, .saveMessages [.user now "m" "a" "r" "text", .user now "x" "b" "r" "text"])]

def filed : World := ((store false).performAll Faults.none filing World.initial).2

/-- One message is saved again with another text, one is new, and one is in the other thread. -/
def mixed : List Message :=
  [.user now "m" "a" "r" "other", .user now "n" "a" "r" "text", .user now "x" "a" "r" "text"]

theorem exact_filed : ((store false).keys.contents filed.tables).Exact := by
  have rows : ∀ e ∈ filed.tables.messages.entries,
      e.1 ∈ ["a", "b"].map (store false).keys.order ∨ (Message.ofRecord e.2).isOk = true := by
    decide +kernel
  exact (store false).exact_of_rows filing (by decide) rows

/-- A thread whose date of creation is a number, in the year 11476. -/
def far : Json :=
  .obj [("createdAt", .num (.int 300_000_000_000_000)), ("id", .str "a"), ("metadata", .obj []),
    ("resourceId", .str "r"), ("title", .null), ("updatedAt", now.toJson)]

def farWorld : World :=
  { World.initial with tables := Tables.empty.put .threads ((store false).keys.thread "a") far }

theorem contents_far :
    (store false).keys.contents farWorld.tables = Contents.empty.setThread "a" (some far) := by
  rw [← contents_empty (store false).keys]
  exact contents_changedAt_thread (Tables.changedAt_put _ _ _ _)

/-- The date of change in the record of a thread, if it can be read. -/
def changeDate : Json → Option Instant
  | .obj fields => (fields.lookup "updatedAt").bind fun date => (Instant.ofJson date).toOption
  | _ => none

theorem fourDigit_of_changeDate {t : Thread} (h : (changeDate t.toJson).isSome = true) :
    t.updatedAt.FourDigit := by
  refine Classical.byContradiction fun far => ?_
  have read : changeDate t.toJson = (Instant.ofJson t.updatedAt.toJson).toOption := by
    simp [changeDate, Thread.toJson, Pairs.lookup_cons_eq]
  rw [read, Instant.ofJson_toJson, if_neg far] at h
  exact absurd h (by decide)

theorem isThread_far : ∃ t, (Contents.empty.setThread "a" (some far)).IsThread "a" t := by
  have ok : (Thread.ofJson far).isOk = true := by decide +kernel
  cases h : Thread.ofJson far with
  | ok t => exact ⟨t, far, rfl, h⟩
  | error cause => exact absurd ok (by simp [h, Except.isOk, Except.toBool])

end Sample

namespace Store

open Contents

theorem mixed_batch_saved :
    ((Sample.store false).keys.contents Sample.filed.tables).Exact ∧
    (∀ v ∈ Sample.mixed, v.createdAt.FourDigit) ∧
    ∃ w', ((Sample.store false).saveMessages Sample.now Sample.mixed).run Faults.none Sample.filed
        = (.ok Sample.mixed, w') ∧
      ((Sample.store false).keys.contents w'.tables).Exact ∧
      ∀ v ∈ Sample.mixed, ((Sample.store false).keys.contents w'.tables).Houses v := by
  have dated : ∀ v ∈ Sample.mixed, v.createdAt.FourDigit := by decide +kernel
  have ok : (((Sample.store false).saveMessages Sample.now Sample.mixed).run Faults.none
      Sample.filed).1.isOk = true := by decide +kernel
  obtain ⟨ms, run⟩ := Action.exists_ok ok
  obtain ⟨rfl, exact_, each, -⟩ := saved_batch (Sample.store false) Faults.none Sample.now
    Sample.exact_filed dated run
  refine ⟨Sample.exact_filed, dated, _, run, exact_, fun v hv => ?_⟩
  obtain ⟨position, hp⟩ := List.mem_iff_getElem?.mp hv
  exact (each position v hp).1

/-- A message is saved in the thread, and the thread cannot be read any more. -/
theorem far_thread_lost :
    let c := (Sample.store false).keys.contents Sample.farWorld.tables
    c.Exact ∧ (∀ thread, c.HasThread thread → ∃ t, c.IsThread thread t) ∧
    (Sample.message "a").createdAt.FourDigit ∧
    ∃ w' t date, ((Sample.store false).saveMessages Sample.now [Sample.message "a"]).run Faults.none
        Sample.farWorld = (.ok [Sample.message "a"], w') ∧
      c.IsThread "a" t ∧ date.FourDigit ∧
      ((Sample.store false).keys.contents w'.tables).thread "a"
        = some ({ t with updatedAt := date } : Thread).toJson ∧
      ∀ t', ¬ ((Sample.store false).keys.contents w'.tables).IsThread "a" t' := by
  intro c
  have contents : c = Contents.empty.setThread "a" (some Sample.far) := Sample.contents_far
  have exact_ : c.Exact := contents ▸ exact_empty.setThread "a" Sample.far
  obtain ⟨t, there⟩ : ∃ t, c.IsThread "a" t := contents ▸ Sample.isThread_far
  have decodes : ∀ thread, c.HasThread thread → ∃ t, c.IsThread thread t := by
    intro thread has
    by_cases e : thread = "a"
    · exact ⟨t, e ▸ there⟩
    · refine absurd ?_ has.2
      rw [contents, thread_setThread, if_neg e]
      rfl
  have dated : (Sample.message "a").createdAt.FourDigit := by decide +kernel
  have ok : (((Sample.store false).saveMessages Sample.now [Sample.message "a"]).run Faults.none
      Sample.farWorld).1.isOk = true := by decide +kernel
  have touched : ((((Sample.store false).saveMessages Sample.now [Sample.message "a"]).run
      Faults.none Sample.farWorld).2.tables.get? .threads ((Sample.store false).keys.thread "a")).any
        fun r => (Sample.changeDate r).isSome && !(Thread.ofJson r).isOk := by decide +kernel
  obtain ⟨ms, run⟩ := Action.exists_ok ok
  obtain ⟨rfl, -⟩ := (ends_saveMessages exact_.aligned.orderly fun _ _ => trivial).ok rfl run
  generalize (((Sample.store false).saveMessages Sample.now [Sample.message "a"]).run Faults.none
    Sample.farWorld).2 = w' at run touched
  obtain ⟨r, hr, h⟩ := (Option.any_eq_true _ _).mp touched
  have hr : ((Sample.store false).keys.contents w'.tables).thread "a" = some r := hr
  obtain ⟨readable, damaged⟩ := Bool.and_eq_true_iff.mp h
  have lost : ∀ t', ¬ ((Sample.store false).keys.contents w'.tables).IsThread "a" t' := by
    rintro t' ⟨r', hr', hd⟩
    obtain rfl := Option.some.inj (hr.symm.trans hr')
    simp [hd, Except.isOk, Except.toBool] at damaged
  have aged : c.Aged _ := ((Store.ages_saveMessages [Sample.message "a"]) c).ok rfl run
  obtain ⟨date, ⟨same, -⟩ | written, -⟩ := aged.isThread there
  · obtain ⟨r', hr', hd⟩ := there
    exact absurd ⟨r', same.trans hr', hd⟩ (lost t)
  · rw [Option.some.inj (hr.symm.trans written)] at readable
    have near : ({ t with updatedAt := date } : Thread).updatedAt.FourDigit :=
      Sample.fourDigit_of_changeDate readable
    exact ⟨exact_, decodes, dated, w', t, date, run, there, near, written, lost⟩

end Store

end ChatMemory
