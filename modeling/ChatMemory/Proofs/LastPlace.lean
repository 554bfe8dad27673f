import ChatMemory.Proofs.Indexed
import ChatMemory.Proofs.Revisions

/-!
# The place of a moved message

A message that is moved is placed in its new thread by the clock. So it comes last if all that the
thread lists is placed earlier. This need not be so: a thread may have messages with dates that the
clock has not reached, or messages that were moved on by their positions in a batch, and these stay
behind the message that is moved.

## Main statements

* `ids_getLast?_eq_some_iff` — what comes last in an order.
* `moved_last_iff` — when a moved message comes last.
* `moved_in_front` — a message that comes before one of a later date.
-/

namespace ChatMemory

/-! ## The end of an order -/

namespace OrderSnapshot

variable {o : OrderSnapshot} {id : String} {x : Binary64}

/-- An id comes last if the other entries are in front of it. -/
theorem ids_getLast?_eq_some_iff (tidy : Tidy o.entries) (hx : o.score? id = some x) :
    o.ids.getLast? = some id ↔ ∀ e ∈ o.entries, e.id ≠ id → Before e ⟨id, x⟩ := by
  have mem : ⟨id, x⟩ ∈ o.entries := (score?_eq_some_iff tidy.2).mp hx
  obtain ⟨rest, last, split⟩ :=
    (List.eq_nil_or_concat o.entries).resolve_left (List.ne_nil_of_mem mem)
  rw [List.concat_eq_append] at split
  have before : ∀ e ∈ rest, Before e last := by
    intro e he
    exact (List.pairwise_append.mp (split ▸ tidy.1)).2.2 e he last List.mem_cons_self
  have different : ∀ e ∈ rest, e.id ≠ last.id := by
    intro e he
    exact (List.pairwise_append.mp (split ▸ tidy.2)).2.2 e he last List.mem_cons_self
  have ends : o.ids.getLast? = some last.id := by
    rw [ids_eq_map, split, List.map_append]
    exact List.getLast?_concat
  rw [ends, Option.some.injEq]
  rw [split, List.mem_append, List.mem_singleton] at mem
  constructor
  · rintro rfl e he apart
    have entry : ⟨last.id, x⟩ = last := mem.resolve_left fun hm => different _ hm rfl
    rw [split, List.mem_append, List.mem_singleton] at he
    rw [entry]
    exact before e (he.resolve_right fun same => apart (congrArg OrderEntry.id same))
  · intro all
    refine Classical.byContradiction fun apart => ?_
    have behind := all last (by simp [split]) apart
    have other : (⟨id, x⟩ : OrderEntry) ≠ last := fun same => apart (congrArg OrderEntry.id same).symm
    exact behind.asymm (before _ (mem.resolve_right other))

end OrderSnapshot

namespace Keyspace

variable {k : Keyspace} {t t' : Tables} {thread id : String} {e : OrderEntry}

/-- The order of the thread ends with the message. -/
def EndsWith (k : Keyspace) (t : Tables) (thread id : String) : Prop :=
  (k.orderOf t thread).ids.getLast? = some id

/-- All that the order of the thread lists comes before an entry. -/
def AllBefore (k : Keyspace) (t : Tables) (thread : String) (e : OrderEntry) : Prop :=
  ∀ other ∈ (k.orderOf t thread).entries, OrderSnapshot.Before other e

instance (e : OrderEntry) : Decidable (k.AllBefore t thread e) :=
  inferInstanceAs (Decidable (∀ other ∈ (k.orderOf t thread).entries, OrderSnapshot.Before other e))

instance : Decidable (k.EndsWith t thread id) :=
  inferInstanceAs (Decidable ((k.orderOf t thread).ids.getLast? = some id))

/-- The scores in the order of a thread are those that the contents give. -/
theorem score?_orderOf (plain : Plain thread) :
    (k.orderOf t thread).score? id = ((k.contents t).view id).score thread := by
  rw [Contents.score_view, Contents.index_contents plain, order_eq_message]
  unfold orderOf StoredOrder.score? stored
  cases OrderEntry.ofStored (t.get? .messages (k.message thread orderField)) with
  | ok entries => rfl
  | error cause => rfl

theorem mem_orderOf (plain : Plain thread) : e ∈ (k.orderOf t thread).entries ↔
    ((k.contents t).view e.id).score thread = some e.score := by
  rw [← score?_orderOf plain, OrderSnapshot.score?_eq_some_iff (k.tidy_orderOf t thread).2]

/-- A message that is newly listed comes last if all that was listed comes before its entry. -/
theorem endsWith_iff (plain : Plain thread)
    (others : ∀ other, other ≠ id → (k.contents t').view other = (k.contents t).view other)
    (unlisted : ((k.contents t).view id).score thread = none) {x : Binary64}
    (placed : ((k.contents t').view id).score thread = some x) :
    k.EndsWith t' thread id ↔ k.AllBefore t thread ⟨id, x⟩ := by
  have score : (k.orderOf t' thread).score? id = some x := (score?_orderOf plain).trans placed
  rw [EndsWith, OrderSnapshot.ids_getLast?_eq_some_iff (k.tidy_orderOf t' thread) score, AllBefore]
  constructor
  · intro all e he
    have listed := (mem_orderOf plain).mp he
    have apart : e.id ≠ id := by
      rintro rfl
      exact absurd (unlisted.symm.trans listed) (by simp)
    exact all e ((mem_orderOf plain).mpr (others e.id apart ▸ listed)) apart
  · intro all e he apart
    exact all e ((mem_orderOf plain).mpr (others e.id apart ▸ (mem_orderOf plain).mp he))

end Keyspace

namespace Contents

variable {R : RecordRule} {k : Keyspace} {t t' : Tables} {tracking : Bool} {now : Instant}
  {id origin : String} {y : Message}

/-- Where a move puts its message. -/
theorem Whole.endsWith_moved (h : (k.contents t).Whole) (held : (k.contents t).Holds origin id)
    (f : Follows R (· = id) (k.contents t) (k.contents t')) (apart : origin ≠ y.threadId)
    (there : (k.contents t).HasThread y.threadId)
    (moved : (k.contents t').view id = ((k.contents t).view id).moved tracking now y origin) :
    k.EndsWith t' y.threadId id ↔ k.AllBefore t y.threadId ⟨id, freshScore now⟩ := by
  have at_ := (h id).at_of_holds held
  have unlisted : ((k.contents t).view id).score y.threadId = none :=
    Classical.not_not.mp fun listed => apart ((at_.lists _ there).mp listed).symm
  have holds : (k.contents t').Holds y.threadId id := by
    have holds : ((k.contents t').view id).Holds y.threadId := by
      rw [moved, View.holds_moved]
      exact ⟨Ne.symm apart, Or.inl rfl⟩
    exact holds
  refine Keyspace.endsWith_iff (f.orderly.plain holds) f.within.view unlisted ?_
  rw [moved, View.score_moved apart, unlisted, Option.none_or]

end Contents

namespace Store

open Action Contents

variable {s : Store} {faults : Faults} {now : Instant} {us : List MessageUpdate} {ys : List Message}

/-- A change that comes to its end keeps contents whole, and puts a message that it moves in its
place. -/
theorem Changes.endsWith {w w' : World} {u : MessageUpdate} {y : Message}
    (h : s.Changes faults now u y w w') (orderly : Orderly .agreeing (s.keys.contents w.tables))
    (whole : (s.keys.contents w.tables).Whole) :
    Orderly .agreeing (s.keys.contents w'.tables) ∧ (s.keys.contents w'.tables).Whole ∧
      ∀ origin, (s.keys.contents w.tables).Holds origin u.id → origin ≠ y.threadId →
        (s.keys.EndsWith w'.tables y.threadId u.id ↔
          s.keys.AllBefore w.tables y.threadId ⟨u.id, freshScore now⟩) := by
  obtain ⟨run, hi, ht⟩ := h
  obtain ⟨f, updated⟩ := (ends_updateMessage orderly hi ht fun _ _ => trivial).ok rfl run
  refine ⟨f.orderly, whole.updated orderly f updated, fun origin held apart => ?_⟩
  obtain ⟨current, before, finds, record, changed⟩ := updated
  have here : current = origin := (((whole u.id).at_of_holds held).holds current).mp finds.holds
  rcases changed with ⟨_, rfl, _⟩ | ⟨destination, _, leaves, e, moved⟩
  · exact absurd (here.symm.trans (orderly.named u.id current before record).symm) apart
  · have there : (s.keys.contents w.tables).HasThread y.threadId := by
      rw [e]
      exact leaves.there
    exact whole.endsWith_moved held f apart there (here ▸ moved)

/--
In aligned contents a message that is moved to another thread comes last there if all that the thread
lists comes before the time of the clock, with ids to decide between equal scores, and otherwise it does
not. So it is for a move and for each change of a list of changes.
-/
theorem moved_last_iff (s : Store) (faults : Faults) (now : Instant) {w : World}
    (aligned : (s.keys.contents w.tables).Aligned) :
    (∀ id origin destination y w', origin ≠ destination →
      (s.migrateMessage now id origin destination).run faults w = (.ok y, w') →
        (s.keys.EndsWith w'.tables destination id ↔
          s.keys.AllBefore w.tables destination ⟨id, freshScore now⟩)) ∧
    ∀ us ys w', (s.updateMessages now us).run faults w = (.ok ys, w') →
      ∃ at_ : Nat → World, at_ 0 = w ∧ at_ us.length = w' ∧
        ∀ k u, us[k]? = some u → ∃ y, ys[k]? = some y ∧
          (s.updateMessage now u).run faults (at_ k) = (.ok y, at_ (k + 1)) ∧
          ∀ origin, (s.keys.contents (at_ k).tables).Holds origin u.id → origin ≠ y.threadId →
            (s.keys.EndsWith (at_ (k + 1)).tables y.threadId u.id ↔
              s.keys.AllBefore (at_ k).tables y.threadId ⟨u.id, freshScore now⟩) := by
  refine ⟨fun id origin destination y w' apart run => ?_, fun us ys w' run => ?_⟩
  · obtain ⟨f, before, record, ⟨same, _⟩ | ⟨leaves, e, moved⟩⟩ :=
      (ends_migrateMessage aligned.orderly id origin destination).ok rfl run
    · exact absurd same apart
    · obtain rfl : y.threadId = destination := by
        rw [e]
        rfl
      exact aligned.whole.endsWith_moved record.holds f apart leaves.there moved
  · obtain ⟨_, at_, rfl, rfl, steps⟩ := exists_worlds_updateMessages run
    have stays : ∀ k ≤ us.length, Orderly .agreeing (s.keys.contents (at_ k).tables) ∧
        (s.keys.contents (at_ k).tables).Whole := by
      intro k
      induction k with
      | zero => exact fun _ => ⟨aligned.orderly, aligned.whole⟩
      | succ k ih =>
        intro hk
        obtain ⟨orderly, whole⟩ := ih (Nat.le_of_succ_le hk)
        obtain ⟨y, _, step⟩ := steps k us[k] (List.getElem?_eq_getElem hk)
        obtain ⟨orderly', whole', _⟩ := step.endsWith orderly whole
        exact ⟨orderly', whole'⟩
    refine ⟨at_, rfl, rfl, fun k u hu => ?_⟩
    obtain ⟨y, hy, step⟩ := steps k u hu
    obtain ⟨orderly, whole⟩ := stays k (Nat.le_of_lt (List.getElem?_eq_some_iff.mp hu).1)
    obtain ⟨_, _, ends⟩ := step.endsWith orderly whole
    exact ⟨y, hy, step.1, ends⟩

end Store

/-! ## A sample -/

namespace Sample

/-- A message is in one thread, and one of some date is in the other. -/
def facing (date : Instant) : List (Instant × Operation) :=
  history "a" ++ [(now, .saveMessages [.user date "x" "b" "r" "text"])]

def facingWorld (date : Instant) : World :=
  ((store false).performAll Faults.none (facing date) World.initial).2

/-- The message is moved to the other thread at some time. -/
def facingMove (date clock : Instant) : Except MemoryError Message × World :=
  ((store false).migrateMessage clock "m" "a" "b").run Faults.none (facingWorld date)

def later : Instant := .ofMillis 1000

theorem aligned_facing (date : Instant) :
    ((store false).keys.contents (facingWorld date).tables).Aligned := by
  unfold facingWorld
  exact ((store false).contents_consistent (facing date)).aligned

end Sample

namespace Store

open Contents

theorem moved_behind_earlier :
    ((Sample.store false).keys.contents (Sample.facingWorld Sample.now).tables).Aligned ∧
    ∃ y, (Sample.facingMove Sample.now Sample.later).1 = .ok y ∧
      (Sample.store false).keys.EndsWith (Sample.facingMove Sample.now Sample.later).2.tables "b" "m" := by
  have aligned := Sample.aligned_facing Sample.now
  have ok : (Sample.facingMove Sample.now Sample.later).1.isOk = true := by decide +kernel
  have before : (Sample.store false).keys.AllBefore (Sample.facingWorld Sample.now).tables "b"
      ⟨"m", freshScore Sample.later⟩ := by decide +kernel
  obtain ⟨y, run⟩ := Action.exists_ok ok
  refine ⟨aligned, y, congrArg Prod.fst run, ?_⟩
  exact ((moved_last_iff (Sample.store false) Faults.none Sample.later aligned).1 "m" "a" "b" y _
    (by decide) run).mpr before

/-- A message that the thread has is dated later than the clock, and stays the last one. -/
theorem moved_in_front :
    ((Sample.store false).keys.contents (Sample.facingWorld Sample.later).tables).Aligned ∧
    ((Sample.store false).keys.contents (Sample.facingWorld Sample.later).tables).Holds "a" "m" ∧
    ∃ y, (Sample.facingMove Sample.later Sample.now).1 = .ok y ∧
      ¬ (Sample.store false).keys.EndsWith (Sample.facingMove Sample.later Sample.now).2.tables
        "b" "m" := by
  have ok : (Sample.facingMove Sample.later Sample.now).1.isOk = true := by decide +kernel
  obtain ⟨y, run⟩ := Action.exists_ok ok
  exact ⟨Sample.aligned_facing Sample.later, Sample.holds_of_isSome (by decide +kernel), y,
    congrArg Prod.fst run, by decide +kernel⟩

end Store

end ChatMemory
