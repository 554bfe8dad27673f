import ChatMemory.Proofs.Saving
import ChatMemory.Proofs.Updating

/-!
# Where a message is

A message is *whole* if it is nowhere, or in one thread and listed there and in no other. Operations
that come to their end leave messages whole that were whole before. An operation that is stopped may
leave a message *torn*: in two threads, the one it was to leave and the one it was to go to, or in one
of them and not listed. As long as the old thread has the message the new one does not list it.

A move joins what is torn, since it starts with a new copy and ends with the only one.

## Main statements

* `Whole.stored`, `Whole.updated` — what comes to its end leaves a message whole.
* `Whole.storing`, `Whole.updating`, `At.halfway` — what is stopped leaves a message torn.
* `Torn.moved` — a move joins what is torn.
-/

namespace ChatMemory

namespace View

/-- The message is in one thread, and listed there only. -/
structure At (has : String → Prop) (w : View) (thread : String) : Prop where
  there : has thread
  holds : ∀ other, w.Holds other ↔ other = thread
  lists : ∀ other, has other → (w.Lists other ↔ other = thread)

/-- The message is in no thread, and listed in none. -/
structure Nowhere (has : String → Prop) (w : View) : Prop where
  holds : ∀ other, ¬ w.Holds other
  lists : ∀ other, has other → ¬ w.Lists other

/-- The message is in one thread at most, and listed where it is. -/
def Whole (has : String → Prop) (w : View) : Prop := w.Nowhere has ∨ ∃ thread, w.At has thread

/-- The message is in two threads at most, and the second does not list it before the first is left. -/
structure Torn (has : String → Prop) (w : View) (origin destination : String) : Prop where
  holds : ∀ thread, w.Holds thread → thread = origin ∨ thread = destination
  lists : ∀ thread, has thread → w.Lists thread → w.Holds thread
  torn : origin ≠ destination → has destination → w.Holds origin → ¬ w.Lists destination

variable {has : String → Prop} {w w' : View} {tracking : Bool} {now : Instant} {active : Prop}
  {v x before after : Message} {u : MessageUpdate} {position : Nat}
  {thread other origin destination : String}

/-! ## Whole messages -/

theorem At.listed (h : w.At has thread) : w.Lists thread := (h.lists thread h.there).mpr rfl

theorem whole_iff (housed : ∀ thread, w.Holds thread → has thread) : w.Whole has ↔
    (∀ thread other, w.Holds thread → w.Holds other → thread = other) ∧
      ∀ thread, has thread → (w.Lists thread ↔ w.Holds thread) := by
  constructor
  · rintro (⟨holds, lists⟩ | ⟨thread, at_⟩)
    · refine ⟨fun thread _ h => absurd h (holds thread), fun thread ht => ?_⟩
      exact ⟨fun h => absurd h (lists thread ht), fun h => absurd h (holds thread)⟩
    · refine ⟨fun t t' h h' => ?_, fun t ht => ?_⟩
      · rw [(at_.holds t).mp h, (at_.holds t').mp h']
      · rw [at_.lists t ht, at_.holds t]
  · rintro ⟨unique, listed⟩
    by_cases h : ∃ thread, w.Holds thread
    · obtain ⟨thread, h⟩ := h
      have holds : ∀ other, w.Holds other ↔ other = thread := fun other =>
        ⟨fun h' => unique other thread h' h, fun e => e ▸ h⟩
      exact Or.inr ⟨thread, housed thread h, holds, fun other ho =>
        (listed other ho).trans (holds other)⟩
    · have holds : ∀ other, ¬ w.Holds other := fun other h' => h ⟨other, h'⟩
      exact Or.inl ⟨holds, fun other ho hl => holds other ((listed other ho).mp hl)⟩

/-- A whole message is where a thread has it. -/
theorem Whole.at_of_holds (h : w.Whole has) (hh : w.Holds thread) : w.At has thread := by
  rcases h with h | ⟨other, h⟩
  · exact absurd hh (h.holds thread)
  · exact (h.holds thread).mp hh ▸ h

/-- A whole message is where it is found. -/
theorem Whole.of_finds (h : w.Whole has) (finds : w.Finds tracking has thread) :
    w.At has thread := h.at_of_holds finds.holds

theorem At.torn (h : w.At has thread) (destination : String) : w.Torn has thread destination where
  holds other hh := Or.inl ((h.holds other).mp hh)
  lists other ht hl := (h.holds other).mpr ((h.lists other ht).mp hl)
  torn apart hd _ hl := apart ((h.lists destination hd).mp hl).symm

theorem Nowhere.torn (h : w.Nowhere has) (origin destination : String) :
    w.Torn has origin destination where
  holds thread hh := absurd hh (h.holds thread)
  lists thread ht hl := absurd hl (h.lists thread ht)
  torn _ _ hh := absurd hh (h.holds origin)

theorem Whole.torn (h : w.Whole has) (destination : String) :
    ∃ origin, w.Torn has origin destination := by
  rcases h with h | ⟨thread, h⟩
  · exact ⟨destination, h.torn destination destination⟩
  · exact ⟨thread, h.torn destination⟩

/-- A message that is in one thread at most is not torn as long as it is listed only where it is. -/
theorem torn_of_only (holds : ∀ other, w.Holds other → other = thread)
    (lists : ∀ other, has other → w.Lists other → w.Holds other) : w.Torn has thread thread where
  holds other hh := Or.inl (holds other hh)
  lists := lists
  torn apart := absurd rfl apart

/-! ## Moving -/

section Moves

variable (w tracking now x origin)

theorem holds_copied : (w.copied x origin).Holds thread ↔ thread = x.threadId ∨ w.Holds thread := by
  rw [copied, holds_setRecord_some]

theorem lists_copied : (w.copied x origin).Lists thread ↔ w.Lists thread := .rfl

theorem holds_unlisted :
    (w.unlisted x origin).Holds thread ↔ thread = x.threadId ∨ w.Holds thread :=
  w.holds_copied x origin

theorem lists_unlisted :
    (w.unlisted x origin).Lists thread ↔ thread ≠ origin ∧ w.Lists thread := by
  rw [unlisted, lists_setScore_none, lists_copied]

theorem holds_erased : (w.erased x origin).Holds thread ↔
    thread ≠ origin ∧ (thread = x.threadId ∨ w.Holds thread) := by
  rw [erased, holds_setRecord_none, holds_unlisted]

theorem lists_erased : (w.erased x origin).Lists thread ↔ thread ≠ origin ∧ w.Lists thread :=
  w.lists_unlisted x origin

theorem holds_moved : (w.moved tracking now x origin).Holds thread ↔
    thread ≠ origin ∧ (thread = x.threadId ∨ w.Holds thread) := by
  rw [moved, holds_noted, relisted, holds_list, holds_erased]

theorem lists_moved : (w.moved tracking now x origin).Lists thread ↔
    thread = x.threadId ∨ thread ≠ origin ∧ w.Lists thread := by
  rw [moved, lists_noted, relisted, lists_list, lists_erased]

end Moves

theorem score_moved (apart : origin ≠ x.threadId) : (w.moved tracking now x origin).score x.threadId
    = (w.score x.threadId).or (some (freshScore now)) := by
  simp [moved, relisted, erased, unlisted, copied, Ne.symm apart]

/-- A move joins what is torn. -/
theorem Torn.moved (h : w.Torn has origin x.threadId) (apart : origin ≠ x.threadId)
    (there : has x.threadId) : (w.moved tracking now x origin).At has x.threadId where
  there := there
  holds thread := by
    rw [holds_moved]
    constructor
    · rintro ⟨hne, rfl | hh⟩
      · rfl
      · exact (h.holds thread hh).resolve_left hne
    · rintro rfl
      exact ⟨Ne.symm apart, Or.inl rfl⟩
  lists thread ht := by
    rw [lists_moved]
    constructor
    · rintro (rfl | ⟨hne, hl⟩)
      · rfl
      · exact (h.holds thread (h.lists thread ht hl)).resolve_left hne
    · exact fun e => Or.inl e

/-- A move that is stopped leaves the message torn. -/
theorem At.halfway (h : w.At has origin) (apart : origin ≠ x.threadId)
    (halfway : w.Halfway now x origin w') : w'.Torn has origin x.threadId := by
  have held := h.torn x.threadId
  rcases halfway with rfl | rfl | rfl | rfl
  · refine ⟨fun thread hh => ?_, fun thread ht hl => ?_, fun _ hd _ hl => ?_⟩
    · rw [holds_copied, h.holds] at hh
      exact hh.symm
    · rw [holds_copied]
      exact Or.inr (held.lists thread ht hl)
    · exact apart ((h.lists _ hd).mp hl).symm
  · refine ⟨fun thread hh => ?_, fun thread ht hl => ?_, fun _ hd _ hl => ?_⟩
    · rw [holds_unlisted, h.holds] at hh
      exact hh.symm
    · rw [holds_unlisted]
      exact Or.inr (held.lists thread ht ((lists_unlisted ..).mp hl).2)
    · exact apart ((h.lists _ hd).mp ((lists_unlisted ..).mp hl).2).symm
  · refine ⟨fun thread hh => ?_, fun thread ht hl => ?_, fun _ _ hh => ?_⟩
    · rw [holds_erased, h.holds] at hh
      exact hh.2.symm
    · rw [lists_erased] at hl
      exact absurd ((h.lists thread ht).mp hl.2) hl.1
    · exact absurd rfl ((holds_erased ..).mp hh).1
  · refine ⟨fun thread hh => ?_, fun thread ht hl => ?_, fun _ _ hh => ?_⟩
    · rw [relisted, holds_list, holds_erased, h.holds] at hh
      exact hh.2.symm
    · rw [relisted, lists_list, lists_erased, h.lists thread ht] at hl
      rw [relisted, holds_list, holds_erased]
      rcases hl with rfl | ⟨hne, e⟩
      · exact ⟨Ne.symm apart, Or.inl rfl⟩
      · exact absurd e hne
    · rw [relisted, holds_list, holds_erased] at hh
      exact absurd rfl hh.1

/-- What is underway ends joined or torn. -/
theorem At.underway (h : w.At has origin) (apart : origin ≠ x.threadId) (there : has x.threadId)
    (underway : w.Underway tracking now x origin active w') :
    (∃ origin, w'.Torn has origin x.threadId) ∧ (¬ active → w'.At has x.threadId) := by
  rcases underway with ⟨ha, hw⟩ | rfl
  · exact ⟨⟨origin, h.halfway apart hw⟩, fun hno => absurd ha hno⟩
  · have joined : (w.moved tracking now x origin).At has x.threadId :=
      (h.torn x.threadId).moved apart there
    exact ⟨⟨_, joined.torn _⟩, fun _ => joined⟩

/-! ## Saving -/

theorem Whole.homed (h : w.Whole has) (homed : w.Homed tracking now has destination w') :
    w'.Nowhere has ∨ w'.At has destination := by
  rcases homed with ⟨hno, rfl⟩ | ⟨finds, rfl⟩ | ⟨origin, before, finds, leaves, rfl⟩
  · rcases h with h | ⟨thread, h⟩
    · exact Or.inl h
    · exact absurd ((h.holds thread).mpr rfl) (hno thread)
  · exact Or.inr (h.of_finds finds)
  · exact Or.inr (((h.of_finds finds).torn destination).moved leaves.apart leaves.there)

theorem holds_saved : (w.saved tracking v position).Holds thread ↔
    thread = v.threadId ∨ w.Holds thread := by
  rw [saved, holds_list, written, holds_noted, recorded, holds_setRecord_some]

theorem lists_saved : (w.saved tracking v position).Lists thread ↔
    thread = v.threadId ∨ w.Lists thread := by
  rw [saved, lists_list, written, lists_noted, recorded, lists_setRecord]

theorem score_saved : (w.saved tracking v position).score v.threadId
    = (w.score v.threadId).or (some (scoreFor v.createdAt position)) := by
  simp [saved, written, recorded]

/-- A message that is saved is in its thread, if it was in no other. -/
theorem saved_at (there : has v.threadId) (only : ∀ thread, w.Holds thread → thread = v.threadId)
    (lists : ∀ thread, has thread → w.Lists thread → w.Holds thread) :
    (w.saved tracking v position).At has v.threadId where
  there := there
  holds thread := by
    rw [holds_saved]
    exact ⟨fun h => h.elim id (only thread), Or.inl⟩
  lists thread ht := by
    rw [lists_saved]
    exact ⟨fun h => h.elim id fun hl => only thread (lists thread ht hl), Or.inl⟩

theorem Whole.saved_at (h : w.Nowhere has ∨ w.At has v.threadId) (there : has v.threadId) :
    (w.saved tracking v position).At has v.threadId := by
  rcases h with h | h
  · exact View.saved_at there (fun thread hh => absurd hh (h.holds thread))
      fun thread ht hl => absurd hl (h.lists thread ht)
  · exact View.saved_at there (fun thread hh => (h.holds thread).mp hh) (h.torn v.threadId).lists

theorem Whole.stored (h : w.Whole has) (there : has v.threadId)
    (stored : w.Stored tracking v position now has w') : w'.At has v.threadId := by
  obtain ⟨w₁, homed, rfl⟩ := stored
  exact Whole.saved_at (h.homed homed) there

theorem torn_recorded (h : w.Nowhere has ∨ w.At has v.threadId) :
    (w.recorded v position).Torn has v.threadId v.threadId := by
  refine torn_of_only (fun thread hh => ?_) fun thread ht hl => ?_
  · rw [recorded, holds_setRecord_some] at hh
    rcases hh with e | hh
    · exact e
    · rcases h with h | h
      · exact absurd hh (h.holds thread)
      · exact (h.holds thread).mp hh
  · rw [recorded, holds_setRecord_some]
    rcases h with h | h
    · exact absurd hl (h.lists thread ht)
    · exact Or.inl ((h.lists thread ht).mp hl)

/-- A batch that ends with an error leaves its messages torn, or whole if no call failed. -/
theorem Whole.storing (h : w.Whole has) (there : has v.threadId)
    (storing : w.Storing tracking v position now has active w') :
    (∃ origin, w'.Torn has origin v.threadId) ∧ (¬ active → w'.Whole has) := by
  have whole : ∀ {w' : View}, (w'.Nowhere has ∨ w'.At has v.threadId) →
      (∃ origin, w'.Torn has origin v.threadId) ∧ (¬ active → w'.Whole has) := fun hw =>
    have hw : Whole has _ := hw.imp_right fun hw => ⟨v.threadId, hw⟩
    ⟨hw.torn _, fun _ => hw⟩
  rcases storing with (rfl | ⟨origin, before, finds, leaves, underway⟩) | ⟨w₁, homed, saving⟩
  · exact ⟨h.torn _, fun _ => h⟩
  · obtain ⟨torn, joined⟩ := (h.of_finds finds).underway (x := before.into v.threadId) leaves.apart
      leaves.there underway
    exact ⟨torn, fun hno => Or.inr ⟨_, joined hno⟩⟩
  · have hw₁ := h.homed homed
    rcases saving with rfl | rfl | ⟨ha, rfl | rfl⟩
    · exact whole hw₁
    · exact whole (Or.inr (Whole.saved_at hw₁ there))
    · exact ⟨⟨_, torn_recorded hw₁⟩, fun hno => absurd ha hno⟩
    · have torn : (w₁.recorded v position).Torn has v.threadId v.threadId := torn_recorded hw₁
      refine ⟨⟨_, torn_of_only (fun thread hh => ?_) fun thread ht hl => ?_⟩, fun hno => absurd ha hno⟩
      · rw [written, holds_noted] at hh
        exact (torn.holds thread hh).elim id id
      · rw [written, lists_noted] at hl
        rw [written, holds_noted]
        exact torn.lists thread ht hl

/-! ## Changing -/

theorem holds_revised : (w.revised after).Holds thread ↔ thread = after.threadId ∨ w.Holds thread := by
  rw [revised, holds_setRecord_some]

theorem lists_revised : (w.revised after).Lists thread ↔ w.Lists thread := .rfl

theorem holds_reranked : (w.reranked after).Holds thread ↔
    thread = after.threadId ∨ w.Holds thread := by
  rw [reranked, holds_list, unranked, holds_setScore, holds_revised]

theorem lists_reranked : (w.reranked after).Lists thread ↔
    thread = after.threadId ∨ w.Lists thread := by
  rw [reranked, lists_list, unranked, lists_setScore_none, lists_revised]
  by_cases h : thread = after.threadId
  · simp [h]
  · simp [h]

theorem score_reranked :
    (w.reranked after).score after.threadId = some (scoreFor after.createdAt 0) := by
  rw [reranked, list, score_setScore, if_pos rfl, unranked, score_setScore, if_pos rfl, Option.none_or]

theorem holds_replaced : (w.replaced before after).Holds thread ↔
    thread = after.threadId ∨ w.Holds thread := by
  unfold replaced
  split
  · exact holds_revised
  · exact holds_reranked

theorem At.replaced (h : w.At has after.threadId) :
    (w.replaced before after).At has after.threadId where
  there := h.there
  holds thread := by
    rw [holds_replaced, h.holds, or_self]
  lists thread ht := by
    unfold View.replaced
    split
    · exact h.lists thread ht
    · rw [lists_reranked, h.lists thread ht, or_self]

theorem At.replacing (h : w.At has after.threadId)
    (replacing : w.Replacing before after active w') :
    w'.Torn has after.threadId after.threadId ∧ (¬ active → w'.At has after.threadId) := by
  have only : ∀ {thread}, (w.revised after).Holds thread → thread = after.threadId := fun hh =>
    (holds_revised.mp hh).elim id (h.holds _).mp
  rcases replacing with rfl | rfl | ⟨ha, rfl | ⟨rfl, _⟩⟩
  · exact ⟨h.torn _, fun _ => h⟩
  · exact ⟨h.replaced.torn _, fun _ => h.replaced⟩
  · refine ⟨torn_of_only (fun thread hh => only hh) fun thread ht hl => ?_, fun hno => absurd ha hno⟩
    exact holds_revised.mpr (Or.inl ((h.lists thread ht).mp hl))
  · refine ⟨torn_of_only (fun thread hh => only hh) fun thread ht hl => ?_, fun hno => absurd ha hno⟩
    rw [unranked, lists_setScore_none] at hl
    exact absurd ((h.lists thread ht).mp hl.2) hl.1

/-- A change that comes to its end leaves its message whole, and in the thread that was asked for. -/
theorem Whole.updated (h : w.Whole has)
    (named : ∀ thread x, w.IsRecord thread x → x.threadId = thread) {y : Message}
    (updated : w.Updated tracking now has u y w') :
    w'.At has y.threadId ∧ ∀ destination, u.threadId = some destination →
      y.threadId = destination := by
  obtain ⟨current, before, finds, record, ⟨stays, rfl, rfl⟩ | ⟨destination, hu, leaves, rfl, rfl⟩⟩ :=
    updated
  · have here : (before.apply u).threadId = current := named current before record
    refine ⟨At.replaced (here ▸ h.of_finds finds), fun destination hu => ?_⟩
    rw [here, stays destination hu]
  · refine ⟨((h.of_finds finds).torn destination).moved leaves.apart leaves.there, fun other ho => ?_⟩
    exact Option.some.inj (hu.symm.trans ho)

/--
What a change leaves that is stopped: the message is torn between the thread it was in and the one
that was asked for, and where it is not listed in that one, its date is already changed.
-/
structure Paused (has : String → Prop) (w : View) (u : MessageUpdate) (origin destination : String) :
    Prop extends w.Torn has origin destination where
  stays : u.threadId = none → origin = destination
  goes : ∀ d, u.threadId = some d → destination = d
  dated : ∀ x, w.IsRecord destination x → ¬ w.Lists destination →
    (x.apply u).createdAt = x.createdAt

theorem Whole.paused (h : w.Whole has) (u : MessageUpdate) :
    ∃ origin destination, w.Paused has u origin destination := by
  have listed : ∀ thread x, w.IsRecord thread x → w.Lists thread := by
    intro thread x hx
    rcases h with h | ⟨other, h⟩
    · exact absurd hx.holds (h.holds thread)
    · exact (h.holds thread).mp hx.holds ▸ h.listed
  cases hu : u.threadId with
  | none =>
    rcases h with h | ⟨thread, h⟩
    · exact ⟨"", "", h.torn .., fun _ => rfl, fun d hd => absurd (hu.symm.trans hd) (by simp),
        fun x hx hl => absurd (listed _ x hx) hl⟩
    · exact ⟨thread, thread, h.torn _, fun _ => rfl,
        fun d hd => absurd (hu.symm.trans hd) (by simp), fun x hx hl => absurd (listed _ x hx) hl⟩
  | some destination =>
    obtain ⟨origin, torn⟩ := h.torn destination
    exact ⟨origin, destination, torn, fun hno => absurd (hu.symm.trans hno) (by simp),
      fun d hd => Option.some.inj (hu.symm.trans hd), fun x hx hl => absurd (listed _ x hx) hl⟩

/-- The copy that a move leaves is the record of the moved message. -/
theorem eq_of_halfway (apart : origin ≠ x.threadId) (halfway : w.Halfway now x origin w') {y : Message}
    (hy : w'.IsRecord x.threadId y) : y = x := by
  have copy : w'.record x.threadId = some (x.toMovedRecord origin) := by
    rcases halfway with rfl | rfl | rfl | rfl
    · simp [copied]
    · simp [unlisted, copied]
    · simp [erased, unlisted, copied, Ne.symm apart]
    · simp [relisted, erased, unlisted, copied, Ne.symm apart]
  obtain ⟨r, hr, hy⟩ := hy
  obtain rfl := Option.some.inj (copy.symm.trans hr)
  exact Message.eq_of_ofRecord_toMovedRecord hy

/-- A change that ends with an error leaves its message torn, or whole if no call failed. -/
theorem Whole.updating (h : w.Whole has)
    (named : ∀ thread x, w.IsRecord thread x → x.threadId = thread)
    (updating : w.Updating tracking now has u active w') :
    (∃ origin destination, w'.Paused has u origin destination) ∧ (¬ active → w'.Whole has) := by
  have whole : ∀ {w' : View}, w'.Whole has →
      (∃ origin destination, w'.Paused has u origin destination) ∧ (¬ active → w'.Whole has) :=
    fun hw => ⟨hw.paused u, fun _ => hw⟩
  rcases updating with rfl | ⟨current, before, finds, record, ⟨stays, replacing⟩ |
    ⟨destination, hu, leaves, underway⟩⟩
  · exact whole h
  · have here : (before.apply u).threadId = current := named current before record
    have at_ : w.At has (before.apply u).threadId := here ▸ h.of_finds finds
    obtain ⟨torn, joined⟩ := at_.replacing replacing
    refine ⟨?_, fun hno => Or.inr ⟨_, joined hno⟩⟩
    have written : ∀ {w' : View}, w'.record = (w.revised (before.apply u)).record →
        ∀ x, w'.IsRecord (before.apply u).threadId x → x = before.apply u := by
      rintro w' hw x ⟨r, hr, hx⟩
      rw [hw, revised, record_setRecord, if_pos rfl] at hr
      obtain rfl := Option.some.inj hr
      exact Message.eq_of_ofRecord_toRecord hx
    have paused : ∀ {w' : View}, w'.Torn has (before.apply u).threadId (before.apply u).threadId →
        w'.record = (w.revised (before.apply u)).record →
        ∃ origin destination, w'.Paused has u origin destination := by
      intro w' torn hw
      refine ⟨_, _, torn, fun _ => rfl, fun d hd => (here.trans (stays d hd).symm), fun x hx _ => ?_⟩
      rw [written hw x hx, Message.apply_apply]
    rcases replacing with rfl | rfl | ⟨_, rfl | ⟨rfl, _⟩⟩
    · exact h.paused u
    · exact Whole.paused (Or.inr ⟨_, at_.replaced⟩) u
    · exact paused torn rfl
    · exact paused torn rfl
  · have at_ := h.of_finds finds
    have apart : current ≠ ((before.apply u).into destination).threadId := leaves.apart
    refine ⟨?_, fun hno => Or.inr ⟨_, (at_.underway apart leaves.there underway).2 hno⟩⟩
    rcases underway with ⟨_, halfway⟩ | rfl
    · refine ⟨current, destination, at_.halfway apart halfway,
        fun hno => absurd (hu.symm.trans hno) (by simp),
        fun d hd => Option.some.inj (hu.symm.trans hd), fun x hx _ => ?_⟩
      rw [eq_of_halfway apart halfway hx, Message.apply_into, Message.apply_apply]
    · exact Whole.paused (Or.inr ⟨destination, (at_.torn destination).moved apart leaves.there⟩) u

end View

namespace Contents

/-- Every message is whole. -/
def Whole (c : Contents) : Prop := ∀ id, (c.view id).Whole c.HasThread

variable {R : RecordRule} {c c' : Contents} {names : String → Prop} {tracking : Bool} {now : Instant}
  {us : List MessageUpdate} {ys : List Message}

theorem Whole.follows (h : c.Whole) (f : Follows R names c c')
    (change : ∀ id, names id → (c'.view id).Whole c.HasThread) : c'.Whole := by
  intro id
  rw [f.within.threads]
  by_cases hid : names id
  · exact change id hid
  · rw [f.within.view id hid]
    exact h id

theorem Whole.updated (h : c.Whole) (orderly : Orderly R c) {u : MessageUpdate} {y : Message}
    (f : Follows R (· = u.id) c c')
    (updated : (c.view u.id).Updated tracking now c.HasThread u y (c'.view u.id)) : c'.Whole := by
  refine h.follows f ?_
  rintro _ rfl
  exact Or.inr ⟨_, ((h u.id).updated (orderly.named u.id) updated).1⟩

/-- Changes that come to their end leave every message whole. -/
theorem Whole.updates (h : c.Whole) (orderly : Orderly R c)
    (updates : Updates R tracking now us ys c c') : c'.Whole := by
  induction updates with
  | nil _ => exact h
  | cons f updated _ ih => exact ih (h.updated orderly f updated) f.orderly

end Contents

end ChatMemory
