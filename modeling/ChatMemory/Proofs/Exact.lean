import ChatMemory.Proofs.Acknowledged
import ChatMemory.Proofs.Retry

/-!
# Exact contents

Contents are *exact* if every record decodes and tells its key, every message is in one thread, which
exists, and every order lists exactly the messages of its thread. In exact contents a message that is
anywhere is housed in just one place (`Contents.Houses`), and a client that asks for it gets it.

Contents stay exact if the messages that change are each housed afterwards.

## Main statements

* `Exact.houses` — a record in exact contents is that of a message that is housed in its place.
* `Exact.exists_houses` — a message that a thread has is housed there.
* `Exact.follows` — what is to be shown for contents to stay exact.
* `Exact.answers` — a message that is housed is what a client gets.
-/

namespace ChatMemory

namespace Contents

variable {R : RecordRule} {names : String → Prop} {c c' : Contents} {k : Keyspace} {t : Tables}
  {x y : Message} {thread id : String} {tracking : Bool}

/-- Contents in which everything that is stored is in its one place. -/
structure Exact (c : Contents) : Prop where
  placed : ∀ {thread id r}, c.record thread id = some r → c.HasThread thread ∧
    ∃ x, Message.ofRecord r = .ok x ∧ x.threadId = thread ∧ x.id = id
  unique : ∀ {thread other id}, c.Holds thread id → c.Holds other id → thread = other
  readable : ∀ thread, StoredOrder.Readable (c.index thread)
  listed : ∀ thread id, c.Lists thread id ↔ c.Holds thread id

/-- The message is read in its thread, and it is in no other thread and in no other order. -/
structure Houses (c : Contents) (x : Message) : Prop where
  record : (c.view x.id).IsRecord x.threadId x
  holds : ∀ thread, c.Holds thread x.id ↔ thread = x.threadId
  lists : ∀ thread, c.Lists thread x.id ↔ thread = x.threadId

/-- There is one message of an id at most that is housed. -/
theorem Houses.unique (hx : c.Houses x) (hy : c.Houses y) (same : x.id = y.id) : x = y := by
  have thread : x.threadId = y.threadId :=
    (hy.holds _).mp (same ▸ (hx.holds x.threadId).mpr rfl)
  have record := hx.record
  rw [same, thread] at record
  exact record.unique hy.record

/-- What is housed stays so as long as nothing changes for its id. -/
theorem Houses.congr (h : c.Houses x) (same : c'.view x.id = c.view x.id) : c'.Houses x where
  record := same ▸ h.record
  holds thread := by
    have held : (c'.view x.id).Holds thread ↔ (c.view x.id).Holds thread := by rw [same]
    exact held.trans (h.holds thread)
  lists thread := by
    have listed : (c'.view x.id).Lists thread ↔ (c.view x.id).Lists thread := by rw [same]
    exact listed.trans (h.lists thread)

namespace Exact

theorem aligned (h : c.Exact) : c.Aligned where
  placed {thread id r} hr := by
    obtain ⟨there, x, hx, agrees⟩ := h.placed hr
    refine ⟨there, ?_⟩
    rw [Message.Agrees, hx]
    exact agrees
  unique := h.unique
  listed {thread} _ := ⟨h.readable thread, h.listed thread⟩

theorem houses (h : c.Exact) (hx : (c.view id).IsRecord thread x) :
    c.Houses x ∧ x.id = id ∧ x.threadId = thread := by
  obtain ⟨r, hr, hd⟩ := hx
  obtain ⟨_, y, hy, rfl, rfl⟩ := h.placed hr
  obtain rfl := Except.ok.inj (hd.symm.trans hy)
  have held : c.Holds x.threadId x.id := View.IsRecord.holds ⟨r, hr, hd⟩
  have holds : ∀ thread, c.Holds thread x.id ↔ thread = x.threadId := fun thread =>
    ⟨fun hh => h.unique hh held, fun e => e ▸ held⟩
  exact ⟨⟨⟨r, hr, hd⟩, holds, fun thread => (h.listed thread x.id).trans (holds thread)⟩, rfl, rfl⟩

/-- A message that a thread has is housed there. -/
theorem exists_houses (h : c.Exact) (hh : c.Holds thread id) :
    ∃ x, c.Houses x ∧ x.id = id ∧ x.threadId = thread := by
  obtain ⟨r, hr⟩ := Option.ne_none_iff_exists'.mp hh
  obtain ⟨_, x, hx, _⟩ := h.placed hr
  exact ⟨x, h.houses ⟨r, hr, hx⟩⟩

theorem listed_housed (h : c.Exact) (hl : c.Lists thread id) : c.HasThread thread := by
  obtain ⟨r, hr⟩ := Option.ne_none_iff_exists'.mp ((h.listed thread id).mp hl)
  exact (h.placed hr).1

/-- A message is housed if it is in its thread, seen from the threads that exist. -/
theorem houses_of_at (h : c.Exact) (f : Follows R names c c')
    (at_ : (c'.view x.id).At c.HasThread x.threadId)
    (record : (c'.view x.id).IsRecord x.threadId x) : c'.Houses x where
  record := record
  holds := at_.holds
  lists thread := by
    by_cases there : c.HasThread thread
    · exact at_.lists thread there
    · refine ⟨fun hl => ?_, fun e => absurd (e ▸ at_.there) there⟩
      exact absurd (h.listed_housed (f.within.lists thread x.id there hl)) there

/-- Contents stay exact if what changes is housed afterwards. -/
theorem follows (h : c.Exact) (f : Follows R names c c')
    (named : ∀ id, names id → ∃ x, c'.Houses x ∧ x.id = id) : c'.Exact := by
  have place : ∀ id, (∃ x, c'.Houses x ∧ x.id = id) ∨ c'.view id = c.view id := by
    intro id
    by_cases hid : names id
    · exact Or.inl (named id hid)
    · exact Or.inr (f.within.view id hid)
  constructor
  case placed =>
    intro thread id r hr
    have held : c'.Holds thread id := by
      rw [Holds, hr]
      exact Option.some_ne_none r
    refine ⟨f.orderly.hasThread held, ?_⟩
    rcases place id with ⟨x, hx, rfl⟩ | same
    · obtain rfl := (hx.holds thread).mp held
      obtain ⟨r', hr', hd⟩ := hx.record
      obtain rfl := Option.some.inj (hr.symm.trans hr')
      exact ⟨x, hd, rfl, rfl⟩
    · have hr : (c.view id).record thread = some r := same ▸ hr
      exact (h.placed hr).2
  case unique =>
    intro thread other id hh ho
    rcases place id with ⟨x, hx, rfl⟩ | same
    · rw [(hx.holds thread).mp hh, (hx.holds other).mp ho]
    · have hh : (c'.view id).Holds thread := hh
      have ho : (c'.view id).Holds other := ho
      rw [same] at hh ho
      exact h.unique hh ho
  case readable => exact fun thread => f.within.readable thread (h.readable thread)
  case listed =>
    intro thread id
    rcases place id with ⟨x, hx, rfl⟩ | same
    · exact (hx.lists thread).trans (hx.holds thread).symm
    · show (c'.view id).Lists thread ↔ (c'.view id).Holds thread
      rw [same]
      exact h.listed thread id

/-- A record of a thread does not count. -/
theorem setThread (h : c.Exact) (thread : String) (r : Json) :
    (c.setThread thread (some r)).Exact where
  placed {other id r'} hr := by
    obtain ⟨there, x⟩ := h.placed hr
    refine ⟨⟨there.1, ?_⟩, x⟩
    rw [thread_setThread]
    split
    · exact Option.some_ne_none r
    · exact there.2
  unique := h.unique
  readable := h.readable
  listed := h.listed

/-- A message that is housed is found. -/
theorem finds (h : c.Exact) (hx : c.Houses x) : (c.view x.id).Finds tracking c.HasThread x.threadId := by
  obtain ⟨r, hr, _⟩ := hx.record
  exact View.finds_of_only (h.placed hr).1 ((hx.holds _).mpr rfl) fun other => (hx.holds other).mp

theorem at_of_holds (h : c.Exact) (hh : c.Holds thread id) : (c.view id).At c.HasThread thread :=
  (h.aligned.whole id).at_of_holds hh

theorem nowhere (h : c.Exact) (hno : ∀ thread, ¬ c.Holds thread id) :
    (c.view id).Nowhere c.HasThread :=
  ⟨hno, fun thread _ hl => hno thread ((h.listed thread id).mp hl)⟩

end Exact

/-- A client that asks for a message that is housed gets it. -/
theorem Exact.answers {s : Store} {w : World} (h : (s.keys.contents w.tables).Exact)
    (hx : (s.keys.contents w.tables).Houses x) : s.Answers w x := by
  have hi : IsMessage x.id := isMessage_of_holds ((hx.holds x.threadId).mpr rfl)
  exact (Store.answers_iff h.aligned.orderly hi).mpr ⟨h.finds hx, hx.record⟩

theorem exact_empty : empty.Exact where
  placed hr := absurd hr (by simp [empty])
  unique hh := absurd rfl hh
  readable _ := StoredOrder.sorted_none.readable
  listed _ id := iff_of_false (StoredOrder.not_lists_none id) (absurd rfl)

/-- Consistent contents are exact if all messages in them can be read. -/
theorem Consistent.exact (h : Consistent tracking (k.contents t))
    (decodes : ∀ {thread id r}, (k.contents t).record thread id = some r →
      (Message.ofRecord r).isOk = true) : (k.contents t).Exact where
  placed {thread id r} hr := by
    obtain ⟨there, _, _, x, rfl, rfl, hx⟩ := h.placed hr
    refine ⟨there, ?_⟩
    cases hy : Message.ofRecord r with
    | error cause => exact absurd (decodes hr) (by simp [hy, Except.isOk, Except.toBool])
    | ok y => exact ⟨y, rfl, hx.eq hy ▸ rfl, hx.eq hy ▸ rfl⟩
  unique := h.aligned.unique
  readable thread := (h.sorted thread).readable
  listed := h.lists_iff_holds

end Contents

/-- What a history without failures leaves is exact if all its records can be read. -/
theorem Store.exact_of_rows (s : Store) (history : List (Instant × Operation)) {threads : List String}
    (plain : ∀ thread ∈ threads, Plain thread)
    (rows : ∀ e ∈ (s.performAll Faults.none history World.initial).2.tables.messages.entries,
      e.1 ∈ threads.map s.keys.order ∨ (Message.ofRecord e.2).isOk = true) :
    (s.keys.contents (s.performAll Faults.none history World.initial).2.tables).Exact :=
  (s.contents_consistent history).exact fun hr => Keyspace.isOk_of_rows plain rows hr

end ChatMemory
