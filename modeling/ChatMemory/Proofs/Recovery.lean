import ChatMemory.Proofs.Consistency

/-!
# Recovery

An operation on messages that is stopped leaves them torn. It is then enough to reconcile each thread
once, in any order. Attempts to do so may themselves be stopped, as long as each thread is reconciled
at last. Then all is in order again, and no message is lost.

What carries this: of the copies of a message at most one is in a thread that lists it
(`View.Loose`). Reconciling keeps that, and the thread is clean afterwards and stays so.

## Main statements

* `Step.scattered` — what an operation on messages leaves, stopped or not.
* `reconcileAll_induction` — what attempts to reconcile threads keep and bring about.
* `sound_of_scattered` — after all threads were reconciled everything is sound.
-/

namespace ChatMemory

/--
Threads are reconciled one after the other, each at some schedule. Attempts that are stopped are passed
over.
-/
def Store.reconcileAll (s : Store) (faults : Faults) : List (String × Schedule) → World →
    List (String × Except MemoryError ReconcileReport) × World
  | [], w => ([], w)
  | (thread, schedule) :: rest, w =>
    let (result, w₁) := (s.reconcileThread thread schedule).run faults w
    let (results, w₂) := s.reconcileAll faults rest w₁
    ((thread, result) :: results, w₂)

namespace View

variable {has : String → Prop} {w w' : View} {tracking : Bool} {now : Instant} {active : Prop}
  {x v before after : Message} {u : MessageUpdate} {position : Nat}
  {thread origin destination : String}

/-! ## No message is lost -/

theorem Halfway.holds (h : w.Halfway now x origin w') (apart : origin ≠ x.threadId) :
    w'.Holds x.threadId := by
  rcases h with rfl | rfl | rfl | rfl
  · exact (holds_copied ..).mpr (Or.inl rfl)
  · exact (holds_unlisted ..).mpr (Or.inl rfl)
  · exact (holds_erased ..).mpr ⟨Ne.symm apart, Or.inl rfl⟩
  · exact (holds_erased ..).mpr ⟨Ne.symm apart, Or.inl rfl⟩

theorem Underway.stored (h : w.Underway tracking now x origin active w')
    (apart : origin ≠ x.threadId) : w'.IsStored := by
  rcases h with ⟨_, h⟩ | rfl
  · exact ⟨x.threadId, h.holds apart⟩
  · exact ⟨x.threadId, (holds_moved ..).mpr ⟨Ne.symm apart, Or.inl rfl⟩⟩

theorem Storing.stored (h : w.Storing tracking v position now has active w')
    (stored : w.IsStored) : w'.IsStored := by
  rcases h with (rfl | ⟨origin, before, _, leaves, underway⟩) | ⟨w₁, homed, saving⟩
  · exact stored
  · exact underway.stored leaves.apart
  · have stored₁ : w₁.IsStored := by
      rcases homed with ⟨_, rfl⟩ | ⟨_, rfl⟩ | ⟨origin, before, _, leaves, rfl⟩
      · exact stored
      · exact stored
      · exact ⟨v.threadId, (holds_moved ..).mpr ⟨Ne.symm leaves.apart, Or.inl rfl⟩⟩
    have recorded : (w₁.recorded v position).Holds v.threadId :=
      holds_setRecord_some.mpr (Or.inl rfl)
    rcases saving with rfl | rfl | ⟨_, rfl | rfl⟩
    · exact stored₁
    · exact ⟨v.threadId, holds_saved.mpr (Or.inl rfl)⟩
    · exact ⟨v.threadId, recorded⟩
    · exact ⟨v.threadId, holds_noted.mpr recorded⟩

theorem Updated.stored {y : Message} (h : w.Updated tracking now has u y w') : w'.IsStored := by
  obtain ⟨current, before, _, _, ⟨_, rfl, rfl⟩ | ⟨destination, _, leaves, rfl, rfl⟩⟩ := h
  · exact ⟨_, holds_replaced.mpr (Or.inl rfl)⟩
  · exact ⟨destination, (holds_moved ..).mpr ⟨Ne.symm leaves.apart, Or.inl rfl⟩⟩

theorem Updating.stored (h : w.Updating tracking now has u active w') (stored : w.IsStored) :
    w'.IsStored := by
  rcases h with rfl | ⟨current, before, _, _, ⟨_, replacing⟩ | ⟨destination, _, leaves, underway⟩⟩
  · exact stored
  · rcases replacing with rfl | rfl | ⟨_, rfl | ⟨rfl, _⟩⟩
    · exact stored
    · exact ⟨_, holds_replaced.mpr (Or.inl rfl)⟩
    · exact ⟨_, holds_revised.mpr (Or.inl rfl)⟩
    · exact ⟨_, holds_setScore.mpr (holds_revised.mpr (Or.inl rfl))⟩
  · exact underway.stored leaves.apart

end View

namespace Contents

/-! ## Sound contents -/

/--
Sound contents: a message stands under a thread that exists and decodes, its record decodes and tells
its id and its thread, no id is in two threads, and the order of each thread lists its messages.
-/
structure Sound (c : Contents) : Prop where
  placed : ∀ {thread id r}, c.record thread id = some r →
    (c.HasThread thread ∧ ∃ t, c.IsThread thread t) ∧
      ∃ x, Message.ofRecord r = .ok x ∧ x.threadId = thread ∧ x.id = id
  unique : ∀ {thread other id}, c.Holds thread id → c.Holds other id → thread = other
  listed : ∀ {thread}, c.HasThread thread → StoredOrder.Readable (c.index thread) ∧
    ∀ id, c.Lists thread id ↔ c.Holds thread id

/-- Contents whose messages have dates that can be written again. -/
def Dated (c : Contents) : Prop :=
  ∀ {thread id r x}, c.record thread id = some r → Message.ofRecord r = .ok x →
    x.createdAt.FourDigit

/-- The rule for the records of sound contents. -/
abbrev soundRule : RecordRule := .decoding Plain IsMessage (fun h => h) Identifier.Valid.plain
  (fun h => h) Identifier.ValidMessage.isMessage

variable {c c' : Contents} {k : Keyspace} {t : Tables} {tracking : Bool} {now : Instant}
  {active : Prop} {thread id : String}

theorem Sound.plain (h : (k.contents t).Sound) (hh : (k.contents t).Holds thread id) :
    Plain thread := by
  refine plain_of_told (fun thread r => ∃ x, Message.ofRecord r = .ok x ∧
    x.threadId = thread) (fun hr => ?_) ?_ hh
  · obtain ⟨_, x, hx, hthread, _⟩ := h.placed hr
    exact ⟨x, hx, hthread⟩
  · rintro _ _ r ⟨x, hx, rfl⟩ ⟨y, hy, rfl⟩
    rw [Except.ok.inj (hx.symm.trans hy)]

theorem Sound.orderly (h : (k.contents t).Sound) (dated : (k.contents t).Dated) :
    Orderly soundRule (k.contents t) where
  placed {thread id r} hr := by
    have hh : (k.contents t).Holds thread id := by
      rw [Holds, hr]
      exact Option.some_ne_none r
    obtain ⟨⟨there, _⟩, x, hx, hthread, hid⟩ := h.placed hr
    exact ⟨there, h.plain hh, isMessage_of_holds hh, x, hx, hthread, hid, dated hr hx⟩
  readable ht := (h.listed ht).1

theorem Sound.whole (h : c.Sound) : c.Whole := by
  intro id
  refine (View.whole_iff fun thread hh => ?_).mpr ⟨fun _ _ => h.unique, fun thread ht => ?_⟩
  · obtain ⟨r, hr⟩ := Option.ne_none_iff_exists'.mp hh
    exact (h.placed hr).1.1
  · exact (h.listed ht).2 id

/-- A message that is in some thread. -/
def IsStored (c : Contents) (id : String) : Prop := (c.view id).IsStored

/-- A message that is in some thread is in just one. -/
theorem Sound.exists_home (h : c.Sound) (stored : c.IsStored id) :
    ∃ home, ∀ other, c.Holds other id ↔ other = home := by
  obtain ⟨home, hh⟩ := stored
  exact ⟨home, fun other => ⟨fun ho => h.unique ho hh, fun e => e ▸ hh⟩⟩

/-! ## Scattered contents -/

/-- What an operation leaves of sound contents, and what reconciling keeps. -/
structure Scattered (c : Contents) : Prop extends Orderly soundRule c where
  loose : ∀ id, (c.view id).Loose

/-- A thread that lists just the messages that it has. -/
def Clean (c : Contents) (thread : String) : Prop := ∀ id, (c.view id).Clean thread

theorem Orderly.decodes (h : Orderly soundRule c) (id : String) : (c.view id).Decodes := by
  intro thread hh
  obtain ⟨r, hr⟩ := Option.ne_none_iff_exists'.mp hh
  obtain ⟨_, _, _, x, hx, _⟩ := h.placed hr
  exact ⟨x, r, hr, hx⟩

/-- Orderly contents with messages that are torn at most are scattered. -/
theorem Orderly.scattered (h : Orderly soundRule c) (torn : ∀ id, ∃ origin destination,
    (c.view id).Torn c.HasThread origin destination) : Scattered c where
  toOrderly := h
  loose id := by
    obtain ⟨origin, destination, torn⟩ := torn id
    exact torn.loose fun _ hh => h.housed hh

theorem Whole.scattered (h : c.Whole) (orderly : Orderly soundRule c) : Scattered c := by
  refine orderly.scattered fun id => ?_
  obtain ⟨origin, torn⟩ := (h id).torn ""
  exact ⟨origin, "", torn⟩

/-! ## What an operation leaves -/

section Operations

variable {R : RecordRule} {names : String → Prop} {c₁ : Contents} {us : List MessageUpdate}
  {ys : List Message}

/-- Changes of some messages that leave each of them torn at most. -/
theorem Whole.tear (h : c.Whole) (f : Follows R names c c')
    (change : ∀ id, names id → ∃ origin destination,
      (c'.view id).Torn c.HasThread origin destination) (id : String) :
    ∃ origin destination, (c'.view id).Torn c'.HasThread origin destination := by
  rw [f.within.threads]
  by_cases hid : names id
  · exact change id hid
  · rw [f.within.view id hid]
    obtain ⟨origin, torn⟩ := (h id).torn ""
    exact ⟨origin, "", torn⟩

theorem Follows.stored (f : Follows R names c c')
    (change : ∀ id, names id → c.IsStored id → c'.IsStored id) (id : String)
    (stored : c.IsStored id) : c'.IsStored id := by
  by_cases hid : names id
  · exact change id hid stored
  · rw [IsStored, f.within.view id hid]
    exact stored

theorem Updates.stored (updates : Updates R tracking now us ys c c')
    (stored : c.IsStored id) : c'.IsStored id := by
  induction updates with
  | nil _ => exact stored
  | cons f updated _ ih =>
    refine ih (f.stored ?_ id stored)
    rintro _ rfl _
    exact updated.stored

/-- Changes that are stopped leave one message torn. -/
theorem Whole.interrupted (h : c.Whole) (orderly : Orderly R c)
    (interrupted : Interrupted R tracking now active us c c') :
    (∀ id, ∃ origin destination, (c'.view id).Torn c'.HasThread origin destination) ∧
      ∀ id, c.IsStored id → c'.IsStored id := by
  induction interrupted with
  | @here u _ c _ f updating =>
    refine ⟨h.tear f ?_, f.stored ?_⟩
    · rintro _ rfl
      obtain ⟨origin, destination, paused⟩ := ((h u.id).updating (orderly.named u.id) updating).1
      exact ⟨origin, destination, paused.toTorn⟩
    · rintro _ rfl stored
      exact updating.stored stored
  | later f updated _ ih =>
    obtain ⟨torn, kept⟩ := ih (h.updated orderly f updated) f.orderly
    refine ⟨torn, fun id stored => kept id (f.stored ?_ id stored)⟩
    rintro _ rfl _
    exact updated.stored

/-- What an operation on some messages leaves, whether it comes to its end or is stopped. -/
theorem Step.torn {op : Operation} (step : Step R tracking now active c c' op)
    (edits : op.Edits) (h : Orderly R c) (whole : c.Whole) :
    Follows R (Operation.Names · op) c c' ∧
      (∀ id, ∃ origin destination, (c'.view id).Torn c'.HasThread origin destination) ∧
      ∀ id, c.IsStored id → c'.IsStored id := by
  cases step with
  | same e =>
    have rest : Follows R (fun _ => False) c c := .refl h
    rw [e]
    exact ⟨.refl h, whole.tear rest fun _ hid => hid.elim, fun _ stored => stored⟩
  | saved there f view =>
    refine ⟨f, whole.tear f ?_, f.stored ?_⟩
    · rintro _ ⟨v, hv, rfl⟩
      obtain ⟨_, stored⟩ := view v hv
      exact ⟨_, _, ((whole v.id).stored (there v hv) stored).torn ""⟩
    · rintro _ ⟨v, hv, rfl⟩ _
      obtain ⟨_, stored⟩ := view v hv
      exact ⟨_, (((whole v.id).stored (there v hv) stored).holds _).mpr rfl⟩
  | saving there f view =>
    refine ⟨f, whole.tear f ?_, f.stored ?_⟩
    · rintro _ ⟨v, hv, rfl⟩
      obtain ⟨_, storing⟩ := view v hv
      obtain ⟨origin, torn⟩ := ((whole v.id).storing (there v hv) storing).1
      exact ⟨origin, _, torn⟩
    · rintro _ ⟨v, hv, rfl⟩ stored
      obtain ⟨_, storing⟩ := view v hv
      exact storing.stored stored
  | updated updates =>
    refine ⟨updates.follows, fun id => ?_, fun _ stored => updates.stored stored⟩
    obtain ⟨origin, torn⟩ := (whole.updates h updates id).torn ""
    exact ⟨origin, "", torn⟩
  | updating interrupted =>
    obtain ⟨torn, kept⟩ := whole.interrupted h interrupted
    exact ⟨interrupted.follows, torn, kept⟩
  | moved f leaves underway =>
    refine ⟨f, whole.tear f ?_, f.stored ?_⟩
    · rintro _ rfl
      rcases whole _ with nowhere | ⟨thread, at_⟩
      · exact absurd leaves.record.holds (nowhere.holds _)
      · obtain rfl := (at_.holds _).mp leaves.record.holds
        obtain ⟨origin, torn⟩ := (at_.underway leaves.apart leaves.there underway).1
        exact ⟨origin, _, torn⟩
    · rintro _ rfl _
      exact underway.stored leaves.apart
  | _ => exact edits.elim

/-- What an operation on some messages leaves is scattered. No thread and no message is lost. -/
theorem Step.scattered {op : Operation} (step : Step soundRule tracking now active c c' op)
    (edits : op.Edits) (h : Orderly soundRule c) (whole : c.Whole) :
    Scattered c' ∧ c'.HasThread = c.HasThread ∧ ∀ id, c.IsStored id → c'.IsStored id := by
  obtain ⟨f, torn, kept⟩ := step.torn edits h whole
  exact ⟨f.orderly.scattered torn, f.within.threads, kept⟩

end Operations

/-! ## What reconciling brings about -/

/-- What reconciling keeps: no message is lost, and threads that are clean stay so. -/
structure Mended (c c' : Contents) : Prop where
  scattered : Scattered c'
  thread : c'.thread = c.thread
  stored : ∀ id, c.IsStored id → c'.IsStored id
  clean : ∀ thread, c.Clean thread → c'.Clean thread

theorem Mended.refl (h : Scattered c) : Mended c c := ⟨h, rfl, fun _ hs => hs, fun _ hc => hc⟩

theorem hasThread_of_thread_eq (h : c'.thread = c.thread) : c'.HasThread = c.HasThread := by
  funext thread
  rw [HasThread, HasThread, h]

theorem Mended.trans {c₁ : Contents} (h : Mended c c₁) (h' : Mended c₁ c') : Mended c c' :=
  ⟨h'.scattered, h'.thread.trans h.thread, fun id hs => h'.stored id (h.stored id hs),
    fun thread hc => h'.clean thread (h.clean thread hc)⟩

theorem Scattered.cleared (h : Scattered c) (absent : c.thread thread = none) :
    Mended c (c.setIndex thread none) where
  scattered :=
    { toOrderly := h.setIndex thread StoredOrder.sorted_none.readable
      loose := fun id => by
        rw [view_cleared]
        exact (h.loose id).mono (fun _ hh => hh) fun _ hl => (View.lists_setScore_none.mp hl).2 }
  thread := rfl
  stored _ hs := hs
  clean other hc id := by
    have hc : (c.view id).Lists other ↔ (c.view id).Holds other := hc id
    rw [view_cleared, View.Clean, View.lists_setScore_none, View.holds_setScore, hc]
    refine ⟨fun hl => hl.2, fun hh => ⟨?_, hh⟩⟩
    rintro rfl
    exact (h.housed hh).2 absent

theorem Scattered.reconciling (h : Scattered c) (e : c'.thread = c.thread)
    (hr : Store.Reconciling soundRule tracking thread c c') : Mended c c' := by
  cases hr with
  | existing _ f view =>
    exact ⟨⟨f.orderly, fun id => (view id).loose (h.loose id)⟩, e,
      fun id hs => (view id).stored hs, fun other hc id => (view id).clean (hc id)⟩
  | gone absent e' => exact e' ▸ h.cleared absent

/-- A thread that there was, if so, is clean now and its record decodes. -/
def PutRight (c c' : Contents) (thread : String) : Prop :=
  c.HasThread thread → c'.Clean thread ∧ ∃ t, c.IsThread thread t

theorem Mended.putRight {c₁ : Contents} (h : Mended c₁ c') (right : PutRight c c₁ thread) :
    PutRight c c' thread := fun there => (right there).imp_left (h.clean thread)

theorem Mended.putRight_trans {c₁ : Contents} (h : Mended c c₁) (right : PutRight c₁ c' thread) :
    PutRight c c' thread := by
  intro there
  rw [← hasThread_of_thread_eq h.thread] at there
  obtain ⟨clean, t, r, hr, ht⟩ := right there
  exact ⟨clean, t, r, by rw [← h.thread]; exact hr, ht⟩

theorem Scattered.reconciled (h : Scattered c) (e : c'.thread = c.thread)
    (hr : Store.Reconciles soundRule tracking thread c c') : Mended c c' ∧ PutRight c c' thread := by
  cases hr with
  | existing there f view =>
    refine ⟨h.reconciling e (.existing there f fun id => .finished (view id)), fun _ => ?_⟩
    exact ⟨fun id => (view id).clean (h.decodes id), _, there⟩
  | gone absent e' =>
    refine ⟨?_, fun ht => absurd absent ht.2⟩
    rcases e' with rfl | rfl
    · exact .refl h
    · exact h.cleared absent

/-- Contents that are scattered and whose threads are all clean and decode are sound. -/
theorem Scattered.sound (h : Scattered c)
    (clean : ∀ thread, c.HasThread thread → c.Clean thread ∧ ∃ t, c.IsThread thread t) : c.Sound := by
  have whole : c.Whole := fun id =>
    (h.loose id).whole (fun _ hh => h.housed hh) fun thread ht => (clean thread ht).1 id
  refine ⟨fun {thread id r} hr => ?_, fun {thread other id} hh ho => ?_, fun {thread} ht => ?_⟩
  · obtain ⟨there, _, _, x, hx, hthread, hid, _⟩ := h.placed hr
    exact ⟨⟨there, (clean thread there).2⟩, x, hx, hthread, hid⟩
  · exact ((View.whole_iff fun _ hh => h.housed hh).mp (whole id)).1 thread other hh ho
  · exact ⟨h.readable ht, fun id => (clean thread ht).1 id⟩

theorem Orderly.dated (h : Orderly soundRule c) : c.Dated := by
  intro thread id r x hr hx
  exact soundRule.dated (h.placed hr).2 hx

end Contents

namespace Store

open Action Contents

variable {s : Store} {faults : Faults}

/--
What attempts to reconcile threads keep (`I`), and what is so of each thread once it was reconciled
(`D`), if no later attempt takes it away.
-/
theorem reconcileAll_induction {I : Contents → Prop} {D : String → Contents → Prop}
    (step : ∀ thread schedule c, I c → Ends s.keys faults (s.reconcileThread thread schedule) c
      (fun _ c' => I c' ∧ D thread c' ∧ ∀ other, D other c → D other c')
      (fun _ c' => I c' ∧ ∀ other, D other c → D other c')) :
    ∀ (attempts : List (String × Schedule)) {w w' : World}
      {results : List (String × Except MemoryError ReconcileReport)},
    s.reconcileAll faults attempts w = (results, w') → I (s.keys.contents w.tables) →
    I (s.keys.contents w'.tables) ∧
      (∀ other, D other (s.keys.contents w.tables) → D other (s.keys.contents w'.tables)) ∧
      ∀ thread report, (thread, .ok report) ∈ results → D thread (s.keys.contents w'.tables)
  | [], w, _, _, e, h => by
    obtain ⟨rfl, rfl⟩ := Prod.mk.inj e
    exact ⟨h, fun _ hd => hd, fun _ _ hm => absurd hm List.not_mem_nil⟩
  | (thread, schedule) :: rest, w, w', _, e, h => by
    have one := step thread schedule _ h w rfl
    rw [reconcileAll] at e
    generalize (s.reconcileThread thread schedule).run faults w = out at one e
    obtain ⟨result, w₁⟩ := out
    obtain ⟨rfl, rfl⟩ := Prod.mk.inj e
    cases result with
    | ok _ =>
      obtain ⟨h₁, done, keeps⟩ := one
      obtain ⟨h₂, keeps', all⟩ := reconcileAll_induction step rest rfl h₁
      refine ⟨h₂, fun other hd => keeps' other (keeps other hd), fun other report hm => ?_⟩
      rcases List.mem_cons.mp hm with e | hm
      · obtain ⟨rfl, _⟩ := Prod.mk.inj e
        exact keeps' _ done
      · exact all other report hm
    | error _ =>
      obtain ⟨h₁, keeps⟩ := one
      obtain ⟨h₂, keeps', all⟩ := reconcileAll_induction step rest rfl h₁
      refine ⟨h₂, fun other hd => keeps' other (keeps other hd), fun other report hm => ?_⟩
      rcases List.mem_cons.mp hm with e | hm
      · exact absurd (Prod.mk.inj e).2 (by simp)
      · exact all other report hm

theorem ends_reconcileScattered {c : Contents} (h : Scattered c) (thread : String)
    (schedule : Schedule) : Ends s.keys faults (s.reconcileThread thread schedule) c
      (fun _ c' => Mended c c' ∧ PutRight c c' thread) (fun _ c' => Mended c c') := by
  refine (ends_reconcileThread h.toOrderly thread).mono (fun _ c' hc => ?_) fun _ c' hc => ?_
  · exact h.reconciled hc.2.1 hc.2.2
  · rcases hc with ⟨rfl, _⟩ | ⟨_, _, e, hc⟩
    · exact .refl h
    · exact h.reconciling e hc

/-- What one attempt adds to those before it. -/
theorem ends_reconcileMended {c₀ c : Contents} (mended : Mended c₀ c) (thread : String)
    (schedule : Schedule) : Ends s.keys faults (s.reconcileThread thread schedule) c
      (fun _ c' => Mended c₀ c' ∧ PutRight c₀ c' thread ∧
        ∀ other, PutRight c₀ c other → PutRight c₀ c' other)
      (fun _ c' => Mended c₀ c' ∧ ∀ other, PutRight c₀ c other → PutRight c₀ c' other) := by
  refine (ends_reconcileScattered mended.scattered thread schedule).mono ?_
    fun _ _ mended' => ⟨mended.trans mended', fun _ => mended'.putRight⟩
  rintro _ _ ⟨mended', right⟩
  exact ⟨mended.trans mended', mended.putRight_trans right, fun _ => mended'.putRight⟩

/-- Scattered contents are sound when each thread was reconciled, and no message is lost. -/
theorem sound_of_scattered {w w' : World} (h : Scattered (s.keys.contents w.tables))
    {attempts : List (String × Schedule)} {results : List (String × Except MemoryError ReconcileReport)}
    (run : s.reconcileAll faults attempts w = (results, w'))
    (each : ∀ thread, (s.keys.contents w.tables).HasThread thread →
      ∃ report, (thread, .ok report) ∈ results) :
    (s.keys.contents w'.tables).Sound ∧ (s.keys.contents w'.tables).Dated ∧
      ∀ id, (s.keys.contents w.tables).IsStored id → (s.keys.contents w'.tables).IsStored id := by
  obtain ⟨mended, _, all⟩ := reconcileAll_induction
    (fun thread schedule _ mended => ends_reconcileMended mended thread schedule) attempts run
    (.refl h)
  refine ⟨mended.scattered.sound fun thread there => ?_, mended.scattered.dated, mended.stored⟩
  rw [hasThread_of_thread_eq mended.thread] at there
  obtain ⟨report, hm⟩ := each thread there
  obtain ⟨clean, t, r, hr, ht⟩ := all thread report hm there
  exact ⟨clean, t, r, by rw [mended.thread]; exact hr, ht⟩

end Store

/-! ## A sample -/

namespace Sample

open Contents

variable {home : String}

theorem history_dated : ∀ e ∈ history home, e.2.Dated Instant.FourDigit := by
  intro e he
  rcases List.mem_cons.mp he with rfl | he
  · trivial
  rcases List.mem_cons.mp he with rfl | he
  · trivial
  obtain rfl := List.mem_singleton.mp he
  intro v hv
  obtain rfl := List.mem_singleton.mp hv
  show Instant.FourDigit now
  decide

theorem sound (tracking : Bool) (home : String)
    (h : (world tracking home).tables.threads.entries.all fun e => (Thread.ofJson e.2).isOk) :
    ((store tracking).keys.contents (world tracking home).tables).Sound ∧
      ((store tracking).keys.contents (world tracking home).tables).Dated := by
  have orderly : Orderly soundRule ((store tracking).keys.contents (world tracking home).tables) := by
    unfold world
    exact ((store tracking).performAll_founded Faults.none history_dated).toOrderly
  have consistent : ((store tracking).keys.contents (world tracking home).tables).Consistent
    (store tracking).config.trackMessageThreads := Sample.consistent
  have whole := fun id => (View.whole_iff fun _ hh => consistent.housed hh).mp
    (consistent.fine id).whole
  refine ⟨⟨fun hr => ?_, fun {thread other id} hh ho => (whole id).1 thread other hh ho,
    fun {thread} there => ⟨orderly.readable there, fun id => (whole id).2 thread there⟩⟩,
    orderly.dated⟩
  obtain ⟨there, _, _, x, hx, hthread, hid, _⟩ := orderly.placed hr
  exact ⟨⟨there, decodes h there⟩, x, hx, hthread, hid⟩

end Sample

end ChatMemory
