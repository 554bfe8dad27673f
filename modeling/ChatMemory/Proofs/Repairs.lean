import ChatMemory.Proofs.Places
import ChatMemory.Proofs.Reconciling

/-!
# What reconciling repairs

A torn message has one thread at most that both has and lists it (`View.Loose`). Reconciling a thread
keeps it so, and never takes the last copy, since a copy only goes if another thread has the message.
Afterwards the thread lists the message if and only if it has it (`View.Clean`), and that stays so
whatever is reconciled later. So once every thread was reconciled each message is whole.

## Main statements

* `Reconciled.clean` — what reconciling a thread brings about.
* `Reconciling.loose`, `Reconciling.stored`, `Reconciling.clean` — what it keeps, also when stopped.
* `Loose.whole` — a message that is loose and clean everywhere is whole.
-/

namespace ChatMemory

namespace View

/-- At most one of the threads that have the message lists it. -/
def Loose (w : View) : Prop :=
  ∀ thread other, w.Holds thread → w.Holds other → w.Lists thread → w.Lists other → thread = other

/-- The thread lists the message if and only if it has it. -/
def Clean (w : View) (thread : String) : Prop := w.Lists thread ↔ w.Holds thread

/-- The message is in some thread. -/
def IsStored (w : View) : Prop := ∃ thread, w.Holds thread

/-- All records of the message decode. -/
def Decodes (w : View) : Prop := ∀ thread, w.Holds thread → ∃ x, w.IsRecord thread x

variable {has : String → Prop} {w w' : View} {tracking : Bool} {x : Message}
  {thread other origin destination : String}

theorem Torn.loose (h : w.Torn has origin destination) (housed : ∀ thread, w.Holds thread → has thread) :
    w.Loose := by
  intro thread other hh ho hl hl'
  by_cases apart : origin = destination
  · subst apart
    rw [(h.holds thread hh).elim id id, (h.holds other ho).elim id id]
  · rcases h.holds thread hh with rfl | rfl <;> rcases h.holds other ho with rfl | rfl
    · rfl
    · exact absurd hl' (h.torn apart (housed _ ho) hh)
    · exact absurd hl (h.torn apart (housed _ hh) ho)
    · rfl

theorem Loose.mono (h : w.Loose) (holds : ∀ thread, w'.Holds thread → w.Holds thread)
    (lists : ∀ thread, w'.Lists thread → w.Lists thread) : w'.Loose :=
  fun thread other hh ho hl hl' => h thread other (holds _ hh) (holds _ ho) (lists _ hl) (lists _ hl')

/-- A message that is loose and clean everywhere is whole. -/
theorem Loose.whole (h : w.Loose) (housed : ∀ thread, w.Holds thread → has thread)
    (clean : ∀ thread, has thread → w.Clean thread) : w.Whole has := by
  refine (whole_iff housed).mpr ⟨fun thread other hh ho => ?_, clean⟩
  exact h thread other hh ho ((clean thread (housed thread hh)).mpr hh)
    ((clean other (housed other ho)).mpr ho)

/-! ## The changes of a view -/

theorem Forgot.holds (h : w.Forgot tracking thread w') : w'.Holds other ↔ w.Holds other := by
  rw [Holds, h.record, Holds]

theorem Forgot.lists (h : w.Forgot tracking thread w') : w'.Lists other ↔ w.Lists other := by
  rw [Lists, h.score, Lists]

/-- What reconciling does to the threads that have the message and to those that list it. -/
inductive Repaired (thread : String) (w w' : View) : Prop where
  | same (holds : ∀ other, w'.Holds other ↔ w.Holds other)
      (lists : ∀ other, w'.Lists other ↔ w.Lists other)
  | dropped (h : ¬ w.Holds thread) (holds : ∀ other, w'.Holds other ↔ w.Holds other)
      (lists : ∀ other, w'.Lists other ↔ other ≠ thread ∧ w.Lists other)
  | kept (h : w.Holds thread) (stays : w.Kept thread)
      (holds : ∀ other, w'.Holds other ↔ w.Holds other)
      (lists : ∀ other, w'.Lists other ↔ other = thread ∨ w.Lists other)
  | removed (h : w.Holds thread) (goes : ¬ w.Kept thread)
      (holds : ∀ other, w'.Holds other ↔ other ≠ thread ∧ w.Holds other)
      (lists : ∀ other, w'.Lists other ↔ w.Lists other)

theorem Reconciling.repaired (h : w.Reconciling tracking thread w') : Repaired thread w w' := by
  rcases h with rfl | (⟨h, rfl⟩ | ⟨_, _, rfl⟩ | ⟨h, stays, rfl⟩ | ⟨h, goes, e⟩) | ⟨h, stays, rfl⟩ |
    ⟨h, goes, rfl⟩
  · exact .same (fun _ => .rfl) fun _ => .rfl
  · exact .dropped h (fun _ => .rfl) fun _ => lists_setScore_none
  · exact .same (fun _ => .rfl) fun _ => .rfl
  · exact .kept h.holds stays (fun _ => holds_noted) fun _ => lists_noted.trans lists_list
  · exact .removed h.holds goes (fun _ => e.holds.trans holds_setRecord_none) fun _ => e.lists
  · exact .kept h.holds stays (fun _ => .rfl) fun _ => lists_list
  · exact .removed h.holds goes (fun _ => holds_setRecord_none) fun _ => .rfl

/-! ## What reconciling brings about and keeps -/

theorem Reconciled.clean (h : w.Reconciled tracking thread w') (decodes : w.Decodes) :
    w'.Clean thread := by
  rcases h with ⟨h, rfl⟩ | ⟨h, damaged, rfl⟩ | ⟨h, stays, rfl⟩ | ⟨h, goes, e⟩
  · exact ⟨fun hl => absurd rfl (lists_setScore_none.mp hl).1, fun hh => absurd hh h⟩
  · obtain ⟨x, hx⟩ := decodes thread h
    exact absurd hx (damaged x)
  · refine ⟨fun _ => holds_noted.mpr h.holds, fun _ => lists_noted.mpr ?_⟩
    exact lists_list.mpr (Or.inl rfl)
  · refine ⟨fun hl => absurd (Or.inl (e.lists.mp hl)) goes, fun hh => ?_⟩
    exact absurd rfl (holds_setRecord_none.mp (e.holds.mp hh)).1

theorem Reconciling.clean (h : w.Reconciling tracking thread w') (clean : w.Clean other) :
    w'.Clean other := by
  have clean : w.Lists other ↔ w.Holds other := clean
  rcases h.repaired with ⟨holds, lists⟩ | ⟨h, holds, lists⟩ | ⟨h, stays, holds, lists⟩ |
    ⟨h, goes, holds, lists⟩
  · rw [Clean, holds, lists]
    exact clean
  · rw [Clean, holds, lists, clean]
    exact ⟨fun hl => hl.2, fun hh => ⟨fun e => h (e ▸ hh), hh⟩⟩
  · rw [Clean, holds, lists, clean]
    exact ⟨fun hl => hl.elim (fun e => e ▸ h) id, Or.inr⟩
  · rw [Clean, holds, lists, clean]
    refine ⟨fun hh => ⟨?_, hh⟩, fun hh => hh.2⟩
    rintro rfl
    exact goes (Or.inl (clean.mpr hh))

/-- A copy only goes if another thread has the message. -/
theorem Reconciling.stored (h : w.Reconciling tracking thread w') (stored : w.IsStored) :
    w'.IsStored := by
  obtain ⟨other, ho⟩ := stored
  rcases h.repaired with ⟨holds, _⟩ | ⟨_, holds, _⟩ | ⟨_, _, holds, _⟩ | ⟨_, goes, holds, _⟩
  · exact ⟨other, (holds other).mpr ho⟩
  · exact ⟨other, (holds other).mpr ho⟩
  · exact ⟨other, (holds other).mpr ho⟩
  · by_cases alone : ∃ t, w.Elsewhere thread t
    · obtain ⟨t, hne, ht⟩ := alone
      exact ⟨t, (holds t).mpr ⟨hne, ht⟩⟩
    · exact absurd (Or.inr (Or.inl fun t ht => alone ⟨t, ht⟩)) goes

/-- Reconciling lists no second copy. -/
theorem Reconciling.loose (h : w.Reconciling tracking thread w') (loose : w.Loose) : w'.Loose := by
  intro a b ha hb hla hlb
  rcases h.repaired with ⟨holds, lists⟩ | ⟨_, holds, lists⟩ | ⟨_, stays, holds, lists⟩ |
    ⟨_, _, holds, lists⟩
  · rw [holds] at ha hb
    rw [lists] at hla hlb
    exact loose a b ha hb hla hlb
  · rw [holds] at ha hb
    rw [lists] at hla hlb
    exact loose a b ha hb hla.2 hlb.2
  · rw [holds] at ha hb
    rw [lists] at hla hlb
    -- A thread apart from this one does not list the message, unless this one does already.
    have apart : ∀ t, w.Holds t → w.Lists t → w.Lists thread ∨ t = thread := by
      intro t ht hlt
      rcases stays with hl | alone | ⟨unlisted, _⟩
      · exact Or.inl hl
      · exact Or.inr (Decidable.byContradiction fun hne => alone t ⟨hne, ht⟩)
      · exact Or.inr (Decidable.byContradiction fun hne => unlisted t ⟨hne, ht⟩ hlt)
    rcases hla with rfl | hla <;> rcases hlb with rfl | hlb
    · rfl
    · rcases apart b hb hlb with hl | e
      · exact loose a b ha hb hl hlb
      · exact e.symm
    · rcases apart a ha hla with hl | e
      · exact loose a b ha hb hla hl
      · exact e
    · exact loose a b ha hb hla hlb
  · rw [holds] at ha hb
    rw [lists] at hla hlb
    exact loose a b ha.2 hb.2 hla hlb

/-- Reconciling leaves a whole message whole. -/
theorem Whole.reconciling (h : w.Whole has) (housed : ∀ thread, w.Holds thread → has thread)
    (reconciling : w.Reconciling tracking thread w') : w'.Whole has := by
  have loose : w.Loose := by
    obtain ⟨origin, torn⟩ := h.torn ""
    exact torn.loose housed
  have holds : ∀ other, w'.Holds other → w.Holds other := by
    intro other ho
    rcases reconciling.repaired with ⟨holds, _⟩ | ⟨_, holds, _⟩ | ⟨_, _, holds, _⟩ | ⟨_, _, holds, _⟩
    · exact (holds other).mp ho
    · exact (holds other).mp ho
    · exact (holds other).mp ho
    · exact ((holds other).mp ho).2
  exact (reconciling.loose loose).whole (fun other ho => housed other (holds other ho))
    fun other ho => reconciling.clean (((whole_iff housed).mp h).2 other ho)

end View

end ChatMemory
