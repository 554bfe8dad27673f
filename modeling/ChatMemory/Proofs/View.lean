import ChatMemory.Proofs.Contents

/-!
# Views of a message

What the contents say about one message: its record in each thread, its score in each order, and its
pointer. The store works on its messages one by one, so most of what an operation does is a change of
the views of the messages that it names. `Within` says that nothing else is changed.

## Main statements

* `view_setRecord`, `view_added`, `view_removed`, … — how a change of the contents changes the views.
* `Within.trans` and the lemmas above it — which changes stay within some messages.
-/

namespace ChatMemory

/-- What the contents say about a message, by threads. -/
structure View where
  record : String → Option Json
  score : String → Option Binary64
  pointer : Option Json

namespace View

variable {w : View} {thread : String}

/-- The message has a record in a thread. -/
def Holds (w : View) (thread : String) : Prop := w.record thread ≠ none

/-- The order of a thread lists the message. -/
def Lists (w : View) (thread : String) : Prop := w.score thread ≠ none

def setRecord (w : View) (thread : String) (v : Option Json) : View :=
  { w with record := fun other => if other = thread then v else w.record other }

def setScore (w : View) (thread : String) (x : Option Binary64) : View :=
  { w with score := fun other => if other = thread then x else w.score other }

def setPointer (w : View) (v : Option Json) : View := { w with pointer := v }

/-- The message gets a score, unless it is listed already. -/
def list (w : View) (thread : String) (x : Binary64) : View :=
  w.setScore thread ((w.score thread).or (some x))

section Fields

variable (w) (thread) (v : Option Json) (x : Option Binary64) (other : String)

@[simp]
theorem record_setRecord : (w.setRecord thread v).record other
    = if other = thread then v else w.record other := rfl
@[simp]
theorem score_setRecord : (w.setRecord thread v).score = w.score := rfl
@[simp]
theorem pointer_setRecord : (w.setRecord thread v).pointer = w.pointer := rfl

@[simp]
theorem record_setScore : (w.setScore thread x).record = w.record := rfl
@[simp]
theorem score_setScore : (w.setScore thread x).score other
    = if other = thread then x else w.score other := rfl
@[simp]
theorem pointer_setScore : (w.setScore thread x).pointer = w.pointer := rfl

@[simp]
theorem record_setPointer : (w.setPointer v).record = w.record := rfl
@[simp]
theorem score_setPointer : (w.setPointer v).score = w.score := rfl
@[simp]
theorem pointer_setPointer : (w.setPointer v).pointer = v := rfl

variable (y : Binary64)

@[simp]
theorem record_list : (w.list thread y).record = w.record := rfl
@[simp]
theorem score_list : (w.list thread y).score other
    = if other = thread then (w.score thread).or (some y) else w.score other := rfl
@[simp]
theorem pointer_list : (w.list thread y).pointer = w.pointer := rfl

end Fields

section There

variable {thread other : String} {r : Json} {v : Option Json} {x : Binary64}

@[simp]
theorem holds_setRecord_some :
    (w.setRecord thread (some r)).Holds other ↔ other = thread ∨ w.Holds other := by
  rw [Holds, record_setRecord]
  by_cases h : other = thread
  · simp [h]
  · simp [h, Holds]

@[simp]
theorem holds_setRecord_none :
    (w.setRecord thread none).Holds other ↔ other ≠ thread ∧ w.Holds other := by
  rw [Holds, record_setRecord]
  by_cases h : other = thread
  · simp [h]
  · simp [h, Holds]

@[simp]
theorem lists_setRecord : (w.setRecord thread v).Lists other ↔ w.Lists other := .rfl
@[simp]
theorem holds_setScore {y : Option Binary64} :
    (w.setScore thread y).Holds other ↔ w.Holds other := .rfl

@[simp]
theorem lists_setScore_none :
    (w.setScore thread none).Lists other ↔ other ≠ thread ∧ w.Lists other := by
  rw [Lists, score_setScore]
  by_cases h : other = thread
  · simp [h]
  · simp [h, Lists]

@[simp]
theorem holds_setPointer : (w.setPointer v).Holds other ↔ w.Holds other := .rfl
@[simp]
theorem lists_setPointer : (w.setPointer v).Lists other ↔ w.Lists other := .rfl
@[simp]
theorem holds_list : (w.list thread x).Holds other ↔ w.Holds other := .rfl

@[simp]
theorem lists_list : (w.list thread x).Lists other ↔ other = thread ∨ w.Lists other := by
  rw [Lists, score_list]
  by_cases h : other = thread
  · simp [h]
  · simp [h, Lists]

end There

theorem ext' {a b : View} (h₁ : ∀ thread, a.record thread = b.record thread)
    (h₂ : ∀ thread, a.score thread = b.score thread) (h₃ : a.pointer = b.pointer) : a = b := by
  obtain ⟨_, _, _⟩ := a
  obtain ⟨_, _, _⟩ := b
  rw [View.mk.injEq]
  exact ⟨funext h₁, funext h₂, h₃⟩

theorem setScore_self (w : View) (thread : String) : w.setScore thread (w.score thread) = w := by
  refine ext' (fun _ => rfl) (fun other => ?_) rfl
  rw [score_setScore]
  split
  · next h => rw [h]
  · rfl

end View

namespace Contents

variable {c c' c'' : Contents} {names names' : String → Prop}

/-- What the contents say about a message. -/
def view (c : Contents) (id : String) : View where
  record thread := c.record thread id
  score thread := StoredOrder.score? (c.index thread) id
  pointer := c.pointer id

@[simp]
theorem record_view (c : Contents) (id thread : String) :
    (c.view id).record thread = c.record thread id := rfl

@[simp]
theorem pointer_view (c : Contents) (id : String) : (c.view id).pointer = c.pointer id := rfl

theorem score_view (c : Contents) (id thread : String) :
    (c.view id).score thread = StoredOrder.score? (c.index thread) id := rfl

/-! ## Changes -/

section Changes

variable (c) (thread id other : String) (v : Option Json)

@[simp]
theorem view_setThread : (c.setThread thread v).view other = c.view other := rfl

theorem view_setRecord : (c.setRecord thread id v).view other
    = if other = id then (c.view other).setRecord thread v else c.view other := by
  split
  · next h =>
    refine View.ext' (fun t => ?_) (fun _ => rfl) rfl
    simp [h]
  · next h =>
    refine View.ext' (fun t => ?_) (fun _ => rfl) rfl
    simp [h]

@[simp]
theorem view_setRecord_same :
    (c.setRecord thread id v).view id = (c.view id).setRecord thread v := by
  rw [view_setRecord, if_pos rfl]

theorem view_setPointer : (c.setPointer id v).view other
    = if other = id then (c.view other).setPointer v else c.view other := by
  split
  · next h => exact View.ext' (fun _ => rfl) (fun _ => rfl) (by simp [h])
  · next h => exact View.ext' (fun _ => rfl) (fun _ => rfl) (by simp [h])

@[simp]
theorem view_setPointer_same :
    (c.setPointer id v).view id = (c.view id).setPointer v := by
  rw [view_setPointer, if_pos rfl]

theorem view_setIndex : (c.setIndex thread v).view other
    = (c.view other).setScore thread (StoredOrder.score? v other) := by
  refine View.ext' (fun _ => rfl) (fun t => ?_) rfl
  rw [score_view, index_setIndex, View.score_setScore, score_view]
  split <;> rfl

theorem view_cleared :
    (c.setIndex thread none).view other = (c.view other).setScore thread none := by
  rw [view_setIndex, StoredOrder.score?_none]

end Changes

/-- The score that some entries give a message. -/
def entryScore (entries : List OrderEntry) (id : String) : Option Binary64 :=
  (entries.find? (·.id = id)).map (·.score)

theorem entryScore_singleton (id : String) (x : Binary64) : entryScore [⟨id, x⟩] id = some x := by
  simp [entryScore]

theorem view_added {thread : String} (h : StoredOrder.Readable (c.index thread))
    (entries : List OrderEntry) (other : String) :
    (c.setIndex thread (StoredOrder.added (c.index thread) entries)).view other
      = (c.view other).setScore thread
          (((c.view other).score thread).or (entryScore entries other)) := by
  rw [view_setIndex, StoredOrder.score?_added h]
  rfl

theorem view_removed {thread : String} (ids : List String) (other : String) :
    (c.setIndex thread (StoredOrder.removed (c.index thread) ids)).view other
      = if other ∈ ids then (c.view other).setScore thread none else c.view other := by
  rw [view_setIndex, StoredOrder.score?_removed]
  split
  · rfl
  · rw [← score_view, View.setScore_self]

/-! ## Changes of some messages only -/

/--
Contents that differ in the views of some messages only. The threads that there are stay the same,
and orders that could be read, or were in order, or belonged to no thread, stay so. The order of what
is no thread lists nothing new.
-/
structure Within (names : String → Prop) (c c' : Contents) : Prop where
  threads : c'.HasThread = c.HasThread
  view : ∀ id, ¬ names id → c'.view id = c.view id
  readable : ∀ thread, StoredOrder.Readable (c.index thread) →
    StoredOrder.Readable (c'.index thread)
  sorted : ∀ thread, StoredOrder.Sorted (c.index thread) → StoredOrder.Sorted (c'.index thread)
  absent : ∀ thread, ¬ c.HasThread thread → c.index thread = none → c'.index thread = none
  lists : ∀ thread id, ¬ c.HasThread thread → c'.Lists thread id → c.Lists thread id

theorem Within.refl (names : String → Prop) (c : Contents) : Within names c c :=
  ⟨rfl, fun _ _ => rfl, fun _ h => h, fun _ h => h, fun _ _ h => h, fun _ _ _ h => h⟩

theorem Within.trans (h : Within names c c') (h' : Within names c' c'') : Within names c c'' where
  threads := h'.threads.trans h.threads
  view id hid := (h'.view id hid).trans (h.view id hid)
  readable thread hr := h'.readable thread (h.readable thread hr)
  sorted thread hs := h'.sorted thread (h.sorted thread hs)
  absent thread ht hi := h'.absent thread (by rw [h.threads]; exact ht) (h.absent thread ht hi)
  lists thread id ht hl := h.lists thread id ht (h'.lists thread id (by rw [h.threads]; exact ht) hl)

/-- Messages aside are in the threads in which they were. -/
theorem Within.holds_iff (h : Within names c c') {id : String} (aside : ¬ names id)
    (thread : String) : c'.Holds thread id ↔ c.Holds thread id := by
  rw [Holds, ← record_view, h.view id aside, record_view, Holds]

theorem Within.mono (h : Within names c c') (hn : ∀ id, names id → names' id) :
    Within names' c c' :=
  { h with view := fun id hid => h.view id fun hid' => hid (hn id hid') }

theorem within_setRecord {thread id : String} (hid : names id) (v : Option Json) :
    Within names c (c.setRecord thread id v) where
  threads := rfl
  view other ho := by
    rw [view_setRecord, if_neg]
    rintro rfl
    exact ho hid
  readable _ h := h
  sorted _ h := h
  absent _ _ h := h
  lists _ _ _ h := h

theorem within_setPointer {id : String} (hid : names id) (v : Option Json) :
    Within names c (c.setPointer id v) where
  threads := rfl
  view other ho := by
    rw [view_setPointer, if_neg]
    rintro rfl
    exact ho hid
  readable _ h := h
  sorted _ h := h
  absent _ _ h := h
  lists _ _ _ h := h

theorem within_added {thread : String} (ht : c.HasThread thread)
    (h : StoredOrder.Readable (c.index thread)) {entries : List OrderEntry}
    (hn : ∀ e ∈ entries, names e.id) :
    Within names c (c.setIndex thread (StoredOrder.added (c.index thread) entries)) where
  threads := rfl
  view other ho := by
    rw [view_added h, entryScore, List.find?_eq_none.mpr, Option.map_none, Option.or_none,
      View.setScore_self]
    intro e he hid
    have hid : e.id = other := of_decide_eq_true hid
    exact ho (hid ▸ hn e he)
  readable other hr := by
    rw [index_setIndex]
    split
    · exact StoredOrder.readable_changed h
    · exact hr
  sorted other hs := by
    rw [index_setIndex]
    split
    · next e => exact StoredOrder.sorted_added (e ▸ hs) entries
    · exact hs
  absent other hno hnone := by
    rw [index_setIndex, if_neg]
    · exact hnone
    · rintro rfl
      exact hno ht
  lists other id hno hl := by
    rw [Lists, index_setIndex, if_neg] at hl
    · exact hl
    · rintro rfl
      exact hno ht

theorem within_removed {thread : String} {ids : List String} (hn : ∀ id ∈ ids, names id) :
    Within names c (c.setIndex thread (StoredOrder.removed (c.index thread) ids)) where
  threads := rfl
  view other ho := by
    rw [view_removed, if_neg]
    exact fun h => ho (hn other h)
  readable other hr := by
    rw [index_setIndex]
    split
    · next e => exact StoredOrder.readable_changed (e ▸ hr)
    · exact hr
  sorted other hs := by
    rw [index_setIndex]
    split
    · next e => exact StoredOrder.sorted_removed (e ▸ hs) ids
    · exact hs
  absent other _ hnone := by
    rw [index_setIndex]
    split
    · next e =>
      rw [← e, hnone]
      rfl
    · exact hnone
  lists other id _ hl := by
    rw [Lists, index_setIndex] at hl
    split at hl
    · next e => exact e ▸ (StoredOrder.lists_removed.mp hl).1
    · exact hl

theorem hasThread_setThread {thread : String} (there : c.thread thread ≠ none) (v : Json) :
    (c.setThread thread (some v)).HasThread = c.HasThread := by
  funext other
  rw [HasThread, HasThread, thread_setThread]
  by_cases h : other = thread
  · subst h
    simp [there]
  · rw [if_neg h]

theorem within_setThread {thread : String} (ht : c.HasThread thread) (v : Json) :
    Within names c (c.setThread thread (some v)) where
  threads := hasThread_setThread ht.2 v
  view _ _ := rfl
  readable _ h := h
  sorted _ h := h
  absent _ _ h := h
  lists _ _ _ h := h

end Contents

end ChatMemory
