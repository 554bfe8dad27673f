import ChatMemory.Proofs.Orderly

/-!
# Finding messages

What the listings hold, and which thread a search gives for a message. The search is said by the view
of the message: the thread of its pointer counts if it holds the message, and else the first thread
that holds it (`View.Finds`). As long as a message is in one thread only, that is the thread.

## Main statements

* `ends_threadIds`, `ends_messageIds` — the listings.
* `ends_search`, `ends_findMessage` — the search.
* `View.Finds.unique`, `View.finds_of_only` — what is found.
-/

namespace ChatMemory

/-! ## Order of keys -/

namespace Keyspace

theorem thread_lt_iff (s : Keyspace) {a b : String} : s.thread a < s.thread b ↔ a < b := by
  have shape : ∀ id, (s.thread id).toList = (s.ns.toList ++ Table.threads.name.toList ++ [':'])
      ++ id.toList := fun id => by simp [thread, key_single]
  rw [String.lt_iff, String.lt_iff, shape, shape, Text.append_lt_append_iff Char.lt_irrefl]

theorem message_lt_iff (s : Keyspace) (thread : String) {a b : String} :
    s.message thread a < s.message thread b ↔ a < b := by
  have shape : ∀ id, (s.message thread id).toList
      = (s.ns.toList ++ Table.messages.name.toList ++ (':' :: thread.toList ++ [':']))
        ++ id.toList := fun id => by simp [toList_message]
  rw [String.lt_iff, String.lt_iff, shape, shape, Text.append_lt_append_iff Char.lt_irrefl]

end Keyspace

/-! ## What is found -/

namespace View

variable {tracking : Bool} {has : String → Prop} {w : View} {thread other : String}

/-- The pointer of the message names a thread. -/
def Names (w : View) (thread : String) : Prop := w.pointer = some (.str thread) ∧ thread ≠ ""

/-- The pointer of the message counts: pointers are kept, and the thread holds the message. -/
def Pointed (tracking : Bool) (w : View) (thread : String) : Prop :=
  tracking = true ∧ w.Names thread ∧ w.Holds thread

/-- The first thread that holds the message. -/
def First (has : String → Prop) (w : View) (thread : String) : Prop :=
  has thread ∧ w.Holds thread ∧ ∀ other, has other → w.Holds other → thread ≤ other

/-- The thread that a search gives for the message. -/
def Finds (tracking : Bool) (has : String → Prop) (w : View) (thread : String) : Prop :=
  w.Pointed tracking thread ∨ (∀ other, ¬ w.Pointed tracking other) ∧ w.First has thread

theorem Names.unique (h : w.Names thread) (h' : w.Names other) : thread = other := by
  have := h.1.symm.trans h'.1
  simpa using this

theorem Finds.holds (h : w.Finds tracking has thread) : w.Holds thread := by
  rcases h with h | ⟨_, h⟩
  · exact h.2.2
  · exact h.2.1

theorem Finds.unique (h : w.Finds tracking has thread) (h' : w.Finds tracking has other) :
    thread = other := by
  rcases h with h | ⟨hno, h⟩ <;> rcases h' with h' | ⟨hno', h'⟩
  · exact h.2.1.unique h'.2.1
  · exact absurd h (hno' thread)
  · exact absurd h' (hno other)
  · exact String.le_antisymm (h.2.2 other h'.1 h'.2.1) (h'.2.2 thread h.1 h.2.1)

/-- Without pointers a thread is not found if an earlier one has the message. -/
theorem not_finds_of_lt (ht : has thread) (hh : w.Holds thread) (hlt : thread < other) :
    ¬ w.Finds false has other := by
  rintro (⟨tracking, _⟩ | ⟨_, first⟩)
  · exact absurd tracking (by simp)
  · exact absurd hlt (String.not_lt.mpr (first.2.2 thread ht hh))

/-- A message that is in one thread only is found there. -/
theorem finds_of_only (ht : has thread) (hh : w.Holds thread)
    (only : ∀ other, w.Holds other → other = thread) : w.Finds tracking has thread := by
  by_cases h : w.Pointed tracking thread
  · exact Or.inl h
  · refine Or.inr ⟨fun other h' => h (only other h'.2.2 ▸ h'), ht, hh, fun other _ h' => ?_⟩
    obtain rfl := only other h'
    exact String.le_refl other

end View

namespace Store

open Action Contents

variable {s : Store} {faults : Faults} {c : Contents}

/-! ## Listings -/

theorem ends_threadIds : Ends s.keys faults s.threadIds c
    (fun ids c' => c' = c ∧ ids.Pairwise (· < ·) ∧ ∀ id, id ∈ ids ↔ c.HasThread id)
    (fun _ c' => c' = c ∧ faults.Active) := by
  refine Ends.bind (ends_list (fun t ht => ?_) fun ha _ => ⟨rfl, ha⟩)
  subst ht
  refine ends_pure ⟨rfl, ?_, fun id => ?_⟩
  · refine ((t.rows .threads).pairwise_keysFrom _).filterMap _ fun a a' hlt b hb b' hb' => ?_
    obtain ⟨rfl, _⟩ := Keyspace.threadId?_eq_some_iff.mp hb
    obtain ⟨rfl, _⟩ := Keyspace.threadId?_eq_some_iff.mp hb'
    exact s.keys.thread_lt_iff.mp hlt
  · rw [List.mem_filterMap]
    constructor
    · rintro ⟨key, hkey, hid⟩
      obtain ⟨rfl, hne⟩ := Keyspace.threadId?_eq_some_iff.mp hid
      exact ⟨hne, Option.isSome_iff_ne_none.mp (Rows.mem_keysFrom.mp hkey).1⟩
    · rintro ⟨hne, hthread⟩
      refine ⟨s.keys.thread id, Rows.mem_keysFrom.mpr ⟨?_, s.keys.begins_threadsStart id⟩,
        Keyspace.threadId?_eq_some_iff.mpr ⟨rfl, hne⟩⟩
      exact Option.isSome_iff_ne_none.mpr hthread

theorem ends_messageIds (thread : String) : Ends s.keys faults (s.messageIds thread) c
    (fun ids c' => c' = c ∧ ids.Pairwise (· < ·) ∧
      ∀ id, id ∈ ids ↔ IsMessage id ∧ c.Holds thread id)
    (fun _ c' => c' = c ∧ faults.Active) := by
  refine Ends.bind (ends_list (fun t ht => ?_) fun ha _ => ⟨rfl, ha⟩)
  subst ht
  refine ends_pure ⟨rfl, ?_, fun id => ?_⟩
  · refine ((t.rows .messages).pairwise_keysFrom _).filterMap _ fun a a' hlt b hb b' hb' => ?_
    obtain ⟨rfl, _⟩ := Keyspace.messageId?_eq_some_iff.mp hb
    obtain ⟨rfl, _⟩ := Keyspace.messageId?_eq_some_iff.mp hb'
    exact (s.keys.message_lt_iff thread).mp hlt
  · have stored : ∀ hi : IsMessage id, (s.keys.contents t).Holds thread id ↔
        t.get? .messages (s.keys.message thread id) ≠ none := fun hi => by
      rw [Holds, record_contents hi]
    rw [List.mem_filterMap]
    constructor
    · rintro ⟨key, hkey, hid⟩
      obtain ⟨rfl, hi⟩ := Keyspace.messageId?_eq_some_iff.mp hid
      exact ⟨hi, (stored hi).mpr (Option.isSome_iff_ne_none.mp (Rows.mem_keysFrom.mp hkey).1)⟩
    · rintro ⟨hi, hh⟩
      refine ⟨s.keys.message thread id,
        Rows.mem_keysFrom.mpr ⟨?_, s.keys.begins_messagesStart thread id⟩,
        Keyspace.messageId?_eq_some_iff.mpr ⟨rfl, hi⟩⟩
      exact Option.isSome_iff_ne_none.mpr ((stored hi).mp hh)

/-! ## Holders -/

theorem ends_holds {thread id : String} : Ends s.keys faults (s.holds thread id) c
    (fun found c' => c' = c ∧ (IsMessage id → (found = true ↔ c.Holds thread id)))
    (fun _ c' => c' = c ∧ faults.Active) := by
  refine Ends.bind (ends_ask (fun t ht => ?_) fun ha _ => ⟨rfl, ha⟩)
  refine ends_pure ⟨ht, fun hi => ?_⟩
  rw [← ht, Holds, record_contents hi]
  exact Option.isSome_iff_ne_none

theorem ends_firstHolder {id : String} (hi : IsMessage id) :
    ∀ {threads : List String} {c : Contents}, threads.Pairwise (· < ·) →
      Ends s.keys faults (s.firstHolder id threads) c
      (fun found c' => c' = c ∧
        (found = none → ∀ thread ∈ threads, ¬ c.Holds thread id) ∧
        ∀ thread, found = some thread → thread ∈ threads ∧ c.Holds thread id ∧
          ∀ other ∈ threads, c.Holds other id → thread ≤ other)
      (fun _ c' => c' = c ∧ faults.Active)
  | [], _, _ => ends_pure ⟨rfl, by simp, by simp⟩
  | thread :: rest, _, sorted => by
    obtain ⟨hlt, sorted⟩ := List.pairwise_cons.mp sorted
    refine ends_holds.andThen (fun _ _ h => h) fun found c' => ?_
    rintro ⟨rfl, hf⟩
    have hf := hf hi
    cases found with
    | true =>
      refine ends_pure ⟨rfl, by simp, fun t ht => ?_⟩
      obtain rfl := Option.some.inj ht
      refine ⟨List.mem_cons_self, hf.mp rfl, fun other ho _ => ?_⟩
      rcases List.mem_cons.mp ho with rfl | ho
      · exact String.le_refl _
      · exact String.lt_asymm (hlt other ho)
    | false =>
      have here : ¬ c'.Holds thread id := fun h => absurd (hf.mpr h) (by simp)
      refine (ends_firstHolder hi sorted).mono (fun found c'' => ?_) fun _ _ h => h
      rintro ⟨rfl, hnone, hsome⟩
      refine ⟨rfl, fun h t ht => ?_, fun t ht => ?_⟩
      · rcases List.mem_cons.mp ht with rfl | ht
        · exact here
        · exact hnone h t ht
      · obtain ⟨hm, hh, hle⟩ := hsome t ht
        refine ⟨List.mem_cons_of_mem _ hm, hh, fun other ho ho' => ?_⟩
        rcases List.mem_cons.mp ho with rfl | ho
        · exact absurd ho' here
        · exact hle other ho ho'

theorem ends_holdersAmong {id : String} (hi : IsMessage id) :
    ∀ (threads : List String) {c : Contents}, Ends s.keys faults (s.holdersAmong id threads) c
      (fun found c' => c' = c ∧ ∀ thread, thread ∈ found ↔ thread ∈ threads ∧ c.Holds thread id)
      (fun _ c' => c' = c ∧ faults.Active)
  | [], _ => ends_pure ⟨rfl, by simp⟩
  | thread :: rest, _ => by
    refine ends_holds.andThen (fun _ _ h => h) fun found c' => ?_
    rintro ⟨rfl, hf⟩
    have hf := hf hi
    refine (ends_holdersAmong hi rest).andThen (fun _ _ h => h) fun others c'' => ?_
    rintro ⟨rfl, ho⟩
    refine ends_pure ⟨rfl, fun t => ?_⟩
    cases found with
    | true =>
      have here := hf.mp rfl
      simp only [if_true, List.mem_cons, ho]
      constructor
      · rintro (rfl | h)
        · exact ⟨Or.inl rfl, here⟩
        · exact ⟨Or.inr h.1, h.2⟩
      · rintro ⟨rfl | h, hh⟩
        · exact Or.inl rfl
        · exact Or.inr ⟨h, hh⟩
    | false =>
      have here : ¬ c''.Holds thread id := fun h => absurd (hf.mpr h) (by simp)
      simp only [Bool.false_eq_true, if_false, List.mem_cons, ho]
      constructor
      · exact fun h => ⟨Or.inr h.1, h.2⟩
      · rintro ⟨rfl | h, hh⟩
        · exact absurd hh here
        · exact ⟨h, hh⟩

theorem ends_otherHolders {thread id : String} (hi : IsMessage id) :
    Ends s.keys faults (s.otherHolders id thread) c
      (fun found c' => c' = c ∧ ∀ other, other ∈ found ↔
        c.HasThread other ∧ other ≠ thread ∧ c.Holds other id)
      (fun _ c' => c' = c ∧ faults.Active) := by
  refine ends_threadIds.andThen (fun _ _ h => h) fun threads c' => ?_
  rintro ⟨rfl, _, hids⟩
  refine (ends_holdersAmong hi _).mono (fun found c'' => ?_) fun _ _ h => h
  rintro ⟨rfl, hf⟩
  refine ⟨rfl, fun other => ?_⟩
  rw [hf, List.mem_filter, hids, decide_eq_true_iff, and_assoc]

/-! ## Pointers -/

theorem names_iff {id thread : String} : ((c.pointer id).bind Json.asText?).filter (· ≠ "")
    = some thread ↔ (c.view id).Names thread := by
  rw [Option.filter_eq_some_iff, View.Names, pointer_view]
  cases h : c.pointer id with
  | none => simp
  | some v => cases v <;> simp [Json.asText?]

theorem ends_pointer (id : String) : Ends s.keys faults (s.pointer id) c
    (fun named c' => c' = c ∧ ∀ thread, named = some thread ↔ (c.view id).Names thread)
    (fun _ c' => c' = c ∧ faults.Active) :=
  Ends.bind (ends_getPointer (ends_pure ⟨rfl, fun _ => names_iff⟩) fun ha _ => ⟨rfl, ha⟩)

theorem ends_verifiedPointer (id : String) :
    Ends s.keys faults (s.verifiedPointer id) c
      (fun named c' => c' = c ∧ (IsMessage id → ∀ thread, named = some thread ↔
        (c.view id).Pointed s.config.trackMessageThreads thread))
      (fun _ c' => c' = c ∧ faults.Active) := by
  unfold verifiedPointer
  split
  · next tracking =>
    refine (ends_pointer id).andThen (fun _ _ h => h) fun named c' => ?_
    rintro ⟨rfl, hn⟩
    cases named with
    | none =>
      refine ends_pure ⟨rfl, fun _ thread => ?_⟩
      have : ¬ (c'.view id).Names thread := fun h => absurd ((hn thread).mpr h) (by simp)
      simp [View.Pointed, this]
    | some named =>
      have hn := (hn named).mp rfl
      refine ends_holds.andThen (fun _ _ h => h) fun found c'' => ?_
      rintro ⟨rfl, hf⟩
      have pointed : IsMessage id → ∀ thread,
          (c''.view id).Pointed s.config.trackMessageThreads thread ↔
            thread = named ∧ found = true := fun hi thread => by
        constructor
        · rintro ⟨_, hnames, hh⟩
          obtain rfl := hnames.unique hn
          exact ⟨rfl, (hf hi).mpr hh⟩
        · rintro ⟨rfl, hfound⟩
          exact ⟨tracking, hn, (hf hi).mp hfound⟩
      cases found with
      | true => exact ends_pure ⟨rfl, fun hi thread => by simp [pointed hi, eq_comm]⟩
      | false => exact ends_pure ⟨rfl, fun hi thread => by simp [pointed hi]⟩
  · next tracking =>
    exact ends_pure ⟨rfl, fun _ thread => by simp [View.Pointed, tracking]⟩

/-! ## Search -/

/-- What a search gives, whatever the contents are. -/
theorem ends_search {id : String} (hi : IsMessage id) : Ends s.keys faults (s.findMessage id) c
    (fun found c' => c' = c ∧
      (found = none → ∀ thread, c.HasThread thread → ¬ c.Holds thread id) ∧
      ∀ thread, found = some thread ↔
        (c.view id).Finds s.config.trackMessageThreads c.HasThread thread)
    (fun _ c' => c' = c ∧ faults.Active) := by
  refine (ends_verifiedPointer id).andThen (fun _ _ h => h) fun named c' => ?_
  rintro ⟨rfl, hn⟩
  have hn := hn hi
  cases named with
  | some named =>
    have pointed := (hn named).mp rfl
    refine ends_pure ⟨rfl, by simp, fun thread => ⟨fun ht => ?_, fun ht => ?_⟩⟩
    · exact Or.inl ((hn thread).mp ht)
    · exact congrArg some (View.Finds.unique (Or.inl pointed) ht)
  | none =>
    have unpointed : ∀ other, ¬ (c'.view id).Pointed s.config.trackMessageThreads other :=
      fun other ho => absurd ((hn other).mpr ho) (by simp)
    refine ends_threadIds.andThen (fun _ _ h => h) fun threads c'' => ?_
    rintro ⟨rfl, sorted, hids⟩
    refine (ends_firstHolder hi sorted).mono (fun found c' => ?_) fun _ _ h => h
    rintro ⟨rfl, hnone, hsome⟩
    have none_held : found = none → ∀ thread, c'.HasThread thread → ¬ c'.Holds thread id :=
      fun hf thread ht => hnone hf thread ((hids thread).mpr ht)
    have first : ∀ thread, found = some thread →
        (c'.view id).Finds s.config.trackMessageThreads c'.HasThread thread := by
      intro thread ht
      obtain ⟨hm, hh, hle⟩ := hsome thread ht
      refine Or.inr ⟨unpointed, (hids thread).mp hm, hh, fun other ho ho' => ?_⟩
      exact hle other ((hids other).mpr ho) ho'
    refine ⟨rfl, none_held, fun thread => ⟨first thread, fun ht => ?_⟩⟩
    cases hf : found with
    | none =>
      obtain ⟨_, has, hh, _⟩ := ht.resolve_left (unpointed thread)
      exact absurd hh (none_held hf thread has)
    | some other => exact congrArg some ((first other hf).unique ht)

/-- What a search gives for a message that only threads that exist have. -/
theorem ends_findHoused {id : String} (housed : ∀ thread, c.Holds thread id → c.HasThread thread)
    (hi : IsMessage id) : Ends s.keys faults (s.findMessage id) c
      (fun found c' => c' = c ∧ (found = none → ∀ thread, ¬ c.Holds thread id) ∧
        ∀ thread, found = some thread →
          (c.view id).Finds s.config.trackMessageThreads c.HasThread thread)
      (fun _ c' => c' = c ∧ faults.Active) := by
  refine (ends_search hi).mono (fun found c' hc => ?_) fun _ _ h => h
  obtain ⟨rfl, hnone, finds⟩ := hc
  exact ⟨rfl, fun hf thread hh => hnone hf thread (housed thread hh) hh,
    fun thread => (finds thread).mp⟩

/-- What a search gives. -/
theorem ends_findMessage {R : RecordRule} (h : Orderly R c) {id : String} (hi : IsMessage id) :
    Ends s.keys faults (s.findMessage id) c
      (fun found c' => c' = c ∧ (found = none → ∀ thread, ¬ c.Holds thread id) ∧
        ∀ thread, found = some thread →
          (c.view id).Finds s.config.trackMessageThreads c.HasThread thread)
      (fun _ c' => c' = c ∧ faults.Active) :=
  ends_findHoused (fun _ hh => h.hasThread hh) hi

end Store

end ChatMemory
