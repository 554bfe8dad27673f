import ChatMemory.Proofs.Parts

/-!
# Finding many messages

A search for many messages asks the pointers first and then goes through the listings of the threads
once. It finds for each of its messages the thread that a search for that message alone would find.

The messages that are still missing are in no pointer that counts (`Located.Tidy` keeps them apart
from those that are found), and each goes to the first listing that has it.

## Main statements

* `Located.lookup_settleAll` — what the listings say of a message.
* `ends_locateMany` — the search.
* `ends_listMessagesById` — the answer for a single message.
-/

namespace ChatMemory

namespace Store

namespace Located

/-! ## Filing messages -/

/-- Nothing is missing twice, and no message that is missing is found. -/
structure Tidy (l : Located) : Prop where
  nodup : l.missing.Nodup
  apart : ∀ id ∈ l.missing, IsMessage id → l.found.lookup id = none

variable {l : Located} {id thread message : String}

theorem lookup_settle (l : Located) (message thread id : String) :
    (l.settle message thread).found.lookup id
      = if id = message then some thread else l.found.lookup id :=
  Pairs.lookup_assign message id thread l.found

theorem mem_missing_miss : id ∈ (l.miss message).missing ↔ id ∈ l.missing ∨ id = message := by
  unfold miss
  split
  · next h =>
    have h : message ∈ l.missing := by simpa using h
    refine ⟨Or.inl, ?_⟩
    rintro (hid | rfl)
    · exact hid
    · exact h
  · simp

theorem lookup_miss : (l.miss message).found.lookup id = l.found.lookup id := by
  unfold miss
  split <;> rfl

theorem Tidy.settle (h : l.Tidy) (hno : IsMessage message → message ∉ l.missing) :
    (l.settle message thread).Tidy where
  nodup := h.nodup
  apart id hid hi := by
    have hne : id ≠ message := by
      rintro rfl
      exact hno hi hid
    rw [lookup_settle, if_neg hne]
    exact h.apart id hid hi

theorem Tidy.miss (h : l.Tidy) (hno : l.found.lookup message = none) : (l.miss message).Tidy where
  nodup := by
    unfold Located.miss
    split
    · exact h.nodup
    · next hm =>
      have hm : message ∉ l.missing := by simpa using hm
      refine List.nodup_append.mpr ⟨h.nodup, by simp, ?_⟩
      rintro a ha b hb rfl
      exact hm (List.mem_singleton.mp hb ▸ ha)
  apart id hid hi := by
    rw [lookup_miss]
    rcases mem_missing_miss.mp hid with hid | rfl
    · exact h.apart id hid hi
    · exact hno

/-- What the listing of one thread says of a message. -/
theorem settleListed_spec (thread : String) : ∀ (messages : List String) {l : Located}, l.Tidy →
    (l.settleListed thread messages).Tidy ∧ ∀ id,
      (id ∈ (l.settleListed thread messages).missing ↔ id ∈ l.missing ∧ id ∉ messages) ∧
      (l.settleListed thread messages).found.lookup id
        = if id ∈ l.missing ∧ id ∈ messages then some thread else l.found.lookup id
  | [], l, h => ⟨h, fun id => by simp [settleListed]⟩
  | message :: rest, l, h => by
    rw [settleListed]
    split
    · next hm =>
      have hm : message ∈ l.missing := by simpa using hm
      have erased : ∀ id, id ∈ l.missing.erase message ↔ id ≠ message ∧ id ∈ l.missing :=
        fun id => h.nodup.mem_erase_iff
      have tidy : ({ l with missing := l.missing.erase message }.settle message thread).Tidy := by
        refine Tidy.settle ⟨h.nodup.erase message, fun id hid => ?_⟩ fun _ hid => ?_
        · exact h.apart id ((erased id).mp hid).2
        · exact ((erased message).mp hid).1 rfl
      obtain ⟨tidy', spec⟩ := settleListed_spec thread rest tidy
      refine ⟨tidy', fun id => ?_⟩
      obtain ⟨missing, found⟩ := spec id
      have missing' : id ∈ ({ l with missing := l.missing.erase message }.settle message
          thread).missing ↔ id ≠ message ∧ id ∈ l.missing := erased id
      simp only [missing, found, missing', lookup_settle]
      by_cases e : id = message
      · subst e
        simp [hm]
      · simp [e]
    · next hm =>
      have hm : message ∉ l.missing := by simpa using hm
      obtain ⟨tidy, spec⟩ := settleListed_spec thread rest h
      refine ⟨tidy, fun id => ?_⟩
      obtain ⟨missing, found⟩ := spec id
      rw [missing, found]
      by_cases e : id = message
      · subst e
        simp [hm]
      · simp [e]

/-- What the listings say of a message: it is in the first thread whose listing has it. -/
theorem lookup_settleAll (hi : IsMessage id) : ∀ {listings : List (String × List String)} {l : Located},
    l.Tidy → (l.settleAll listings).found.lookup id
      = if id ∈ l.missing then (listings.find? (id ∈ ·.2)).map (·.1) else l.found.lookup id
  | [], l, h => by
    rw [settleAll]
    split
    · next hm => exact h.apart id hm hi
    · rfl
  | (thread, messages) :: rest, l, h => by
    obtain ⟨tidy, spec⟩ := settleListed_spec thread messages h
    obtain ⟨missing, found⟩ := spec id
    rw [settleAll, lookup_settleAll hi tidy]
    by_cases hm : id ∈ l.missing
    · by_cases hl : id ∈ messages
      · rw [if_neg fun hid => (missing.mp hid).2 hl, found, if_pos ⟨hm, hl⟩, if_pos hm,
          List.find?_cons_of_pos (by simpa using hl)]
        rfl
      · rw [if_pos (missing.mpr ⟨hm, hl⟩), if_pos hm, List.find?_cons_of_neg (by simpa using hl)]
    · rw [if_neg fun hid => hm (missing.mp hid).1, found, if_neg fun hid => hm hid.1, if_neg hm]

end Located

open Action Contents

variable {s : Store} {faults : Faults} {c : Contents} {id thread : String}

/-! ## Pointers -/

/-- The pointers of some messages. -/
theorem ends_locateByPointer : ∀ {ids : List String} {l : Located} {c : Contents},
    l.Tidy → (∀ id ∈ l.missing, IsMessage id → ∀ thread,
      ¬ (c.view id).Pointed s.config.trackMessageThreads thread) →
    Ends s.keys faults (s.locateByPointer l ids) c
      (fun l' c' => c' = c ∧ l'.Tidy ∧ ∀ id, IsMessage id →
        (id ∈ l'.missing ↔ id ∈ l.missing ∨ id ∈ ids ∧ l.found.lookup id = none ∧
          ∀ thread, ¬ (c.view id).Pointed s.config.trackMessageThreads thread) ∧
        ∀ thread, l'.found.lookup id = some thread ↔ l.found.lookup id = some thread ∨
          id ∈ ids ∧ l.found.lookup id = none ∧
            (c.view id).Pointed s.config.trackMessageThreads thread)
      (fun _ c' => c' = c ∧ faults.Active)
  | [], l, c, h, _ => ends_pure ⟨rfl, h, by simp⟩
  | message :: rest, l, c, h, unpointed => by
    refine ends_ite (fun hf => ?_) fun hf => ?_
    · refine (ends_locateByPointer h unpointed).mono (fun l' c' hc => ?_) fun _ _ h => h
      obtain ⟨rfl, tidy, spec⟩ := hc
      refine ⟨rfl, tidy, fun id hi => ?_⟩
      have skipped : id = message → l.found.lookup id ≠ none := by
        rintro rfl
        exact Option.isSome_iff_ne_none.mp hf
      have among : id ∈ message :: rest ∧ l.found.lookup id = none ↔
          id ∈ rest ∧ l.found.lookup id = none := by
        rw [List.mem_cons]
        exact ⟨fun ⟨hm, hn⟩ => ⟨hm.resolve_left fun e => skipped e hn, hn⟩, fun ⟨hm, hn⟩ => ⟨Or.inr hm, hn⟩⟩
      obtain ⟨missing, found⟩ := spec id hi
      refine ⟨by rw [missing, ← and_assoc, ← among, and_assoc], fun thread => ?_⟩
      rw [found, ← and_assoc, ← among, and_assoc]
    have hno : l.found.lookup message = none := Option.not_isSome_iff_eq_none.mp hf
    refine (ends_verifiedPointer message).andThen (fun _ _ h => h) fun named c' hc => ?_
    obtain ⟨rfl, hn⟩ := hc
    cases named with
    | some named =>
      have apart : IsMessage message → message ∉ l.missing := fun hi hm =>
        unpointed message hm hi named ((hn hi named).mp rfl)
      refine (ends_locateByPointer (h.settle apart) unpointed).mono (fun l' c' hc => ?_)
        fun _ _ h => h
      obtain ⟨rfl, tidy, spec⟩ := hc
      refine ⟨rfl, tidy, fun id hi => ?_⟩
      obtain ⟨missing, found⟩ := spec id hi
      simp only [missing, found, Located.lookup_settle]
      by_cases e : id = message
      · subst e
        simp [Located.settle, hno, ← hn hi]
      · simp [e, Located.settle]
    | none =>
      have unpointed' : IsMessage message → ∀ thread,
          ¬ (c'.view message).Pointed s.config.trackMessageThreads thread :=
        fun hi thread ht => absurd ((hn hi thread).mpr ht) (by simp)
      refine (ends_locateByPointer (h.miss hno) fun id hid => ?_).mono (fun l' c' hc => ?_)
        fun _ _ h => h
      · rcases Located.mem_missing_miss.mp hid with hid | rfl
        · exact unpointed id hid
        · exact unpointed'
      obtain ⟨rfl, tidy, spec⟩ := hc
      refine ⟨rfl, tidy, fun id hi => ?_⟩
      obtain ⟨missing, found⟩ := spec id hi
      simp only [missing, found, Located.lookup_miss, Located.mem_missing_miss]
      by_cases e : id = message
      · subst e
        simp [hno, unpointed' hi]
      · simp [e]

/-! ## Listings -/

/-- The listings of some threads. -/
theorem ends_listings (threads : List String) : Ends s.keys faults
    (Action.each (fun thread => do return (thread, ← s.messageIds thread)) threads) c
      (fun listings c' => c' = c ∧ listings.map (·.1) = threads ∧
        ∀ e ∈ listings, ∀ id, id ∈ e.2 ↔ IsMessage id ∧ c.Holds e.1 id)
      (fun _ c' => c' = c ∧ faults.Active) := by
  have start : c = c ∧ ([] : List (String × List String)).map (·.1) ++ threads = threads ∧
      ∀ e ∈ ([] : List (String × List String)), ∀ id, id ∈ e.2 ↔ IsMessage id ∧ c.Holds e.1 id :=
    ⟨rfl, rfl, by simp⟩
  refine (Ends.each (I := fun rest (earlier : List (String × List String)) c' => c' = c ∧
    earlier.map (·.1) ++ rest = threads ∧
      ∀ e ∈ earlier, ∀ id, id ∈ e.2 ↔ IsMessage id ∧ c.Holds e.1 id) ?_ start).mono
    (fun listings c' hc => ?_) fun _ _ h => h
  · rintro thread rest earlier c' ⟨rfl, heads, spec⟩
    refine (ends_messageIds thread).andThen (fun _ _ h => h) fun ids c' hc => ?_
    obtain ⟨rfl, _, hids⟩ := hc
    refine ends_pure ⟨rfl, by simpa using heads, fun e he => ?_⟩
    rcases List.mem_append.mp he with he | he
    · exact spec e he
    · obtain rfl := List.mem_singleton.mp he
      exact hids
  · obtain ⟨rfl, heads, spec⟩ := hc
    exact ⟨rfl, by simpa using heads, spec⟩

/-- The first listing that has a message is that of the first thread that holds it. -/
theorem find_listing {listings : List (String × List String)} (hi : IsMessage id)
    (sorted : (listings.map (·.1)).Pairwise (· < ·))
    (heads : ∀ thread, thread ∈ listings.map (·.1) ↔ c.HasThread thread)
    (spec : ∀ e ∈ listings, ∀ id, id ∈ e.2 ↔ IsMessage id ∧ c.Holds e.1 id) :
    (listings.find? (id ∈ ·.2)).map (·.1) = some thread ↔ (c.view id).First c.HasThread thread := by
  have listed : ∀ other, c.HasThread other → c.Holds other id → ∃ e ∈ listings, e.1 = other ∧ id ∈ e.2 := by
    intro other ht hh
    obtain ⟨e, he, rfl⟩ := List.mem_map.mp ((heads other).mpr ht)
    exact ⟨e, he, rfl, (spec e he id).mpr ⟨hi, hh⟩⟩
  have first : ∀ e, listings.find? (id ∈ ·.2) = some e → (c.view id).First c.HasThread e.1 := by
    intro e hf
    have he := List.mem_of_find?_eq_some hf
    have hid : id ∈ e.2 := by simpa using List.find?_some hf
    refine ⟨(heads e.1).mp (List.mem_map_of_mem he), ((spec e he id).mp hid).2, fun other ht hh => ?_⟩
    obtain ⟨e', he', rfl, hid'⟩ := listed other ht hh
    -- The listings in front of the one that is found do not have the message.
    obtain ⟨_, before, after, rfl, none⟩ := List.find?_eq_some_iff_append.mp hf
    rw [List.map_append, List.map_cons] at sorted
    rcases List.mem_append.mp he' with he' | he'
    · exact absurd hid' (by simpa using none e' he')
    · rcases List.mem_cons.mp he' with rfl | he'
      · exact String.le_refl _
      · have later := (List.pairwise_cons.mp (List.pairwise_append.mp sorted).2.1).1
        exact String.lt_asymm (later e'.1 (List.mem_map_of_mem he'))
  constructor
  · intro h
    obtain ⟨e, hf, rfl⟩ := Option.map_eq_some_iff.mp h
    exact first e hf
  · intro h
    obtain ⟨e, he, rfl, hid⟩ := listed thread h.1 h.2.1
    cases hf : listings.find? (id ∈ ·.2) with
    | none => exact absurd hid (by simpa using List.find?_eq_none.mp hf e he)
    | some e' =>
      have h' := first e' hf
      exact congrArg some (String.le_antisymm (h'.2.2 _ h.1 h.2.1) (h.2.2 _ h'.1 h'.2.1))

/-! ## The search -/

/-- A search for many messages finds each where a search for it alone would. -/
theorem ends_locateMany (ids : List String) : Ends s.keys faults (s.locateMany ids) c
    (fun found c' => c' = c ∧ ∀ id, IsMessage id → ∀ thread, found.lookup id = some thread ↔
      id ∈ ids ∧ (c.view id).Finds s.config.trackMessageThreads c.HasThread thread)
    (fun _ c' => c' = c ∧ faults.Active) := by
  refine (ends_locateByPointer ⟨List.nodup_nil, by simp⟩ (by simp)).andThen (fun _ _ h => h)
    fun l c' hc => ?_
  obtain ⟨rfl, tidy, spec⟩ := hc
  have pointed : ∀ id, IsMessage id → ∀ thread, l.found.lookup id = some thread ↔
      id ∈ ids ∧ (c'.view id).Pointed s.config.trackMessageThreads thread := by
    intro id hi thread
    rw [(spec id hi).2 thread]
    simp
  have missing : ∀ id, IsMessage id → (id ∈ l.missing ↔ id ∈ ids ∧
      ∀ thread, ¬ (c'.view id).Pointed s.config.trackMessageThreads thread) := by
    intro id hi
    rw [(spec id hi).1]
    simp
  refine ends_ite (fun he => ends_pure ⟨rfl, fun id hi thread => ?_⟩) fun _ => ?_
  · rw [pointed id hi]
    refine and_congr_right fun hid => ⟨Or.inl, fun h => h.resolve_right fun h => ?_⟩
    exact absurd ((missing id hi).mpr ⟨hid, h.1⟩)
      (by rw [List.isEmpty_iff.mp he]; exact List.not_mem_nil)
  refine ends_threadIds.andThen (fun _ _ h => h) fun threads c' hc => ?_
  obtain ⟨rfl, sorted, hthreads⟩ := hc
  refine (ends_listings threads).andThen (fun _ _ h => h) fun listings c' hc => ?_
  obtain ⟨rfl, rfl, listed⟩ := hc
  refine ends_pure ⟨rfl, fun id hi thread => ?_⟩
  rw [Located.lookup_settleAll hi tidy]
  split
  · next hm =>
    obtain ⟨hid, hno⟩ := (missing id hi).mp hm
    rw [find_listing hi sorted hthreads listed]
    exact ⟨fun h => ⟨hid, Or.inr ⟨hno, h⟩⟩, fun h => (h.2.resolve_left (hno thread)).2⟩
  · next hm =>
    rw [pointed id hi]
    refine and_congr_right fun hid => ⟨Or.inl, fun h => h.resolve_right fun h => ?_⟩
    exact hm ((missing id hi).mpr ⟨hid, h.1⟩)

/-! ## A single message -/

theorem ends_skipCorrupt (hi : IsMessage id) (thread : String) :
    Ends s.keys Faults.none (skipCorrupt (s.fetchMessage thread id)) c
      (fun found c' => c' = c ∧ ∀ x, found = some x ↔ (c.view id).IsRecord thread x)
      (fun _ _ => False) := by
  refine Ends.recover ((ends_fetchMessage hi).mono (fun found c' hc => ?_) fun e c' hc => ?_)
  · obtain ⟨rfl, hnone, hsome⟩ := hc
    refine ⟨rfl, fun x => ⟨hsome x, fun hx => ?_⟩⟩
    cases found with
    | none => exact absurd (hnone rfl) hx.holds
    | some y => rw [(hsome y rfl).unique hx]
  · obtain ⟨rfl, ha | ⟨⟨key, cause, rfl⟩, r, cause', hr, damaged⟩⟩ := hc
    · exact absurd ha Faults.not_active_none
    · refine ends_pure ⟨rfl, fun x => ⟨fun h => absurd h (by simp), ?_⟩⟩
      rintro ⟨r', hr', hx⟩
      obtain rfl := Option.some.inj (hr.symm.trans hr')
      exact absurd (damaged.symm.trans hx) (by simp)

/-- The messages of a single id: the one in the thread where a search finds it. -/
theorem ends_listMessagesById (hi : IsMessage id) :
    Ends s.keys Faults.none (s.listMessagesById [id]) c
      (fun ys c' => c' = c ∧ ∀ x, ys = [x] ↔ ∃ thread,
        (c.view id).Finds s.config.trackMessageThreads c.HasThread thread ∧
          (c.view id).IsRecord thread x)
      (fun _ _ => False) := by
  have inactive : ∀ {c' : Contents} {P : Prop}, c' = c ∧ Faults.none.Active → P :=
    fun h => absurd h.2 Faults.not_active_none
  refine Ends.recover (Ends.mono (E := fun _ _ => False) ?_ (fun _ _ h => h) fun _ _ h => h.elim)
  refine (ends_locateMany [id]).andThen (fun _ _ h => inactive h) fun located c' hc => ?_
  obtain ⟨rfl, spec⟩ := hc
  have finds : ∀ thread, located.lookup id = some thread ↔
      (c'.view id).Finds s.config.trackMessageThreads c'.HasThread thread := by
    intro thread
    rw [spec id hi]
    exact ⟨fun h => h.2, fun h => ⟨List.mem_singleton.mpr rfl, h⟩⟩
  have targets : (distinct [id]).filterMap (fun id => (located.lookup id).map fun thread =>
      (thread, id)) = ((located.lookup id).map fun thread => (thread, id)).toList := by
    have once : distinct [id] = [id] := rfl
    rw [once, List.filterMap_cons, List.filterMap_nil]
    cases located.lookup id <;> rfl
  show Ends s.keys Faults.none (do return Sorting.sort olderFirst (← s.fetchMany
    ((distinct [id]).filterMap fun id => (located.lookup id).map fun thread => (thread, id)))) c' _ _
  rw [targets]
  cases hl : located.lookup id with
  | none =>
    refine ends_pure ⟨rfl, fun x => ⟨fun h => absurd h (by simp [Sorting.sort]), ?_⟩⟩
    rintro ⟨thread, hf, _⟩
    exact absurd (hl.symm.trans ((finds thread).mpr hf)) (by simp)
  | some thread =>
    refine Ends.bind (Ends.bind (Ends.bind ?_))
    refine (ends_skipCorrupt hi thread).mono (fun found c'' hc => ?_) fun _ _ h => h
    obtain ⟨rfl, record⟩ := hc
    refine ends_pure (ends_pure (ends_pure ⟨rfl, fun x => ?_⟩))
    have here : ∀ x, (∃ thread, (c''.view id).Finds s.config.trackMessageThreads c''.HasThread thread ∧
        (c''.view id).IsRecord thread x) ↔ found = some x := by
      intro x
      rw [record]
      constructor
      · rintro ⟨other, hf, hx⟩
        obtain rfl := ((finds thread).mp hl).unique hf
        exact hx
      · exact fun hx => ⟨thread, (finds thread).mp hl, hx⟩
    rw [here]
    cases found with
    | none => simp [Sorting.sort]
    | some y => simp [Sorting.sort, Sorting.insert]

end Store

end ChatMemory
