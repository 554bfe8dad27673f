import ChatMemory.Order.Index

/-!
# Stored orders

The order of a thread as it is stored: a JSON value, or none. What a value lists is said by the
entries that it decodes to. `added` and `removed` are the values that the two changes of an order
leave; where a change finds nothing to do the value stays as it is.

## Main statements

* `ofStored_toJson` — the stored form of an order decodes to its entries.
* `score?_added`, `score?_removed` — what is listed after a change, and with which score.
* `sorted_added`, `sorted_removed` — changes keep the entries in order and each id once.
* `added_added`, `added_comm` — entries that are added in parts, or in another order.
-/

namespace ChatMemory

/-! ## Snapshots -/

namespace OrderSnapshot

@[simp]
theorem contains_iff {o : OrderSnapshot} {id : String} :
    o.contains id = true ↔ ∃ e ∈ o.entries, e.id = id := by
  simp [contains]

@[simp]
theorem contains_ofEntries {entries : List OrderEntry} {id : String} :
    (ofEntries entries).contains id = true ↔ ∃ e ∈ entries, e.id = id := by
  rw [contains_iff, ofEntries]
  simp only [Sorting.mem_sort]
  exact exists_key_distinctBy

/-- An entry of lower score, or of the same score and with a smaller id. -/
def Before (a b : OrderEntry) : Prop :=
  a.score.order < b.score.order ∨ (a.score.order = b.score.order ∧ a.id < b.id)

instance (a b : OrderEntry) : Decidable (Before a b) :=
  inferInstanceAs (Decidable (a.score.order < b.score.order ∨
    (a.score.order = b.score.order ∧ a.id < b.id)))

theorem Before.asymm {a b : OrderEntry} (h : Before a b) : ¬ Before b a := by
  rintro (h' | ⟨e', h'⟩)
  · rcases h with h | ⟨e, _⟩
    · omega
    · omega
  · rcases h with h | ⟨_, h⟩
    · omega
    · exact String.lt_asymm h h'

/-- Entries in strictly increasing order, no id twice. -/
def Tidy (entries : List OrderEntry) : Prop :=
  entries.Pairwise Before ∧ entries.Pairwise (·.id ≠ ·.id)

theorem before_of_precedes {a b : OrderEntry} (h : precedes a b = true) (hne : a.id ≠ b.id) :
    Before a b := by
  rcases Sorting.byRank_iff.mp h with h | ⟨h, hle⟩
  · exact Or.inl h
  · exact Or.inr ⟨h, Std.lt_of_le_of_ne hle hne⟩

/-- Sorting entries with different ids leaves them tidy. -/
theorem tidy_sort {entries : List OrderEntry} (h : entries.Pairwise (·.id ≠ ·.id)) :
    Tidy (Sorting.sort precedes entries) := by
  have distinct : (Sorting.sort precedes entries).Pairwise (·.id ≠ ·.id) :=
    (Sorting.sort_perm precedes entries).symm.pairwise h fun h => Ne.symm h
  refine ⟨?_, distinct⟩
  have sorted := Sorting.pairwise_sort (Sorting.byRank_trans (·.score.order) OrderEntry.id)
    (Sorting.byRank_total (·.score.order) OrderEntry.id) entries
  exact (sorted.and distinct).imp fun ⟨h₁, h₂⟩ => before_of_precedes h₁ h₂

theorem tidy_ofEntries (entries : List OrderEntry) : Tidy (ofEntries entries).entries :=
  tidy_sort (pairwise_distinctBy _ entries)

theorem Tidy.filter {entries : List OrderEntry} (h : Tidy entries) (p : OrderEntry → Bool) :
    Tidy (entries.filter p) := ⟨h.1.filter p, h.2.filter p⟩

theorem mem_unknown {o : OrderSnapshot} {entries : List OrderEntry} {id : String} :
    (∃ e ∈ o.unknown entries, e.id = id) ↔ (∃ e ∈ entries, e.id = id) ∧ o.contains id = false := by
  simp only [unknown, List.mem_filter, Bool.not_eq_true']
  constructor
  · rintro ⟨e, ⟨he, hc⟩, rfl⟩
    exact ⟨⟨e, (distinctBy_sublist _ _).subset he, rfl⟩, hc⟩
  · rintro ⟨h, hc⟩
    obtain ⟨e, he, rfl⟩ := exists_key_distinctBy.mpr h
    exact ⟨e, ⟨he, hc⟩, rfl⟩

theorem add?_eq_some {o o' : OrderSnapshot} {entries : List OrderEntry}
    (h : o.add? entries = some o') :
    o'.entries = Sorting.sort precedes (o.entries ++ o.unknown entries) := by
  simp only [add?] at h
  split at h
  · exact absurd h (by simp)
  · rw [← Option.some.inj h]

theorem unknown_of_add?_eq_none {o : OrderSnapshot} {entries : List OrderEntry}
    (h : o.add? entries = none) : o.unknown entries = [] := by
  simp only [add?] at h
  split at h
  · next h' => exact List.isEmpty_iff.mp h'
  · exact absurd h (by simp)

/-- With the entries that it did not know, an order still has no id twice. -/
theorem pairwise_append_unknown {o : OrderSnapshot} (ho : o.entries.Pairwise (·.id ≠ ·.id))
    (entries : List OrderEntry) : (o.entries ++ o.unknown entries).Pairwise (·.id ≠ ·.id) := by
  refine List.pairwise_append.mpr ⟨ho, (pairwise_distinctBy _ _).filter _, ?_⟩
  intro a ha b hb e
  have hc := (List.mem_filter.mp hb).2
  rw [Bool.not_eq_true', ← Bool.not_eq_true, contains_iff] at hc
  exact hc ⟨a, ha, e⟩

theorem tidy_add? {o o' : OrderSnapshot} {entries : List OrderEntry}
    (ho : o.entries.Pairwise (·.id ≠ ·.id)) (h : o.add? entries = some o') : Tidy o'.entries := by
  rw [add?_eq_some h]
  exact tidy_sort (pairwise_append_unknown ho entries)

/-! ### Scores -/

theorem score?_isSome {o : OrderSnapshot} {id : String} :
    (o.score? id).isSome = o.contains id := by
  rw [Bool.eq_iff_iff, contains_iff, score?, Option.isSome_map, List.find?_isSome]
  simp

/-- In a list without repeated ids an entry is found under its id. -/
theorem score?_eq_some_iff {o : OrderSnapshot} (h : o.entries.Pairwise (·.id ≠ ·.id)) {id : String}
    {x : Binary64} : o.score? id = some x ↔ ⟨id, x⟩ ∈ o.entries := by
  rw [score?, Option.map_eq_some_iff]
  constructor
  · rintro ⟨e, he, rfl⟩
    have hid : e.id = id := by simpa using List.find?_some he
    rw [← hid]
    exact List.mem_of_find?_eq_some he
  · intro hm
    refine ⟨⟨id, x⟩, ?_, rfl⟩
    induction hs : o.entries generalizing o with
    | nil => rw [hs] at hm; exact absurd hm List.not_mem_nil
    | cons e es ih =>
      rw [hs] at h hm
      obtain ⟨he, hes⟩ := List.pairwise_cons.mp h
      rcases List.mem_cons.mp hm with rfl | hm
      · exact List.find?_cons_of_pos (by simp)
      · rw [List.find?_cons_of_neg (by simpa using he _ hm)]
        exact ih (o := ⟨es⟩) hes hm rfl

/-- Tidy orders that give every id the same score are the same. -/
theorem eq_of_score? {o o' : OrderSnapshot} (ho : Tidy o.entries) (ho' : Tidy o'.entries)
    (same : ∀ id, o.score? id = o'.score? id) : o = o' := by
  have nodup {o : OrderSnapshot} (ho : Tidy o.entries) : o.entries.Nodup :=
    ho.2.imp fun apart e => apart (congrArg OrderEntry.id e)
  have perm : o.entries.Perm o'.entries := by
    refine (List.perm_ext_iff_of_nodup (nodup ho) (nodup ho')).mpr fun ⟨id, x⟩ => ?_
    rw [← score?_eq_some_iff ho.2, ← score?_eq_some_iff ho'.2, same]
  have entries : o.entries = o'.entries :=
    perm.eq_of_pairwise (fun _ _ _ _ hab hba => absurd hba hab.asymm) ho.1 ho'.1
  exact congrArg mk entries

theorem mem_distinctBy_iff {es : List OrderEntry} {e : OrderEntry} :
    e ∈ distinctBy (·.id) es ↔ es.find? (·.id = e.id) = some e := by
  induction es with
  | nil => simp [distinctBy]
  | cons x xs ih =>
    rw [distinctBy, List.mem_cons, List.mem_filter, ih]
    by_cases h : x.id = e.id
    · rw [List.find?_cons_of_pos (by simpa using h)]
      simp [h, eq_comm]
    · rw [List.find?_cons_of_neg (by simpa using h)]
      have hne : e ≠ x := fun heq => h (by rw [heq])
      have hid : ¬ e.id = x.id := fun heq => h heq.symm
      simp [hne, hid]

theorem map_score_find?_eq_some_iff {es : List OrderEntry} {id : String} {x : Binary64} :
    (es.find? (·.id = id)).map (·.score) = some x ↔ es.find? (·.id = id) = some ⟨id, x⟩ := by
  rw [Option.map_eq_some_iff]
  constructor
  · rintro ⟨e, he, rfl⟩
    have hid : e.id = id := by simpa using List.find?_some he
    rw [he, ← hid]
  · exact fun h => ⟨_, h, rfl⟩

/-- Of repeated ids the first counts. -/
theorem score?_ofEntries (es : List OrderEntry) (id : String) :
    (ofEntries es).score? id = (es.find? (·.id = id)).map (·.score) := by
  refine Option.ext fun x => ?_
  rw [score?_eq_some_iff (tidy_ofEntries es).2, ofEntries, Sorting.mem_sort, mem_distinctBy_iff,
    map_score_find?_eq_some_iff]

/-- After adding entries, known ids keep their score and new ones have that of their first entry. -/
theorem score?_add? {o o' : OrderSnapshot} {entries : List OrderEntry} {id : String}
    (ho : o.entries.Pairwise (·.id ≠ ·.id)) (h : o.add? entries = some o') :
    o'.score? id = (o.score? id).or ((entries.find? (·.id = id)).map (·.score)) := by
  have ho' : o'.entries.Pairwise (·.id ≠ ·.id) := (tidy_add? ho h).2
  refine Option.ext fun x => ?_
  rw [score?_eq_some_iff ho', add?_eq_some h, Sorting.mem_sort, List.mem_append,
    ← score?_eq_some_iff ho, unknown, List.mem_filter, mem_distinctBy_iff, ← score?_isSome]
  cases o.score? id with
  | some y => simp
  | none =>
    simp only [Option.isSome_none, Bool.not_false, and_true, Option.none_or, reduceCtorEq,
      false_or]
    rw [map_score_find?_eq_some_iff]

theorem remove?_eq_some {o o' : OrderSnapshot} {ids : List String} (h : o.remove? ids = some o') :
    o'.entries = o.entries.filter fun e => !ids.contains e.id := by
  simp only [remove?] at h
  split at h
  · exact absurd h (by simp)
  · rw [← Option.some.inj h]

theorem filter_of_remove?_eq_none {o : OrderSnapshot} {ids : List String}
    (h : o.remove? ids = none) : ∀ e ∈ o.entries, e.id ∉ ids := by
  simp only [remove?] at h
  split at h
  · next h' =>
    have := List.length_filter_eq_length_iff.mp h'
    simpa using this
  · exact absurd h (by simp)

theorem score?_remove? {o o' : OrderSnapshot} {ids : List String} {id : String}
    (ho : o.entries.Pairwise (·.id ≠ ·.id)) (h : o.remove? ids = some o') :
    o'.score? id = if id ∈ ids then none else o.score? id := by
  have ho' : o'.entries.Pairwise (·.id ≠ ·.id) := by
    rw [remove?_eq_some h]
    exact ho.filter _
  refine Option.ext fun x => ?_
  rw [score?_eq_some_iff ho', remove?_eq_some h, List.mem_filter, ← score?_eq_some_iff ho]
  by_cases hi : id ∈ ids
  · simp [hi]
  · simp [hi]

end OrderSnapshot

/-! ## Stored values -/

namespace StoredOrder

open OrderSnapshot

/-- A stored value that decodes. -/
def Readable (stored : Option Json) : Prop := ∃ entries, OrderEntry.ofStored stored = .ok entries

/-- The score that a stored value gives an id. -/
def score? (stored : Option Json) (id : String) : Option Binary64 :=
  match OrderEntry.ofStored stored with
  | .ok entries => (ofEntries entries).score? id
  | .error _ => none

/-- An id that a stored value lists. -/
def Lists (stored : Option Json) (id : String) : Prop := score? stored id ≠ none

/-- A stored value whose entries are in strictly increasing order, no id twice. -/
def Sorted (stored : Option Json) : Prop :=
  ∃ entries, OrderEntry.ofStored stored = .ok entries ∧ Tidy entries

theorem Sorted.readable {stored : Option Json} (h : Sorted stored) : Readable stored :=
  h.imp fun _ h => h.1

theorem score?_of_ofStored {stored : Option Json} {entries : List OrderEntry}
    (h : OrderEntry.ofStored stored = .ok entries) (id : String) :
    score? stored id = (ofEntries entries).score? id := by
  rw [score?, h]

theorem lists_iff_contains {stored : Option Json} {entries : List OrderEntry} {id : String}
    (h : OrderEntry.ofStored stored = .ok entries) :
    Lists stored id ↔ (ofEntries entries).contains id = true := by
  rw [Lists, score?_of_ofStored h, ← OrderSnapshot.score?_isSome, Option.isSome_iff_ne_none]

@[simp]
theorem score?_none (id : String) : score? none id = none := rfl

@[simp]
theorem not_lists_none (id : String) : ¬ Lists none id := by simp [Lists]

theorem sorted_none : Sorted none := ⟨[], rfl, .nil, .nil⟩

/-! ## The stored form -/

theorem ofJson_toJson (e : OrderEntry) : OrderEntry.ofJson e.toJson = .ok e := rfl

theorem items_toJson : ∀ entries : List OrderEntry,
    Decoder.items OrderEntry.ofJson (entries.map OrderEntry.toJson) = .ok entries
  | [] => rfl
  | e :: es => by
    rw [List.map_cons, Decoder.items, ofJson_toJson, items_toJson es]
    rfl

theorem ofStored_toJson (o : OrderSnapshot) :
    OrderEntry.ofStored (some o.toJson) = .ok o.entries := items_toJson o.entries

/-! ## Changes -/

/-- What is stored after a change of the order; what cannot be read stays as it is. -/
def changed (change : OrderSnapshot → Option OrderSnapshot) (stored : Option Json) : Option Json :=
  match OrderEntry.ofStored stored with
  | .ok known =>
    match change (ofEntries known) with
    | some order => some order.toJson
    | none => stored
  | .error _ => stored

/-- What is stored after adding entries. -/
def added (stored : Option Json) (entries : List OrderEntry) : Option Json :=
  changed (·.add? entries) stored

/-- What is stored after removing ids. -/
def removed (stored : Option Json) (ids : List String) : Option Json :=
  changed (·.remove? ids) stored

section Changed

variable {change : OrderSnapshot → Option OrderSnapshot} {stored : Option Json}

theorem changed_of_ofStored {known : List OrderEntry} (h : OrderEntry.ofStored stored = .ok known) :
    changed change stored = match change (ofEntries known) with
      | some order => some order.toJson
      | none => stored := by
  simp only [changed, h]

theorem changed_of_none (h : ∀ o, change o = none) : changed change stored = stored := by
  unfold changed
  split
  · rw [h]
  · rfl

theorem readable_changed (h : Readable stored) : Readable (changed change stored) := by
  unfold changed
  split
  · split
    · exact ⟨_, ofStored_toJson _⟩
    · exact h
  · exact h

theorem sorted_changed (keeps : ∀ o o', Tidy o.entries → change o = some o' → Tidy o'.entries)
    (h : Sorted stored) : Sorted (changed change stored) := by
  unfold changed
  split
  · next known _ =>
    split
    · next o ho => exact ⟨_, ofStored_toJson o, keeps _ o (tidy_ofEntries known) ho⟩
    · exact h
  · exact h

end Changed

theorem added_nil (stored : Option Json) : added stored [] = stored :=
  changed_of_none fun _ => rfl

theorem removed_nil (stored : Option Json) : removed stored [] = stored :=
  changed_of_none fun o => by simp [OrderSnapshot.remove?]

theorem score?_toJson {o : OrderSnapshot} (ho : Tidy o.entries) (id : String) :
    score? (some o.toJson) id = o.score? id := by
  rw [score?_of_ofStored (ofStored_toJson o)]
  refine Option.ext fun x => ?_
  rw [score?_eq_some_iff ho.2, score?_eq_some_iff (tidy_ofEntries _).2, ofEntries,
    Sorting.mem_sort, distinctBy_eq_self ho.2]

/-- After adding entries, known ids keep their score and new ones have that of their first entry. -/
theorem score?_added {stored : Option Json} (h : Readable stored) (entries : List OrderEntry)
    (id : String) : score? (added stored entries) id
      = (score? stored id).or ((entries.find? (·.id = id)).map (·.score)) := by
  obtain ⟨known, hk⟩ := h
  rw [score?_of_ofStored hk]
  rw [added, changed_of_ofStored hk]
  split
  · next o ho =>
    rw [score?_toJson (tidy_add? (tidy_ofEntries known).2 ho),
      OrderSnapshot.score?_add? (tidy_ofEntries known).2 ho]
  · next ho =>
    rw [score?_of_ofStored hk]
    cases hc : (ofEntries known).score? id with
    | some x => rfl
    | none =>
      rw [Option.none_or, eq_comm, Option.map_eq_none_iff, List.find?_eq_none]
      intro e he hid
      have hc' : (ofEntries known).contains id = false := by rw [← score?_isSome, hc]; rfl
      have := mem_unknown.mpr ⟨⟨e, he, by simpa using hid⟩, hc'⟩
      rw [unknown_of_add?_eq_none ho] at this
      simp at this

theorem score?_removed {stored : Option Json} (ids : List String) (id : String) :
    score? (removed stored ids) id = if id ∈ ids then none else score? stored id := by
  unfold removed changed
  split
  · next known hk =>
    rw [score?_of_ofStored hk]
    split
    · next o ho =>
      have tidy : Tidy o.entries := by
        rw [remove?_eq_some ho]
        exact (tidy_ofEntries known).filter _
      rw [score?_toJson tidy, OrderSnapshot.score?_remove? (tidy_ofEntries known).2 ho]
    · next ho =>
      rw [score?_of_ofStored hk]
      split
      · next hi =>
        rw [OrderSnapshot.score?, Option.map_eq_none_iff, List.find?_eq_none]
        intro e he hid
        exact filter_of_remove?_eq_none ho e he (by simpa [of_decide_eq_true hid] using hi)
      · rfl
  · next hk =>
    have : score? stored id = none := by rw [score?, hk]
    rw [this, ite_self]

theorem lists_added {stored : Option Json} (h : Readable stored) {entries : List OrderEntry}
    {id : String} :
    Lists (added stored entries) id ↔ Lists stored id ∨ ∃ e ∈ entries, e.id = id := by
  rw [Lists, Lists, score?_added h]
  cases score? stored id with
  | some x => simp
  | none => simp

theorem lists_removed {stored : Option Json} {ids : List String} {id : String} :
    Lists (removed stored ids) id ↔ Lists stored id ∧ id ∉ ids := by
  rw [Lists, Lists, score?_removed]
  by_cases h : id ∈ ids
  · simp [h]
  · simp [h]

theorem sorted_added {stored : Option Json} (h : Sorted stored) (entries : List OrderEntry) :
    Sorted (added stored entries) := sorted_changed (fun _ _ tidy ho => tidy_add? tidy.2 ho) h

theorem sorted_removed {stored : Option Json} (h : Sorted stored) (ids : List String) :
    Sorted (removed stored ids) := by
  refine sorted_changed (fun o o' tidy ho => ?_) h
  rw [remove?_eq_some ho]
  exact tidy.filter _

/-! ## Adding in parts

Entries may be added one part after the other. What is stored in the end does not show it: it is the
value from before, or it is sorted by what it lists.
-/

section Parts

variable {stored other : Option Json}

/-- A stored order that was left as it is, or was rewritten to list an id that it did not. -/
def Grown (stored other : Option Json) : Prop :=
  other = stored ∨ ∃ o : OrderSnapshot, other = some o.toJson ∧ Tidy o.entries ∧
    ∃ id, Lists other id ∧ ¬ Lists stored id

/-- Such an order is told by its scores. -/
theorem Grown.eq_of_score? {other' : Option Json} (h : Grown stored other) (h' : Grown stored other')
    (same : ∀ id, score? other id = score? other' id) : other = other' := by
  have lists : ∀ id, Lists other id ↔ Lists other' id := fun id => by rw [Lists, Lists, same]
  rcases h with rfl | ⟨o, rfl, tidy, id, listed, missing⟩
  · rcases h' with rfl | ⟨_, _, _, id, listed, missing⟩
    · rfl
    · exact absurd ((lists id).mpr listed) missing
  · rcases h' with rfl | ⟨o', rfl, tidy', _⟩
    · exact absurd ((lists id).mp listed) missing
    · have orders : o = o' := OrderSnapshot.eq_of_score? tidy tidy' fun id => by
        rw [← score?_toJson tidy, same, score?_toJson tidy']
      rw [orders]

theorem grown_added (readable : Readable stored) (entries : List OrderEntry) :
    Grown stored (added stored entries) := by
  obtain ⟨known, hk⟩ := readable
  cases ho : (ofEntries known).add? entries with
  | none => exact Or.inl (by rw [added, changed_of_ofStored hk, ho])
  | some o =>
    have leaves : added stored entries = some o.toJson := by rw [added, changed_of_ofStored hk, ho]
    refine Or.inr ⟨o, leaves, tidy_add? (tidy_ofEntries known).2 ho, ?_⟩
    -- An order is rewritten only for an entry whose id is new.
    have new : (ofEntries known).unknown entries ≠ [] := by
      intro none
      rw [add?, none] at ho
      exact absurd ho (by simp)
    obtain ⟨e, he⟩ := List.exists_mem_of_ne_nil _ new
    obtain ⟨given, missing⟩ := mem_unknown.mp ⟨e, he, rfl⟩
    refine ⟨e.id, (lists_added ⟨known, hk⟩).mpr (Or.inr given), fun listed => ?_⟩
    exact absurd ((lists_iff_contains hk).mp listed) (by simp [missing])

theorem readable_added (h : Readable stored) (entries : List OrderEntry) :
    Readable (added stored entries) := readable_changed h

theorem grown_added_added (readable : Readable stored) (entries entries' : List OrderEntry) :
    Grown stored (added (added stored entries) entries') := by
  rcases grown_added (readable_added readable entries) entries' with
    same | ⟨o, leaves, tidy, id, listed, missing⟩
  · rw [same]
    exact grown_added readable entries
  · refine Or.inr ⟨o, leaves, tidy, id, listed, fun before => missing ?_⟩
    exact (lists_added readable).mpr (Or.inl before)

theorem added_of_unreadable (h : ¬ Readable stored) (entries : List OrderEntry) :
    added stored entries = stored := by
  unfold added changed
  split
  · next known hk => exact absurd ⟨known, hk⟩ h
  · rfl

/-- Entries that are added one part after the other are added at once. -/
theorem added_added (stored : Option Json) (entries entries' : List OrderEntry) :
    added (added stored entries) entries' = added stored (entries ++ entries') := by
  by_cases readable : Readable stored
  · refine (grown_added_added readable _ _).eq_of_score? (grown_added readable _) fun id => ?_
    rw [score?_added (readable_added readable entries), score?_added readable, score?_added readable,
      List.find?_append, Option.or_assoc, Option.map_or]
  · simp only [added_of_unreadable readable]

/-- Two entries with different ids may be added in either order. -/
theorem added_comm (stored : Option Json) {a b : OrderEntry} (apart : a.id ≠ b.id) :
    added (added stored [a]) [b] = added (added stored [b]) [a] := by
  rw [added_added, added_added]
  by_cases readable : Readable stored
  · refine (grown_added readable _).eq_of_score? (grown_added readable _) fun id => ?_
    have found : ([a] ++ [b]).find? (·.id = id) = ([b] ++ [a]).find? (·.id = id) := by
      by_cases ha : a.id = id
      · have hb : b.id ≠ id := fun hb => apart (ha.trans hb.symm)
        simp [ha, hb]
      · simp [List.find?_cons, ha]
    rw [score?_added readable, score?_added readable, found]
  · simp only [added_of_unreadable readable]

end Parts

end StoredOrder

end ChatMemory
