import ChatMemory.Proofs.Indexed
import ChatMemory.Proofs.Together
import Mathlib.Data.Finmap

/-!
# The order of a thread as a map

What the order of a thread amounts to is a finite map from ids to scores. Adding notes the scores of
ids that have none, so of repeated ids the first counts; removing takes ids out; clearing empties
the map. The stored value may say the same in many ways, as long as it can be read: unsorted, with
ids that come again, or as a list within a text. It stays so until a change has something to write.
What is read from it shows only the map.

The induction over the changes carries that the stored value can be read and gives every id the
score of the map (`ScoreMap.Kept`); that the order is sorted and has each id once is due to the
reading.

## Main statements

* `ScoreMap.Kept.edit` — what one change does to the stored value, the change does to the map.
* `ScoreMap.Shown.unique` — an order is told by its map.
* `OrderIndex.edited_eq_map` — changes of any readable order, one after the other.
-/

namespace ChatMemory

open Action

/-- Scores by id. -/
abbrev ScoreMap := Finmap fun _ : String => Binary64

namespace ScoreMap

/-! ## Changes of a map -/

/-- Notes the score of an id that has none. -/
def place (m : ScoreMap) (e : OrderEntry) : ScoreMap :=
  if e.id ∈ m then m else m.insert e.id e.score

/-- Notes the scores of some entries, one after the other. -/
def placeAll (m : ScoreMap) (entries : List OrderEntry) : ScoreMap := entries.foldl place m

/-- Takes out some ids. -/
def eraseAll (m : ScoreMap) (ids : List String) : ScoreMap := ids.foldl (fun m id => m.erase id) m

/-- What a change does to a map. -/
def edit (m : ScoreMap) : OrderIndex.Change → ScoreMap
  | .add _ entries => m.placeAll entries
  | .remove _ ids => m.eraseAll ids
  | .clear _ => ∅

/-- The map of a list of entries after some changes. -/
def after (entries : List OrderEntry) (changes : List OrderIndex.Change) : ScoreMap :=
  changes.foldl edit (placeAll ∅ entries)

theorem lookup_place (m : ScoreMap) (e : OrderEntry) (id : String) :
    (m.place e).lookup id = (m.lookup id).or (if e.id = id then some e.score else none) := by
  rw [place]
  split
  · next known =>
    by_cases h : e.id = id
    · subst h
      obtain ⟨x, hx⟩ := Finmap.mem_iff.mp known
      rw [hx, Option.some_or]
    · rw [if_neg h, Option.or_none]
  · next new =>
    by_cases h : e.id = id
    · subst h
      rw [Finmap.lookup_insert, Finmap.lookup_eq_none.mpr new, if_pos rfl, Option.none_or]
    · rw [Finmap.lookup_insert_of_ne _ (Ne.symm h), if_neg h, Option.or_none]

/-- Ids keep their scores, and the first entry of a new id counts. -/
theorem lookup_placeAll {id : String} : ∀ {entries : List OrderEntry} {m : ScoreMap},
    (m.placeAll entries).lookup id
      = (m.lookup id).or ((entries.find? (·.id = id)).map (·.score))
  | [], m => (Option.or_none).symm
  | e :: rest, m => by
    rw [show m.placeAll (e :: rest) = (m.place e).placeAll rest from rfl, lookup_placeAll,
      lookup_place, Option.or_assoc, List.find?_cons]
    by_cases h : e.id = id
    · simp [h]
    · simp [h]

theorem lookup_eraseAll {id : String} : ∀ {ids : List String} {m : ScoreMap},
    (m.eraseAll ids).lookup id = if id ∈ ids then none else m.lookup id
  | [], m => (if_neg List.not_mem_nil).symm
  | other :: rest, m => by
    rw [show m.eraseAll (other :: rest) = eraseAll (m.erase other) rest from rfl, lookup_eraseAll]
    by_cases h : id = other
    · subst h
      simp
    · simp [h, Finmap.lookup_erase_ne h]

/-! ## Orders that show a map -/

/-- An order that shows a map: sorted by score, then id, with the ids of the map and their scores;
what is said of a single id is said by the place where it stands. -/
structure Shown (m : ScoreMap) (o : OrderSnapshot) : Prop where
  sorted : o.entries.Pairwise OrderSnapshot.Before
  distinct : o.entries.Pairwise (·.id ≠ ·.id)
  mem : ∀ id x, ⟨id, x⟩ ∈ o.entries ↔ m.lookup id = some x
  rank : ∀ id i, o.rank? id = some i ↔ ∃ x, o.entries[i]? = some ⟨id, x⟩
  score : ∀ id x, o.score? id = some x ↔ ∃ i : Nat, o.entries[i]? = some ⟨id, x⟩
  contains : ∀ id, o.contains id = true ↔ ∃ (i : Nat) (x : Binary64), o.entries[i]? = some ⟨id, x⟩

theorem shown_of_score? {m : ScoreMap} {o : OrderSnapshot} (tidy : OrderSnapshot.Tidy o.entries)
    (same : ∀ id, o.score? id = m.lookup id) : m.Shown o where
  sorted := tidy.1
  distinct := tidy.2
  mem id x := by rw [← OrderSnapshot.score?_eq_some_iff tidy.2, same]
  rank id i := by
    rw [OrderSnapshot.rank?_eq_some_iff tidy.2]
    constructor
    · rintro ⟨e, he, rfl⟩
      exact ⟨e.score, he⟩
    · rintro ⟨x, hx⟩
      exact ⟨_, hx, rfl⟩
  score id x := by rw [OrderSnapshot.score?_eq_some_iff tidy.2, List.mem_iff_getElem?]
  contains id := by
    rw [OrderSnapshot.contains_iff]
    constructor
    · rintro ⟨e, he, rfl⟩
      obtain ⟨i, hi⟩ := List.mem_iff_getElem?.mp he
      exact ⟨i, e.score, hi⟩
    · rintro ⟨i, x, hx⟩
      exact ⟨_, List.mem_of_getElem? hx, rfl⟩

theorem Shown.unique {m : ScoreMap} {o o' : OrderSnapshot} (h : m.Shown o) (h' : m.Shown o') :
    o = o' :=
  OrderSnapshot.eq_of_score? ⟨h.sorted, h.distinct⟩ ⟨h'.sorted, h'.distinct⟩ fun id =>
    Option.ext fun x => by
      rw [OrderSnapshot.score?_eq_some_iff h.distinct, OrderSnapshot.score?_eq_some_iff h'.distinct,
        h.mem, h'.mem]

/-! ## Stored values -/

/-- A stored value that can be read and says what a map says. -/
structure Kept (m : ScoreMap) (stored : Option Json) : Prop where
  readable : StoredOrder.Readable stored
  same : ∀ id, StoredOrder.score? stored id = m.lookup id

theorem kept_placeAll {stored : Option Json} {entries : List OrderEntry}
    (h : OrderEntry.ofStored stored = .ok entries) : (placeAll ∅ entries).Kept stored := by
  refine ⟨⟨entries, h⟩, fun id => ?_⟩
  rw [StoredOrder.score?_of_ofStored h, OrderSnapshot.score?_ofEntries, lookup_placeAll,
    Finmap.lookup_empty, Option.none_or]

/-- A change of what is stored is a change of the map. -/
theorem Kept.edit {m : ScoreMap} {stored : Option Json} (h : m.Kept stored)
    (change : OrderIndex.Change) : (m.edit change).Kept (change.applied stored) := by
  cases change with
  | add _ entries =>
    refine ⟨StoredOrder.readable_added h.readable entries, fun id => ?_⟩
    exact (StoredOrder.score?_added h.readable entries id).trans
      (by rw [h.same, ScoreMap.edit, lookup_placeAll])
  | remove _ ids =>
    have readable : StoredOrder.Readable (StoredOrder.removed stored ids) :=
      StoredOrder.readable_changed h.readable
    refine ⟨readable, fun id => ?_⟩
    exact (StoredOrder.score?_removed ids id).trans (by rw [h.same, ScoreMap.edit, lookup_eraseAll])
  | clear _ =>
    exact ⟨StoredOrder.sorted_none.readable, fun id => (StoredOrder.score?_none id).trans
      (by rw [ScoreMap.edit, Finmap.lookup_empty])⟩

end ScoreMap

/-! ## Changes of a stored order -/

namespace OrderIndex

variable {k : Keyspace} {thread : String} {t : Tables}

/-- Makes some changes, one after the other, and reads the order of a thread. -/
def edited (k : Keyspace) (thread : String) (changes : List Change) : Action OrderSnapshot := do
  Action.forAll (Change.action k) changes
  snapshot k thread

/-- A change of an order that can be read goes well. -/
theorem exists_merge (change : OrderSnapshot → Option OrderSnapshot)
    (h : StoredOrder.Readable (k.stored t thread Keyspace.orderField)) :
    ∃ t', (merge k thread change).Yields t () t' := by
  obtain ⟨entries, he⟩ := h
  have snap := yields_snapshot.mpr ⟨rfl, entries, he, rfl⟩
  cases hc : change (.ofEntries entries) with
  | none =>
    refine ⟨t, yields_exclusively.mpr (snap.bind_iff.mpr ?_)⟩
    rw [hc]
    exact yields_pure.mpr ⟨rfl, rfl⟩
  | some order =>
    refine ⟨t.put .messages (k.order thread) order.toJson,
      yields_exclusively.mpr (snap.bind_iff.mpr ?_)⟩
    rw [hc]
    exact yields_ask.mpr ⟨rfl, rfl⟩

theorem exists_change (change : Change)
    (h : StoredOrder.Readable (t.get? .messages (change.key k))) :
    ∃ t', (change.action k).Yields t () t' := by
  have void : ∃ t', (pure () : Action Unit).Yields t () t' := ⟨t, yields_pure.mpr ⟨rfl, rfl⟩⟩
  cases change with
  | add thread entries =>
    rw [show (Change.add thread entries).action k = add k thread entries from rfl, add]
    split
    · exact void
    · exact exists_merge _ h
  | remove thread ids =>
    rw [show (Change.remove thread ids).action k = remove k thread ids from rfl, remove]
    split
    · exact void
    · exact exists_merge _ h
  | clear thread => exact ⟨_, yields_exclusively.mpr (yields_ask.mpr ⟨rfl, rfl⟩)⟩

/-- What is kept of a map goes well through any changes. -/
theorem exists_changes : ∀ {changes : List Change} {t : Tables} {m : ScoreMap},
    (∀ change ∈ changes, change.thread = thread) → m.Kept (t.get? .messages (k.order thread)) →
    ∃ t', (Action.forAll (Change.action k) changes).Yields t () t' ∧
      (changes.foldl ScoreMap.edit m).Kept (t'.get? .messages (k.order thread))
  | [], t, _, _, h => ⟨t, yields_pure.mpr ⟨rfl, rfl⟩, h⟩
  | change :: rest, t, m, one, h => by
    have key : change.key k = k.order thread := by rw [Change.key, one change List.mem_cons_self]
    obtain ⟨t₁, first⟩ := exists_change change (by rw [key]; exact h.readable)
    have kept : (m.edit change).Kept (t₁.get? .messages (k.order thread)) := by
      have changed := Change.yields_action first
      rw [key] at changed
      rw [changed .messages (k.order thread), if_pos ⟨rfl, rfl⟩]
      exact h.edit change
    obtain ⟨t', later, last⟩ := exists_changes (fun c hc => one c (List.mem_cons_of_mem _ hc)) kept
    exact ⟨t', yields_bind.mpr ⟨(), t₁, first, later⟩, last⟩

/-- A kept map is what is read. -/
theorem exists_snapshot {m : ScoreMap} (h : m.Kept (t.get? .messages (k.order thread))) :
    ∃ o, (snapshot k thread).Yields t o t ∧ m.Shown o := by
  obtain ⟨entries, he⟩ := h.readable
  refine ⟨.ofEntries entries, yields_snapshot.mpr ⟨rfl, entries, he, rfl⟩, ?_⟩
  refine ScoreMap.shown_of_score? (OrderSnapshot.tidy_ofEntries entries) fun id => ?_
  rw [← h.same, StoredOrder.score?_of_ofStored he]

theorem exists_edited (w : World) {known : List OrderEntry} {changes : List Change}
    (decodes : OrderEntry.ofStored (w.tables.get? .messages (k.order thread)) = .ok known)
    (one : ∀ change ∈ changes, change.thread = thread) :
    ∃ o, ((edited k thread changes).run Faults.none w).1 = .ok o ∧
      (ScoreMap.after known changes).Shown o := by
  obtain ⟨t', changed, kept⟩ := exists_changes one (ScoreMap.kept_placeAll decodes)
  obtain ⟨o, read, shown⟩ := exists_snapshot kept
  exact ⟨o, (yields_bind.mpr ⟨(), t', changed, read⟩).run.1, shown⟩

/--
Any changes of an order that can be read go well, and what is read afterwards is the map that the
changes make of what was read before. So changes that end with the same map end with the same order,
whatever they are and wherever they started.
-/
theorem edited_eq_map (k : Keyspace) (thread : String) (w : World) (known : List OrderEntry)
    (changes : List Change)
    (decodes : OrderEntry.ofStored (w.tables.get? .messages (k.order thread)) = .ok known)
    (one : ∀ change ∈ changes, change.thread = thread) :
    ∃ o, ((edited k thread changes).run Faults.none w).1 = .ok o ∧
      (ScoreMap.after known changes).Shown o ∧
      ∀ (k' : Keyspace) thread' (w' : World) known' changes',
        OrderEntry.ofStored (w'.tables.get? .messages (k'.order thread')) = .ok known' →
        (∀ change ∈ changes', change.thread = thread') →
        ScoreMap.after known' changes' = ScoreMap.after known changes →
        ((edited k' thread' changes').run Faults.none w').1 = .ok o := by
  obtain ⟨o, result, shown⟩ := exists_edited w decodes one
  refine ⟨o, result, shown, fun k' thread' w' known' changes' decodes' one' same => ?_⟩
  obtain ⟨o', result', shown'⟩ := exists_edited w' decodes' one'
  rw [same] at shown'
  rw [result', shown'.unique shown]

end OrderIndex

/-! ## Samples -/

namespace Sample

/-- An order within a text, unsorted and with an id that comes again. -/
def untidy : String :=
  "[\x7b\"id\":\"b\",\"score\":2\x7d,\x7b\"id\":\"a\",\"score\":1\x7d,\x7b\"id\":\"b\",\"score\":0\x7d]"

def untidyEntries : List OrderEntry := [⟨"b", .ofInt 2⟩, ⟨"a", .ofInt 1⟩, ⟨"b", .ofInt 0⟩]

theorem ofStored_untidy : OrderEntry.ofStored (some (.str untidy)) = .ok untidyEntries := by
  have read : (OrderEntry.ofStored (some (.str untidy))).toOption = some untidyEntries := by
    decide +kernel
  cases h : OrderEntry.ofStored (some (.str untidy)) with
  | ok entries =>
    rw [h] at read
    rw [Option.some.inj read]
  | error _ =>
    rw [h] at read
    exact absurd read (by simp [Except.toOption])

/-- The order of a thread is such a text. -/
def untidyWorld (k : Keyspace) : World :=
  { World.initial with tables := Tables.empty.put .messages (k.order "t") (.str untidy) }

/-- Adds an id that is new and one that is not, and removes one. -/
def someChanges : List OrderIndex.Change :=
  [.add "t" [⟨"c", .ofInt 3⟩, ⟨"a", .ofInt 9⟩], .remove "t" ["b"]]

def otherChanges : List OrderIndex.Change :=
  [.clear "t", .add "t" [⟨"a", .ofInt 1⟩, ⟨"c", .ofInt 3⟩]]

end Sample

theorem OrderIndex.edited_eq_map_untidy :
    let k : Keyspace := ⟨"app-"⟩
    OrderEntry.ofStored ((Sample.untidyWorld k).tables.get? .messages (k.order "t"))
      = .ok Sample.untidyEntries ∧
    (∀ change ∈ Sample.someChanges, change.thread = "t") ∧
    ∃ o, ((edited k "t" Sample.someChanges).run Faults.none (Sample.untidyWorld k)).1 = .ok o ∧
      (ScoreMap.after Sample.untidyEntries Sample.someChanges).Shown o ∧
      ((edited k "t" Sample.otherChanges).run Faults.none World.initial).1 = .ok o := by
  intro k
  have decodes : OrderEntry.ofStored ((Sample.untidyWorld k).tables.get? .messages (k.order "t"))
      = .ok Sample.untidyEntries := by
    rw [Sample.untidyWorld, Tables.get?_put, if_pos ⟨rfl, rfl⟩]
    exact Sample.ofStored_untidy
  have one : ∀ change ∈ Sample.someChanges, change.thread = "t" := by decide
  obtain ⟨o, result, shown, others⟩ := edited_eq_map k "t" _ _ Sample.someChanges decodes one
  exact ⟨decodes, one, o, result, shown,
    others k "t" World.initial [] Sample.otherChanges rfl (by decide) (by decide +kernel)⟩

end ChatMemory
