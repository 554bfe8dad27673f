import ChatMemory.Proofs.Paging

/-!
# Indexed tables

Tables are *indexed* if each message is in one thread at most, a thread that exists, and tells it, and
the order of each thread lists exactly the messages that are read in it. Histories without failures
lead to such tables, as long as the records that they leave can be read.

In indexed tables a message that is stored is told by its id, and the orders that are loaded for a
listing are those of the threads, whenever they are loaded.

## Main statements

* `Stores.eq_of_id` — a stored message is told by its id.
* `yields_loadOrder`, `yields_loadTargets` — orders that are loaded.
* `mem_neighbours` — the neighbours of a message are those within reach.
* `Contents.Consistent.indexed` — where indexed tables come from.
-/

namespace ChatMemory

open Action

/-! ## Positions -/

namespace OrderSnapshot

variable {o : OrderSnapshot} {id : String} {i : Nat}

theorem rank?_lt (h : o.rank? id = some i) : i < o.length :=
  (List.findIdx?_eq_some_iff_findIdx_eq.mp h).1

theorem contains_of_rank? (h : o.rank? id = some i) : o.contains id = true := by
  obtain ⟨hi, he, _⟩ := List.findIdx?_eq_some_iff_getElem.mp h
  exact contains_iff.mpr ⟨_, List.getElem_mem hi, by simpa using he⟩

/-- Without repeated ids the rank of an id is the only position where it stands. -/
theorem rank?_eq_some_iff (distinct : o.entries.Pairwise (·.id ≠ ·.id)) :
    o.rank? id = some i ↔ ∃ e, o.entries[i]? = some e ∧ e.id = id := by
  rw [rank?, List.findIdx?_eq_some_iff_getElem]
  constructor
  · rintro ⟨hi, he, _⟩
    exact ⟨o.entries[i], List.getElem?_eq_getElem hi, by simpa using he⟩
  · rintro ⟨e, he, rfl⟩
    obtain ⟨hi, rfl⟩ := List.getElem?_eq_some_iff.mp he
    refine ⟨hi, by simp, fun j hj => ?_⟩
    have apart := List.pairwise_iff_getElem.mp distinct j i (Nat.lt_trans hj hi) hi hj
    simpa using apart

/-- The ids between two positions. -/
theorem range_eq {first last : Nat} (h : first ≤ last) (hl : last < o.length) :
    o.range first last = ((o.entries.drop first).take (last + 1 - first)).map (·.id) := by
  have hfirst : ¬ ((first : Int) < 0) := by omega
  have hlast : ¬ ((last : Int) < 0) := by omega
  simp only [range, if_neg hfirst, if_neg hlast]
  rw [if_neg (by omega), Int.toNat_natCast]
  congr 2
  omega

end OrderSnapshot

/-- The id is in an order, so many positions before or after that of an include at most. -/
def IncludeRequest.Reaches (r : IncludeRequest) (o : OrderSnapshot) (id : String) : Prop :=
  ∃ i j, o.rank? r.id = some i ∧ o.rank? id = some j ∧
    i - r.before ≤ j ∧ j ≤ min (i + r.after) (o.length - 1)

theorem IncludeRequest.Reaches.contains {r : IncludeRequest} {o : OrderSnapshot} {id : String}
    (h : r.Reaches o id) : o.contains id = true := by
  obtain ⟨_, _, _, hj, _⟩ := h
  exact OrderSnapshot.contains_of_rank? hj

theorem Store.mem_neighbours {o : OrderSnapshot} (distinct : o.entries.Pairwise (·.id ≠ ·.id))
    {r : IncludeRequest} {id : String} : id ∈ neighbours o r ↔ r.Reaches o id := by
  unfold neighbours IncludeRequest.Reaches
  cases hr : o.rank? r.id with
  | none => simp
  | some i =>
    have hi := OrderSnapshot.rank?_lt hr
    have bounds : i - r.before ≤ min (i + r.after) (o.length - 1) := by omega
    dsimp only
    rw [OrderSnapshot.range_eq bounds (by omega), List.mem_map]
    constructor
    · rintro ⟨e, he, rfl⟩
      obtain ⟨j, hj, rfl⟩ := List.mem_take_iff_getElem.mp he
      rw [List.length_drop] at hj
      rw [List.getElem_drop]
      refine ⟨i, i - r.before + j, rfl, ?_, by omega, by omega⟩
      exact (OrderSnapshot.rank?_eq_some_iff distinct).mpr ⟨_, List.getElem?_eq_getElem _, rfl⟩
    · rintro ⟨_, j, ⟨⟩, hj, first, last⟩
      obtain ⟨e, he, rfl⟩ := (OrderSnapshot.rank?_eq_some_iff distinct).mp hj
      refine ⟨e, List.mem_of_getElem? (i := j - (i - r.before)) ?_, rfl⟩
      rw [List.getElem?_take_of_lt (by omega), List.getElem?_drop, ← he]
      congr 1
      omega

/-! ## What is stored -/

namespace Keyspace

variable {k : Keyspace} {t : Tables} {thread id : String} {x y : Message}

/-- The order of a thread; one that cannot be read counts as empty. -/
def orderOf (k : Keyspace) (t : Tables) (thread : String) : OrderSnapshot :=
  match OrderEntry.ofStored (k.stored t thread orderField) with
  | .ok entries => .ofEntries entries
  | .error _ => .ofEntries []

/-- The message is read under the thread and the id that it tells. -/
def Stores (k : Keyspace) (t : Tables) (x : Message) : Prop :=
  IsMessage x.id ∧ k.message? t x.threadId x.id = some x

/-- Tables whose orders list exactly what is stored. -/
structure Indexed (k : Keyspace) (t : Tables) : Prop where
  /-- A message is in a thread that exists. -/
  housed : ∀ {thread id}, (k.contents t).Holds thread id → (k.contents t).HasThread thread
  /-- No message is in two threads. -/
  unique : ∀ {thread other id}, (k.contents t).Holds thread id → (k.contents t).Holds other id →
    thread = other
  /-- A message tells its id and its thread. -/
  named : ∀ {thread id x}, IsMessage id → k.message? t thread id = some x →
    x.id = id ∧ x.threadId = thread
  /-- The order of a thread lists the messages that are read in it. -/
  listed : ∀ thread, ∃ entries, OrderEntry.ofStored (k.stored t thread orderField) = .ok entries ∧
    ∀ id, (∃ e ∈ entries, e.id = id) ↔ IsMessage id ∧ (k.message? t thread id).isSome

theorem tidy_orderOf (k : Keyspace) (t : Tables) (thread : String) :
    OrderSnapshot.Tidy (k.orderOf t thread).entries := by
  unfold orderOf
  split
  · exact OrderSnapshot.tidy_ofEntries _
  · exact OrderSnapshot.tidy_ofEntries _

/-- An order is determined by the scores of all messages. -/
theorem orderOf_congr {t' : Tables} (same : ∀ id,
    StoredOrder.score? (k.stored t' thread orderField) id
      = StoredOrder.score? (k.stored t thread orderField) id) :
    k.orderOf t' thread = k.orderOf t thread := by
  have score (t : Tables) (id : String) : (k.orderOf t thread).score? id
      = StoredOrder.score? (k.stored t thread orderField) id := by
    unfold orderOf StoredOrder.score?
    cases OrderEntry.ofStored (k.stored t thread orderField) <;> rfl
  exact OrderSnapshot.eq_of_score? (k.tidy_orderOf t' thread) (k.tidy_orderOf t thread)
    fun id => by rw [score, score, same]

theorem holds_of_message? (hi : IsMessage id) (h : k.message? t thread id = some x) :
    (k.contents t).Holds thread id := by
  rw [Contents.Holds, record_contents hi]
  intro none
  rw [message?, none] at h
  exact absurd h (by simp)

theorem Stores.holds (h : k.Stores t x) : (k.contents t).Holds x.threadId x.id :=
  holds_of_message? h.1 h.2

namespace Indexed

variable (h : k.Indexed t)

include h

theorem yields_snapshot (thread : String) :
    (OrderIndex.snapshot k thread).Yields t (k.orderOf t thread) t := by
  obtain ⟨entries, he, _⟩ := h.listed thread
  refine OrderIndex.yields_snapshot.mpr ⟨rfl, entries, he, ?_⟩
  rw [orderOf, he]

theorem contains_orderOf : (k.orderOf t thread).contains id = true ↔
    ∃ x, k.Stores t x ∧ x.threadId = thread ∧ x.id = id := by
  obtain ⟨entries, he, mem⟩ := h.listed thread
  have order : k.orderOf t thread = .ofEntries entries := by rw [orderOf, he]
  rw [order, OrderSnapshot.contains_ofEntries, mem, Option.isSome_iff_exists]
  constructor
  · rintro ⟨hi, x, hx⟩
    obtain ⟨rfl, rfl⟩ := h.named hi hx
    exact ⟨x, ⟨hi, hx⟩, rfl, rfl⟩
  · rintro ⟨x, ⟨hi, hx⟩, rfl, rfl⟩
    exact ⟨hi, x, hx⟩

theorem stores_of_message? (hc : (k.orderOf t thread).contains id = true)
    (hx : k.message? t thread id = some x) : k.Stores t x ∧ x.threadId = thread ∧ x.id = id := by
  obtain ⟨y, hy, rfl, rfl⟩ := h.contains_orderOf.mp hc
  obtain rfl := Option.some.inj (hx.symm.trans hy.2)
  exact ⟨hy, rfl, rfl⟩

/-- A stored message is told by its id. -/
theorem eq_of_id (hx : k.Stores t x) (hy : k.Stores t y) (same : x.id = y.id) : x = y := by
  have held : (k.contents t).Holds x.threadId y.id := same ▸ hx.holds
  have thread := h.unique held hy.holds
  have read := hx.2
  rw [same, thread] at read
  exact Option.some.inj (read.symm.trans hy.2)

theorem exists_score (hx : k.Stores t x) :
    ∃ score, (k.orderOf t x.threadId).score? x.id = some score := by
  refine Option.isSome_iff_exists.mp ?_
  rw [OrderSnapshot.score?_isSome]
  exact h.contains_orderOf.mpr ⟨x, hx, rfl, rfl⟩

/-- The entries of an order are backed by messages. -/
theorem backed (thread : String) : k.Backed t thread := by
  intro entries he e hm
  obtain ⟨listed, hl, mem⟩ := h.listed thread
  obtain rfl := Except.ok.inj (he.symm.trans hl)
  obtain ⟨hi, hx⟩ := (mem e.id).mp ⟨e, hm, rfl⟩
  obtain ⟨x, hx⟩ := Option.isSome_iff_exists.mp hx
  exact ⟨x, hx, h.named hi hx⟩

end Indexed

end Keyspace

/-! ## Loaded orders -/

namespace Store

variable {s : Store} {t : Tables} {orders orders' : Orders} {thread : String}

/-- The orders that are loaded are those of their threads. -/
def Faithful (k : Keyspace) (t : Tables) (orders : Orders) : Prop :=
  ∀ {thread order}, orders.lookup thread = some order → order = k.orderOf t thread

/-- The order of a thread is loaded. -/
def Loaded (orders : Orders) (thread : String) : Prop := (orders.lookup thread).isSome

theorem faithful_nil (k : Keyspace) (t : Tables) : Faithful k t [] := fun h => absurd h (by simp)

theorem not_loaded_nil (thread : String) : ¬ Loaded [] thread := Bool.false_ne_true

/-- A message of a loaded order has its place in that order. -/
theorem scoreIn_of_loaded {k : Keyspace} (faithful : Faithful k t orders) {x : Message}
    {score : Binary64} (loaded : Loaded orders x.threadId)
    (listed : (k.orderOf t x.threadId).score? x.id = some score) : scoreIn orders x = score := by
  obtain ⟨order, ho⟩ := Option.isSome_iff_exists.mp loaded
  obtain rfl := faithful ho
  rw [scoreIn, ho, Option.bind_some, listed, Option.getD_some]

/-- An order is loaded, if it has not been before. -/
theorem yields_loadOrder (h : s.keys.Indexed t) (faithful : Faithful s.keys t orders)
    (thread : String) : ∃ orders',
      (s.loadOrder orders thread).Yields t (s.keys.orderOf t thread, orders') t ∧
      Faithful s.keys t orders' ∧
      ∀ other, Loaded orders' other ↔ Loaded orders other ∨ other = thread := by
  unfold loadOrder
  split
  · next order ho =>
    refine ⟨orders, yields_pure.mpr ⟨by rw [faithful ho], rfl⟩, faithful, fun other => ?_⟩
    have loaded : Loaded orders thread := by rw [Loaded, ho]; rfl
    exact ⟨Or.inl, fun hl => hl.elim id fun e => e ▸ loaded⟩
  · next ho =>
    have lookup (other : String) :
        (orders ++ [(thread, s.keys.orderOf t thread)]).lookup other = (orders.lookup other).or
          (if other = thread then some (s.keys.orderOf t thread) else none) := by
      rw [List.lookup_append, Pairs.lookup_cons_eq, List.lookup_nil]
    refine ⟨orders ++ [(thread, s.keys.orderOf t thread)], yields_bind.mpr
      ⟨_, t, h.yields_snapshot thread, yields_pure.mpr ⟨rfl, rfl⟩⟩, fun {other order} hl => ?_,
      fun other => ?_⟩
    · rw [lookup, Option.or_eq_some_iff] at hl
      rcases hl with hl | ⟨_, hl⟩
      · exact faithful hl
      · split at hl
        · next e => rw [e, Option.some.inj hl]
        · exact absurd hl (by simp)
    · rw [Loaded, lookup, Option.isSome_or, Bool.or_eq_true]
      refine or_congr_right ?_
      split <;> simp_all

/-- The orders of some threads are loaded, and the messages that they list are named. -/
theorem yields_loadTargets (h : s.keys.Indexed t) : ∀ (threads : List String) {orders : Orders},
    Faithful s.keys t orders → ∃ targets orders',
      (s.loadTargets orders threads).Yields t (targets, orders') t ∧ Faithful s.keys t orders' ∧
      (∀ other, Loaded orders' other ↔ Loaded orders other ∨ other ∈ threads) ∧
      ∀ target, target ∈ targets ↔ target.1 ∈ threads ∧ ¬ Loaded orders target.1 ∧
        (s.keys.orderOf t target.1).contains target.2 = true
  | [], orders, faithful =>
    ⟨[], orders, yields_pure.mpr ⟨rfl, rfl⟩, faithful, by simp, by simp⟩
  | thread :: rest, orders, faithful => by
    unfold loadTargets
    split
    · next loaded =>
      obtain ⟨targets, orders', yields, faithful', loads, mem⟩ :=
        yields_loadTargets h rest faithful
      have loaded : Loaded orders thread := loaded
      refine ⟨targets, orders', yields, faithful', fun other => ?_, fun target => ?_⟩
      · rw [loads, List.mem_cons]
        exact ⟨Or.imp_right Or.inr, fun hl =>
          hl.elim Or.inl fun hm => hm.elim (fun e => Or.inl (e ▸ loaded)) Or.inr⟩
      · rw [mem, List.mem_cons]
        refine and_congr_left fun new => ⟨Or.inr, fun hm => hm.resolve_left fun e => ?_⟩
        exact new.1 (e ▸ loaded)
    · next new =>
      obtain ⟨orders₁, hy₁, faithful₁, loads₁⟩ := yields_loadOrder h faithful thread
      obtain ⟨targets, orders', yields, faithful', loads, mem⟩ :=
        yields_loadTargets h rest faithful₁
      have new : ¬ Loaded orders thread := new
      refine ⟨_, orders', yields_bind.mpr ⟨_, t, hy₁, yields_bind.mpr ⟨_, t, yields,
        yields_pure.mpr ⟨rfl, rfl⟩⟩⟩, faithful', fun other => ?_, fun target => ?_⟩
      · rw [loads, loads₁, List.mem_cons, or_assoc]
      · obtain ⟨other, id⟩ := target
        have here : (other, id) ∈ (s.keys.orderOf t thread).ids.map (fun id => (thread, id)) ↔
            other = thread ∧ (s.keys.orderOf t thread).contains id = true := by
          rw [OrderSnapshot.ids_eq_map, OrderSnapshot.contains_iff]
          grind
        rw [List.mem_append, here, mem, loads₁, List.mem_cons]
        by_cases e : other = thread
        · subst e
          simp [new]
        · simp [e]

end Store

/-! ## Where indexed tables come from -/

/-- Consistent tables are indexed, if all messages in them can be read. -/
theorem Contents.Consistent.indexed {k : Keyspace} {t : Tables} {tracking : Bool}
    (h : Consistent tracking (k.contents t))
    (decodes : ∀ {thread id r}, (k.contents t).record thread id = some r →
      (Message.ofRecord r).isOk = true) : k.Indexed t where
  housed hh := h.housed hh
  unique {thread other id} hh ho :=
    ((View.whole_iff fun _ hh => h.housed hh).mp (h.fine id).whole).1 thread other hh ho
  named {thread id x} hi hx := by
    obtain ⟨r, hr, hd⟩ := Option.bind_eq_some_iff.mp hx
    obtain ⟨_, _, _, y, rfl, rfl, hy⟩ := h.placed ((Keyspace.record_contents hi).trans hr)
    cases hx' : Message.ofRecord r with
    | error cause => exact absurd hd (by simp [hx', Except.toOption])
    | ok z =>
      obtain rfl : z = x := by simpa [hx', Except.toOption] using hd
      rw [hy.eq hx']
      exact ⟨rfl, rfl⟩
  listed thread := by
    have read {id : String} (hi : IsMessage id) :
        (k.message? t thread id).isSome ↔ k.stored t thread id ≠ none := by
      rw [Keyspace.message?]
      cases hr : k.stored t thread id with
      | none => simp
      | some r =>
        have ok := decodes ((Keyspace.record_contents hi).trans hr)
        cases hx : Message.ofRecord r with
        | ok x => simp [hx, Except.toOption]
        | error cause => exact absurd ok (by simp [hx, Except.isOk, Except.toBool])
    by_cases there : t.get? .threads (k.thread thread) = none
    · refine ⟨[], ?_, fun id => ⟨?_, ?_⟩⟩
      · rw [Keyspace.stored, ← Keyspace.order_eq_message, h.tables.closed thread there]
        rfl
      · rintro ⟨_, he, _⟩
        exact absurd he List.not_mem_nil
      · rintro ⟨hi, hx⟩
        have held := holds_contents.mpr ⟨hi, (read hi).mp hx⟩
        exact absurd there (h.housed held).2
    · obtain ⟨entries, he, _, mem⟩ := h.tables.ordered thread there
      refine ⟨entries, ?_, fun id => (mem id).trans (and_congr_right fun hi => (read hi).symm)⟩
      rwa [Keyspace.order_eq_message] at he

end ChatMemory
