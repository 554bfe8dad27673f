import ChatMemory.Proofs.Consistency
import ChatMemory.Proofs.Fetching
import Mathlib.Data.List.Basic

/-!
# Two ways to a page

The page of a single thread without filters is cut out of the order of the thread, and only its
messages are read. In all other cases all messages are read, filtered, sorted and cut. The two ways
give the same page, as long as each entry of the order is *backed* by a record that decodes and
carries the id of the entry and the thread.

The order holds the entries in ascending order. So the messages read for them are sorted already
(`Tells.arrange_messagesOf`), and what remains is that a slice of a list that was turned around is
the turned slice between other bounds (`slice_turn`).

A thread that is asked for twice is loaded once and always read in full. This tells the two ways
apart from outside.

## Main statements

* `collectPage_of_backed` — a page does not depend on the way.
* `answer_named_twice` — nor on whether the thread is named once or twice.
-/

namespace ChatMemory

open Action

namespace Store

/-! ## Listings in order -/

section Listings

variable {orders : Orders} {direction : SortDirection}

theorem listedBefore_ascending (orders : Orders) :
    listedBefore orders .ascending
      = Sorting.byRank (fun m => (scoreIn orders m).order) (·.id) := rfl

theorem listedBefore_descending (orders : Orders) (a b : Message) :
    listedBefore orders .descending a b = listedBefore orders .ascending b a := rfl

theorem listedBefore_trans (orders : Orders) (direction : SortDirection) (a b c : Message)
    (hab : listedBefore orders direction a b = true)
    (hbc : listedBefore orders direction b c = true) :
    listedBefore orders direction a c = true := by
  cases direction with
  | ascending =>
    rw [listedBefore_ascending] at *
    exact Sorting.byRank_trans _ _ a b c hab hbc
  | descending =>
    rw [listedBefore_descending, listedBefore_ascending] at *
    exact Sorting.byRank_trans _ _ c b a hbc hab

theorem listedBefore_total (orders : Orders) (direction : SortDirection) (a b : Message) :
    listedBefore orders direction a b = true ∨ listedBefore orders direction b a = true := by
  cases direction with
  | ascending =>
    rw [listedBefore_ascending]
    exact Sorting.byRank_total _ _ a b
  | descending =>
    rw [listedBefore_descending, listedBefore_descending, listedBefore_ascending]
    exact Sorting.byRank_total _ _ b a

theorem id_eq_of_listedBefore {a b : Message} (hab : listedBefore orders direction a b = true)
    (hba : listedBefore orders direction b a = true) : a.id = b.id := by
  cases direction with
  | ascending =>
    rw [listedBefore_ascending] at *
    exact Sorting.name_eq_of_byRank hab hba
  | descending =>
    rw [listedBefore_descending, listedBefore_ascending] at *
    exact Sorting.name_eq_of_byRank hba hab

/-- Among messages with different ids, no two may stand either way. -/
theorem listedBefore_antisymm {l : List Message} (different : l.Pairwise (·.id ≠ ·.id)) :
    ∀ a ∈ l, ∀ b ∈ l, listedBefore orders direction a b = true →
      listedBefore orders direction b a = true → a = b :=
  fun _ ha _ hb hab hba => eq_of_key_eq different ha hb (id_eq_of_listedBefore hab hba)

theorem pairwise_arrange (orders : Orders) (direction : SortDirection) (l : List Message) :
    (arrange orders direction l).Pairwise (·.id ≠ ·.id) :=
  (Sorting.sort_perm _ _).symm.pairwise (pairwise_distinctBy _ l) fun h => Ne.symm h

/-- Messages in order, with different ids, are left as they are. -/
theorem arrange_eq_self {l : List Message} (different : l.Pairwise (·.id ≠ ·.id))
    (sorted : l.Pairwise (listedBefore orders direction · ·)) :
    arrange orders direction l = l := by
  rw [arrange, distinctBy_eq_self different, Sorting.sort_eq_self sorted]

/-- A part of a listing is in order. -/
theorem arrange_of_sublist {l ms : List Message} (h : l.Sublist (arrange orders direction ms)) :
    arrange orders direction l = l := by
  have sorted := Sorting.pairwise_sort (listedBefore_trans orders direction)
    (listedBefore_total orders direction) (distinctBy (·.id) ms)
  exact arrange_eq_self ((pairwise_arrange orders direction ms).sublist h) (sorted.sublist h)

/-- It does not matter how the messages of a page are arranged before others are included. -/
theorem arrange_append_of_perm {l l' : List Message} (perm : l.Perm l')
    (different : l.Pairwise (·.id ≠ ·.id)) (included : List Message) :
    arrange orders direction (l ++ included) = arrange orders direction (l' ++ included) := by
  have different' : l'.Pairwise (·.id ≠ ·.id) := perm.pairwise different fun h => Ne.symm h
  refine Sorting.sort_eq_of_perm (listedBefore_trans _ _) (listedBefore_total _ _) ?_
    (listedBefore_antisymm (pairwise_distinctBy _ _))
  rw [distinctBy_append, distinctBy_append, distinctBy_eq_self different,
    distinctBy_eq_self different']
  simp only [(perm.map (·.id)).mem_iff]
  exact perm.append_right _

end Listings

end Store

/-! ## Slices -/

/-- A list in ascending order, put in a direction. -/
def SortDirection.turn {α : Type} (direction : SortDirection) (l : List α) : List α :=
  match direction with
  | .ascending => l
  | .descending => l.reverse

namespace Store

theorem turn_perm {α : Type} (direction : SortDirection) (l : List α) :
    (direction.turn l).Perm l := by
  cases direction with
  | ascending => exact .refl _
  | descending => exact List.reverse_perm l

theorem arrange_eq_turn (orders : Orders) (direction : SortDirection) (l : List Message) :
    arrange orders direction l = direction.turn (arrange orders .ascending l) := by
  cases direction with
  | ascending => rfl
  | descending =>
    exact Sorting.sort_swap (listedBefore_trans orders .ascending)
      (listedBefore_total orders .ascending) (listedBefore_antisymm (pairwise_distinctBy _ l))

/-- A slice of a turned list is a turned slice of the list. -/
theorem slice_turn {α : Type} (direction : SortDirection) (l : List α) (offset limit : Nat) :
    let bounds := windowBounds direction l.length offset limit
    ((direction.turn l).drop offset).take limit
      = direction.turn ((l.drop bounds.1).take (bounds.2 - bounds.1)) := by
  cases direction with
  | ascending =>
    refine List.take_eq_take_iff.mpr ?_
    simp only [SortDirection.turn, windowBounds, List.length_drop]
    omega
  | descending =>
    simp only [SortDirection.turn, windowBounds]
    rw [List.drop_reverse, List.take_reverse, ← List.drop_take, List.length_take]
    congr 2
    omega

theorem windowBounds_le (direction : SortDirection) (total offset limit : Nat) :
    (windowBounds direction total offset limit).2 ≤ total := by
  cases direction with
  | ascending => exact Nat.min_le_right _ _
  | descending => exact Nat.sub_le _ _

/-- The ids between two positions of an order. -/
theorem idsBetween_eq {order : OrderSnapshot} {bounds : Nat × Nat} (h : bounds.2 ≤ order.length) :
    idsBetween order bounds
      = ((order.entries.drop bounds.1).take (bounds.2 - bounds.1)).map (·.id) := by
  unfold idsBetween
  split
  · next hlt =>
    have first : ¬ ((bounds.1 : Int) < 0) := by omega
    have last : ¬ ((bounds.2 : Int) - 1 < 0) := by omega
    simp only [OrderSnapshot.range, if_neg first, if_neg last]
    rw [if_neg (by omega), Int.toNat_natCast]
    congr 2
    omega
  · next hlt =>
    rw [Nat.sub_eq_zero_of_le (Nat.not_lt.mp hlt), List.take_zero, List.map_nil]

end Store

/-! ## Backed orders -/

namespace Keyspace

variable {k : Keyspace} {t : Tables} {thread : String} {entries : List OrderEntry}

/-- Each entry has a record in the thread that decodes and carries the id and the thread. -/
def Backs (k : Keyspace) (t : Tables) (thread : String) (entries : List OrderEntry) : Prop :=
  ∀ e ∈ entries, ∃ x, k.message? t thread e.id = some x ∧ x.id = e.id ∧ x.threadId = thread

/-- All entries of the order of a thread are backed by records. This says nothing about a thread
whose order does not decode. -/
def Backed (k : Keyspace) (t : Tables) (thread : String) : Prop :=
  ∀ entries, OrderEntry.ofStored (k.stored t thread orderField) = .ok entries →
    k.Backs t thread entries

instance (k : Keyspace) (t : Tables) (thread : String) (entries : List OrderEntry) :
    Decidable (k.Backs t thread entries) :=
  decidable_of_iff (∀ e ∈ entries, (k.message? t thread e.id).any
    fun x => decide (x.id = e.id ∧ x.threadId = thread)) <|
    forall₂_congr fun _ _ => by simp [Option.any_eq_true]

instance (k : Keyspace) (t : Tables) (thread : String) : Decidable (k.Backed t thread) :=
  match h : OrderEntry.ofStored (k.stored t thread orderField) with
  | .ok entries => decidable_of_iff (k.Backs t thread entries) <| by simp [Backed, h]
  | .error _ => .isTrue <| by simp [Backed, h]

/-- What is read for an entry, if anything, carries the id of the entry and the thread. -/
def Tells (k : Keyspace) (t : Tables) (thread : String) (entries : List OrderEntry) : Prop :=
  ∀ e ∈ entries, ∀ x, k.message? t thread e.id = some x → x.id = e.id ∧ x.threadId = thread

/-- The messages that are read for some entries of the order of a thread. -/
def messagesOf (k : Keyspace) (t : Tables) (thread : String) (entries : List OrderEntry) :
    List Message := entries.filterMap fun e => k.message? t thread e.id

namespace Backs

theorem tells (h : k.Backs t thread entries) : k.Tells t thread entries := by
  intro e he x hx
  obtain ⟨y, hy, told⟩ := h e he
  obtain rfl := Option.some.inj (hx.symm.trans hy)
  exact told

theorem ofEntries (h : k.Backs t thread entries) :
    k.Backs t thread (OrderSnapshot.ofEntries entries).entries :=
  fun e he => h e ((distinctBy_sublist _ entries).subset (Sorting.mem_sort.mp he))

/-- There is a message for each entry, in the order of the entries. -/
theorem map_messagesOf : ∀ {entries : List OrderEntry}, k.Backs t thread entries →
    entries.map (fun e => k.message? t thread e.id) = (k.messagesOf t thread entries).map some
  | [], _ => rfl
  | e :: es, h => by
    obtain ⟨⟨x, hx, _⟩, hes⟩ := List.forall_mem_cons.mp h
    have head : k.messagesOf t thread (e :: es) = x :: k.messagesOf t thread es :=
      List.filterMap_cons_some hx
    rw [head, List.map_cons, List.map_cons, hx, map_messagesOf hes]

theorem length_messagesOf (h : k.Backs t thread entries) :
    (k.messagesOf t thread entries).length = entries.length := by
  simpa using (congrArg List.length h.map_messagesOf).symm

/-- The messages of a slice of the entries are the slice of the messages. -/
theorem messagesOf_slice (h : k.Backs t thread entries) (a n : Nat) :
    k.messagesOf t thread ((entries.drop a).take n)
      = ((k.messagesOf t thread entries).drop a).take n := by
  have slice (l : List OrderEntry) :
      k.messagesOf t thread l = (l.map fun e => k.message? t thread e.id).filterMap id := by
    rw [List.filterMap_map]
    rfl
  rw [slice, List.map_take, List.map_drop, h.map_messagesOf, ← List.map_drop, ← List.map_take,
    List.filterMap_map]
  exact List.filterMap_some

end Backs

namespace Tells

theorem threadId_eq (h : k.Tells t thread entries) :
    ∀ x ∈ k.messagesOf t thread entries, x.threadId = thread := by
  intro x hx
  obtain ⟨e, he, hex⟩ := List.mem_filterMap.mp hx
  exact (h e he x hex).2

/-- What holds of two entries one after the other holds of their messages. -/
theorem pairwise_messagesOf {r : Message → Message → Prop} {r' : OrderEntry → OrderEntry → Prop}
    (h : k.Tells t thread entries) (sorted : entries.Pairwise r')
    (keeps : ∀ e ∈ entries, ∀ e' ∈ entries, r' e e' → ∀ x x' : Message, x.id = e.id →
      x'.id = e'.id → x.threadId = thread → x'.threadId = thread → r x x') :
    (k.messagesOf t thread entries).Pairwise r := by
  rw [messagesOf, List.pairwise_filterMap]
  refine sorted.imp_of_mem fun {e e'} he he' hr x hx x' hx' => ?_
  obtain ⟨hid, ht⟩ := h e he x hx
  obtain ⟨hid', ht'⟩ := h e' he' x' hx'
  exact keeps e he e' he' hr x x' hid hid' ht ht'

/-- The messages of an order are listed in the order of their entries. -/
theorem arrange_messagesOf {order : OrderSnapshot} (h : k.Tells t thread order.entries)
    (tidy : OrderSnapshot.Tidy order.entries) :
    Store.arrange [(thread, order)] .ascending (k.messagesOf t thread order.entries)
      = k.messagesOf t thread order.entries := by
  have score (e : OrderEntry) (he : e ∈ order.entries) (x : Message) (hid : x.id = e.id)
      (ht : x.threadId = thread) : Store.scoreIn [(thread, order)] x = e.score := by
    have scored : order.score? e.id = some e.score :=
      (OrderSnapshot.score?_eq_some_iff tidy.2).mpr he
    simp only [Store.scoreIn, ht, List.lookup_cons_self, Option.bind_some, hid, scored,
      Option.getD_some]
  refine Store.arrange_eq_self (h.pairwise_messagesOf tidy.2 ?_) (h.pairwise_messagesOf tidy.1 ?_)
  · intro e _ e' _ hne x x' hid hid' _ _
    rwa [hid, hid']
  · intro e he e' he' before x x' hid hid' ht ht'
    rw [Store.listedBefore_ascending]
    refine Sorting.byRank_iff.mpr ?_
    rw [score e he x hid ht, score e' he' x' hid' ht', hid, hid']
    exact before.imp id fun ⟨same, lt⟩ => ⟨same, Std.le_of_lt lt⟩

end Tells

end Keyspace

/-! ## Windows -/

namespace Store

variable {s : Store} {t : Tables} {q : MessageQuery} {thread : String}

/-- The messages that are read for an order. -/
theorem yields_fetchMany_entries (s : Store) (t : Tables) (thread : String)
    (entries : List OrderEntry) :
    (s.fetchMany ((entries.map (·.id)).map fun id => (thread, id))).Yields t
      (s.keys.messagesOf t thread entries) t := by
  have fetched := s.yields_fetchMany t ((entries.map (·.id)).map fun id => (thread, id))
  rwa [List.filterMap_map, List.filterMap_map] at fetched

/-- The page of a single thread on the longer way. -/
theorem filteredWindow_single (single : q.threadIds = [thread]) :
    s.filteredWindow q = (do
      let order ← OrderIndex.snapshot s.keys thread
      let messages ← s.fetchMany (order.ids.map fun id => (thread, id))
      let sorted := arrange [(thread, order)] q.order (messages.filter q.matches?)
      return (⟨q.perPage.slice q.page sorted, sorted.length⟩, [(thread, order)])) := by
  simp [filteredWindow, loadTargets, loadOrder, single]

/-- Without filters all messages of the thread are asked for. -/
theorem filter_matches_eq_self {l : List Message} (named : thread ∈ q.threadIds)
    (plain : q.hasFilters = false) (h : ∀ x ∈ l, x.threadId = thread) :
    l.filter q.matches? = l := by
  simp only [MessageQuery.hasFilters, Bool.or_eq_false_iff, Option.isSome_eq_false_iff,
    Option.isNone_iff_eq_none] at plain
  refine List.filter_eq_self.mpr fun x hx => ?_
  simp [MessageQuery.matches?, plain, h x hx, named]

/--
Both ways give a window over the same order and with the same total. The messages are the same, the
shorter way has them in ascending order in any case.
-/
theorem windows_of_order {order : OrderSnapshot} {limit : Nat}
    (backs : s.keys.Backs t thread order.entries) (tidy : OrderSnapshot.Tidy order.entries)
    (loaded : (OrderIndex.snapshot s.keys thread).Yields t order t)
    (single : q.threadIds = [thread]) (plain : q.hasFilters = false)
    (size : q.perPage = .limit limit) :
    ∃ short long : Window,
      (s.indexedWindow q thread limit).Yields t (short, [(thread, order)]) t ∧
      (s.filteredWindow q).Yields t (long, [(thread, order)]) t ∧
      short.total = long.total ∧ short.messages.Perm long.messages ∧
      short.messages.Pairwise (·.id ≠ ·.id) := by
  have all := s.yields_fetchMany_entries t thread order.entries
  have cut := s.yields_fetchMany_entries t thread
  generalize hl : s.keys.messagesOf t thread order.entries = l at all
  have listed : arrange [(thread, order)] .ascending l = l := hl ▸ backs.tells.arrange_messagesOf tidy
  have length : l.length = order.length := hl ▸ backs.length_messagesOf
  have matching : l.filter q.matches? = l :=
    filter_matches_eq_self (by simp [single]) plain (hl ▸ backs.tells.threadId_eq)
  let offset := q.perPage.offset q.page
  let bounds := windowBounds q.order order.length offset limit
  let page := (l.drop bounds.1).take (bounds.2 - bounds.1)
  have slice : q.perPage.slice q.page (q.order.turn l) = q.order.turn page := by
    rw [size, PageSize.slice, slice_turn, length, ← size]
  refine ⟨⟨page, order.length⟩, ⟨q.order.turn page, order.length⟩, ?_, ?_, rfl,
    (turn_perm _ _).symm, ?_⟩
  · refine yields_bind.mpr ⟨order, t, loaded, yields_bind.mpr ⟨page, t, ?_, ?_⟩⟩
    case refine_2 => exact yields_pure.mpr ⟨rfl, rfl⟩
    rw [idsBetween_eq (windowBounds_le ..)]
    have fetched := cut ((order.entries.drop bounds.1).take (bounds.2 - bounds.1))
    rwa [backs.messagesOf_slice, hl] at fetched
  · rw [filteredWindow_single single]
    refine yields_bind.mpr ⟨order, t, loaded, yields_bind.mpr ⟨l, t, ?_, ?_⟩⟩
    · rwa [OrderSnapshot.ids_eq_map]
    · refine yields_pure.mpr ⟨?_, rfl⟩
      rw [matching, arrange_eq_turn, listed, slice, (turn_perm _ _).length_eq, length]
  · have different := pairwise_arrange [(thread, order)] .ascending l
    rw [listed] at different
    exact different.sublist ((List.take_sublist _ _).trans (List.drop_sublist _ _))

/-! ## Pages -/

/-- The answer to a question from a window on. -/
def pageFrom (s : Store) (q : MessageQuery) (opened : Window × Orders) : Action MessagePage := do
  let (targets, orders) ← s.includeTargets q opened.2 q.includes
  let included ← s.fetchMany (distinct targets)
  let selected := arrange orders q.order (opened.1.messages ++ included)
  return ⟨selected, opened.1.total, q.page, q.perPage, hasMore q opened.1 selected⟩

theorem collectPage_eq (s : Store) (q : MessageQuery) :
    s.collectPage q = s.window q >>= s.pageFrom q := rfl

/-- How the messages of a window are arranged makes no difference to the answer. -/
theorem pageFrom_of_perm {w w' : Window} (orders : Orders) (total : w.total = w'.total)
    (perm : w.messages.Perm w'.messages) (different : w.messages.Pairwise (·.id ≠ ·.id)) :
    s.pageFrom q (w, orders) = s.pageFrom q (w', orders) := by
  refine bind_congr fun found => bind_congr fun included => ?_
  dsimp only
  rw [arrange_append_of_perm perm different, hasMore, hasMore, total, perm.length_eq]

/-- The page of backed threads is the one that is found by reading all messages. -/
theorem collectPage_of_backed (s : Store) (t : Tables) (q : MessageQuery)
    (backed : ∀ thread ∈ q.threadIds, s.keys.Backed t thread) :
    ((s.collectPage q).outcome t).1 = ((s.filteredWindow q >>= s.pageFrom q).outcome t).1 := by
  rw [collectPage_eq]
  unfold window
  split
  · next limit thread size single =>
    split
    · rfl
    · next plain =>
      -- Without an order to start from, both ways end with the same error.
      cases loaded : (OrderIndex.snapshot s.keys thread).outcome t with
      | mk result t' =>
      obtain rfl : t' = t := by simpa [loaded] using (s.reads_snapshot thread).tables t
      cases result with
      | error error =>
        rw [filteredWindow_single single, indexedWindow]
        simp only [outcome_bind, loaded]
      | ok order =>
        obtain ⟨_, entries, he, rfl⟩ := OrderIndex.yields_snapshot.mp loaded
        have backs := (backed thread (by simp [single]) entries he).ofEntries
        obtain ⟨short, long, hs, hl, total, perm, different⟩ := windows_of_order backs
          (OrderSnapshot.tidy_ofEntries entries) loaded single (by simpa using plain) size
        rw [outcome_bind, outcome_bind, hs, hl]
        dsimp only
        rw [pageFrom_of_perm _ total perm different]
  · rfl

/-! ## A thread that is named twice -/

section Twice

variable {orders : Orders}

/-- Loading another order leaves those that are loaded. -/
theorem loadOrder_bind_congr {β : Type} (s : Store) (other : String)
    {f g : OrderSnapshot × Orders → Action β} (loaded : (orders.lookup thread).isSome)
    (h : ∀ order orders', (orders'.lookup thread).isSome →
      f (order, orders') = g (order, orders')) :
    s.loadOrder orders other >>= f = s.loadOrder orders other >>= g := by
  unfold loadOrder
  split
  · exact h _ _ loaded
  · rw [bind_assoc, bind_assoc]
    refine bind_congr fun order => h _ _ ?_
    rw [List.lookup_append, Option.isSome_or, loaded, Bool.true_or]

/-- When the only thread asked for is loaded, its order tells whether it indexes a message. -/
theorem firstIndexing_of_loaded (s : Store) {order : OrderSnapshot}
    (loaded : orders.lookup thread = some order) (message : String) : ∀ {threads : List String},
      (∀ x ∈ threads, x = thread) → threads ≠ [] → s.firstIndexing orders message threads
        = return (if order.contains message then some thread else none, orders)
  | [x], only, _ => by
    rw [firstIndexing, only x List.mem_cons_self, loadOrder, loaded]
    simp only [pure_bind, firstIndexing]
    split <;> rfl
  | x :: y :: rest, only, _ => by
    have only' : ∀ z ∈ y :: rest, z = thread := fun z hz => only z (List.mem_cons_of_mem _ hz)
    have later := firstIndexing_of_loaded s loaded message only' (List.cons_ne_nil y rest)
    rw [firstIndexing, only x List.mem_cons_self, loadOrder, loaded]
    simp only [pure_bind, later]
    split <;> rfl

/-- The thread of a message to be included, once the order of the only thread is loaded. -/
theorem includeThread_of_loaded (s : Store) {order : OrderSnapshot}
    (loaded : orders.lookup thread = some order) (only : ∀ x ∈ q.threadIds, x = thread)
    (some_thread : q.threadIds ≠ []) (r : IncludeRequest) :
    s.includeThread q orders r = (match r.threadId with
      | some other => return some other
      | none => if order.contains r.id then return some thread else s.findMessage r.id :
        Action (Option String)) >>= fun found => return (found, orders) := by
  unfold includeThread
  cases r.threadId with
  | some other => rfl
  | none =>
    dsimp only
    rw [s.firstIndexing_of_loaded loaded r.id only some_thread, pure_bind]
    cases order.contains r.id <;> rfl

theorem includeTargets_twice (s : Store) (single : q.threadIds = [thread]) :
    ∀ (requests : List IncludeRequest) (orders : Orders), (orders.lookup thread).isSome →
      s.includeTargets { q with threadIds := [thread, thread] } orders requests
        = s.includeTargets q orders requests
  | [], _, _ => rfl
  | r :: rest, orders, loaded => by
    obtain ⟨order, ho⟩ := Option.isSome_iff_exists.mp loaded
    rw [includeTargets, includeTargets, s.includeThread_of_loaded ho (by simp) (by simp),
      s.includeThread_of_loaded ho (by simp [single]) (by simp [single]), bind_assoc, bind_assoc]
    refine bind_congr fun found => ?_
    cases found with
    | none => exact includeTargets_twice s single rest orders loaded
    | some other =>
      refine s.loadOrder_bind_congr other loaded fun _ orders' loaded' => ?_
      exact congrArg (· >>= _) (includeTargets_twice s single rest orders' loaded')

theorem matches_twice (single : q.threadIds = [thread]) :
    ({ q with threadIds := [thread, thread] } : MessageQuery).matches? = q.matches? := by
  funext m
  simp [MessageQuery.matches?, single]

/-- Named twice, a thread is loaded once and read in full. -/
theorem collectPage_twice (s : Store) (single : q.threadIds = [thread]) :
    s.collectPage { q with threadIds := [thread, thread] }
      = s.filteredWindow q >>= s.pageFrom q := by
  have window : s.window { q with threadIds := [thread, thread] }
      = s.filteredWindow { q with threadIds := [thread, thread] } := by
    cases hq : q.perPage <;> simp [Store.window]
  have filtered : s.filteredWindow { q with threadIds := [thread, thread] }
      = s.filteredWindow q := by
    simp [filteredWindow, loadTargets, loadOrder, single, matches_twice single]
  rw [collectPage_eq, window, filtered, filteredWindow_single single]
  simp only [bind_assoc, pure_bind]
  refine bind_congr fun order => bind_congr fun messages => ?_
  simp only [pageFrom]
  rw [s.includeTargets_twice single _ _ (by simp)]
  refine bind_congr fun found => bind_congr fun included => ?_
  simp only [hasMore, matches_twice single]

theorem valid_twice (single : q.threadIds = [thread]) (valid : q.Valid) :
    ({ q with threadIds := [thread, thread] } : MessageQuery).Valid := by
  obtain ⟨page, checks⟩ := valid
  refine ⟨page, ?_⟩
  simp only [queryViolations, single, itemViolations, List.zipIdx_cons, List.zipIdx_nil,
    List.flatMap_cons, List.flatMap_nil, List.isEmpty_cons, List.append_eq_nil_iff,
    Identifier.violations_eq_nil] at checks ⊢
  grind

end Twice

/--
A question about one thread has the same answer if the thread is named twice: the same page of
messages, the same total and the same word on whether there are more. Named once, a page without
filters is cut out of the order, named twice, it is cut out of all messages.
-/
theorem answer_named_twice (s : Store) (w : World) (q : MessageQuery)
    (single : q.threadIds = [thread]) (valid : q.Valid)
    (backed : s.keys.Backed w.tables thread) :
    ∃ page, s.answer w q = .ok page ∧
      s.answer w { q with threadIds := [thread, thread] } = .ok page := by
  refine ⟨_, answer_eq valid, ?_⟩
  rw [answer_eq (valid_twice single valid), s.collectPage_twice single,
    ← s.collectPage_of_backed w.tables q (by simpa [single] using backed)]
  rfl

end Store

namespace Sample

/-- A thread with three messages. -/
def three : World :=
  ((store false).performAll Faults.none [(now, .saveThread (.create now "a" "r")),
    (now, .saveMessages (["m", "n", "o"].map fun id => .user now id "a" "r" "text"))]
    World.initial).2

/-- The second page from the end, and one more message. -/
def secondPage : MessageQuery where
  threadIds := ["a"]
  includes := [{ id := "n" }]
  page := 1
  perPage := .limit 2
  order := .descending

end Sample

namespace Store

theorem second_page_named_twice :
    Sample.secondPage.threadIds = ["a"] ∧ Sample.secondPage.Valid ∧
      (Sample.store false).keys.Backed Sample.three.tables "a" ∧
      ∃ page, (Sample.store false).answer Sample.three Sample.secondPage = .ok page ∧
        (Sample.store false).answer Sample.three { Sample.secondPage with threadIds := ["a", "a"] }
          = .ok page := by
  have valid : Sample.secondPage.Valid := by decide +kernel
  have backed : (Sample.store false).keys.Backed Sample.three.tables "a" := by decide +kernel
  exact ⟨rfl, valid, backed,
    answer_named_twice (Sample.store false) Sample.three Sample.secondPage rfl valid backed⟩

-- The included message comes in its place.
example : ((Sample.store false).answer Sample.three Sample.secondPage).toOption.map
    (fun page => (page.messages.map (·.id), page.total, page.hasMore))
      = some (["n", "m"], 3, false) := by decide +kernel

end Store

end ChatMemory
