import ChatMemory.Proofs.Indexed
import Mathlib.Data.List.Nodup
import Mathlib.Data.List.Perm.Subperm

/-!
# Included messages

A page with included messages is the page without them, joined with the neighbourhoods of the messages
that the includes name. Neighbourhoods may overlap each other and the page, and may be in threads that
are not asked for; since a message is told by its id, each comes once all the same. All are listed by
their places in the orders of their own threads, so it makes no difference in which order the includes
are given, and which orders have been loaded before.

Whether there are more messages is told by counting: the answer has each message at most once, so it
has all that are asked for just if it has as many (`hasMore_iff`).

## Main statements

* `yields_includeTargets` — what is fetched for the includes.
* `yields_pageFrom_window` — the page that is made of a window and the includes.
* `include_windows` — a page with included messages.
-/

namespace ChatMemory

open Action

/-! ## What is asked for -/

/-- The thread to include from: the one that is given, else the one that has the message. -/
def IncludeRequest.Targets (r : IncludeRequest) (c : Contents) (thread : String) : Prop :=
  match r.threadId with
  | some given => thread = given
  | none => c.Holds thread r.id

/-- An include that keeps the rules for identifiers. -/
def IncludeRequest.Valid (r : IncludeRequest) : Prop :=
  Identifier.ValidMessage r.id ∧ ∀ given, r.threadId = some given → Identifier.Valid given

namespace Keyspace

variable {k : Keyspace} {t : Tables} {x y : Message}

/-- The message is stored near the one that an include names, in the thread to include from. -/
def Included (k : Keyspace) (t : Tables) (r : IncludeRequest) (x : Message) : Prop :=
  k.Stores t x ∧ r.Targets (k.contents t) x.threadId ∧
    r.Reaches (k.orderOf t x.threadId) x.id

/-- The first message stands before the second, by the scores that the orders of their threads give
them, then by id. -/
def Earlier (k : Keyspace) (t : Tables) (x y : Message) : Prop :=
  ∃ a b, (k.orderOf t x.threadId).score? x.id = some a ∧
    (k.orderOf t y.threadId).score? y.id = some b ∧ OrderSnapshot.Before ⟨x.id, a⟩ ⟨y.id, b⟩

theorem Earlier.asymm (h : k.Earlier t x y) : ¬ k.Earlier t y x := by
  obtain ⟨a, b, ha, hb, before⟩ := h
  rintro ⟨b', a', hb', ha', after⟩
  obtain rfl := Option.some.inj (ha.symm.trans ha')
  obtain rfl := Option.some.inj (hb.symm.trans hb')
  rcases before with lt | ⟨same, lt⟩ <;> rcases after with gt | ⟨same', gt⟩
  · exact absurd gt (Int.lt_asymm lt)
  · exact absurd same'.symm (Int.ne_of_lt lt)
  · exact absurd same.symm (Int.ne_of_lt gt)
  · exact absurd gt (String.lt_asymm lt)

end Keyspace

/--
A page is the given one with the messages that the includes of a question add, each once, in the order
of the listing. It has more only if later pages have messages of which one is missing.
-/
structure MessagePage.Completes (page : MessagePage) (k : Keyspace) (t : Tables) (q : MessageQuery)
    (base : MessagePage) : Prop where
  /-- The messages are those of the given page and those near the ones that the includes name. -/
  members : ∀ x, x ∈ page.messages ↔ x ∈ base.messages ∨ ∃ r ∈ q.includes, k.Included t r x
  once : (page.messages.map (·.id)).Nodup
  /-- Turned round if the listing is descending, the messages are in strictly ascending order. -/
  sorted : (q.order.turn page.messages).Pairwise (k.Earlier t)
  total : page.total = base.total
  number : page.page = q.page
  size : page.perPage = q.perPage
  more : page.hasMore = true ↔
    (∃ n, q.perPage = .limit n ∧ (q.page.toNat + 1) * n < base.total) ∧
      ∃ x, k.Stores t x ∧ q.matches? x = true ∧ x ∉ page.messages

namespace Store

variable {s : Store} {t : Tables} {q : MessageQuery} {orders : Orders} {l : List Message}

/-! ## Includes -/

/-- The first thread that indexes a message has it. -/
theorem yields_firstIndexing (h : s.keys.Indexed t) (id : String) :
    ∀ (threads : List String) {orders : Orders}, Faithful s.keys t orders → ∃ found orders',
      (s.firstIndexing orders id threads).Yields t (found, orders') t ∧
      Faithful s.keys t orders' ∧ (∀ other, Loaded orders other → Loaded orders' other) ∧
      ∀ thread, found = some thread → (s.keys.orderOf t thread).contains id = true
  | [], orders, faithful =>
    ⟨none, orders, yields_pure.mpr ⟨rfl, rfl⟩, faithful, fun _ hl => hl, by simp⟩
  | thread :: rest, orders, faithful => by
    obtain ⟨orders₁, hy₁, faithful₁, loads₁⟩ := yields_loadOrder h faithful thread
    have keeps₁ : ∀ other, Loaded orders other → Loaded orders₁ other := fun other hl =>
      (loads₁ other).mpr (Or.inl hl)
    by_cases hc : (s.keys.orderOf t thread).contains id = true
    · refine ⟨some thread, orders₁, yields_bind.mpr ⟨_, t, hy₁, ?_⟩, faithful₁, keeps₁, ?_⟩
      · exact yields_ite.mpr (Or.inl ⟨hc, yields_pure.mpr ⟨rfl, rfl⟩⟩)
      · rintro _ ⟨⟩
        exact hc
    · obtain ⟨found, orders', yields, faithful', keeps, indexes⟩ :=
        yields_firstIndexing h id rest faithful₁
      refine ⟨found, orders', yields_bind.mpr ⟨_, t, hy₁, ?_⟩, faithful',
        fun other hl => keeps other (keeps₁ other hl), indexes⟩
      exact yields_ite.mpr (Or.inr ⟨hc, yields⟩)

/-- The thread to include from is found. -/
theorem yields_includeThread (h : s.keys.Indexed t) (faithful : Faithful s.keys t orders)
    {r : IncludeRequest} (hi : IsMessage r.id) : ∃ found orders',
      (s.includeThread q orders r).Yields t (found, orders') t ∧ Faithful s.keys t orders' ∧
      (∀ other, Loaded orders other → Loaded orders' other) ∧
      ∀ thread, found = some thread ↔ r.Targets (s.keys.contents t) thread := by
  unfold includeThread IncludeRequest.Targets
  cases r.threadId with
  | some given =>
    exact ⟨some given, orders, yields_pure.mpr ⟨rfl, rfl⟩, faithful, fun _ hl => hl,
      fun thread => by simp [eq_comm]⟩
  | none =>
    obtain ⟨found, orders₁, hy₁, faithful₁, keeps₁, indexes⟩ :=
      yields_firstIndexing h r.id q.threadIds faithful
    cases found with
    | some thread =>
      refine ⟨some thread, orders₁, yields_bind.mpr ⟨_, t, hy₁, yields_pure.mpr ⟨rfl, rfl⟩⟩,
        faithful₁, keeps₁, fun other => ?_⟩
      obtain ⟨x, hx, rfl, hid⟩ := h.contains_orderOf.mp (indexes thread rfl)
      have held := hid ▸ hx.holds
      rw [Option.some.injEq]
      exact ⟨fun e => e ▸ held, fun hh => h.unique held hh⟩
    | none =>
      obtain ⟨found, hy₂, finds⟩ := yields_findMessage (s := s) hi (fun _ hh => h.housed hh)
        fun _ _ hh ho => h.unique hh ho
      exact ⟨found, orders₁, yields_bind.mpr ⟨_, t, hy₁, yields_bind.mpr ⟨found, t, hy₂,
        yields_pure.mpr ⟨rfl, rfl⟩⟩⟩, faithful₁, keeps₁, finds⟩

/-- For each include the neighbours of its message are fetched, from an order that is loaded. -/
theorem yields_includeTargets (h : s.keys.Indexed t) :
    ∀ (requests : List IncludeRequest) {orders : Orders}, Faithful s.keys t orders →
      (∀ r ∈ requests, IsMessage r.id) → ∃ targets orders',
        (s.includeTargets q orders requests).Yields t (targets, orders') t ∧
        Faithful s.keys t orders' ∧ (∀ other, Loaded orders other → Loaded orders' other) ∧
        (∀ target ∈ targets, Loaded orders' target.1) ∧
        ∀ target, target ∈ targets ↔ ∃ r ∈ requests,
          r.Targets (s.keys.contents t) target.1 ∧
            r.Reaches (s.keys.orderOf t target.1) target.2
  | [], orders, faithful, _ =>
    ⟨[], orders, yields_pure.mpr ⟨rfl, rfl⟩, faithful, fun _ hl => hl, by simp, by simp⟩
  | r :: rest, orders, faithful, hi => by
    obtain ⟨hr, hi⟩ := List.forall_mem_cons.mp hi
    obtain ⟨found, orders₁, hy₁, faithful₁, keeps₁, targets_iff⟩ :=
      yields_includeThread (q := q) h faithful hr
    cases found with
    | none =>
      obtain ⟨targets, orders', yields, faithful', keeps, loaded, mem⟩ :=
        yields_includeTargets h rest faithful₁ hi
      refine ⟨targets, orders', yields_bind.mpr ⟨_, t, hy₁, yields⟩, faithful',
        fun other hl => keeps other (keeps₁ other hl), loaded, fun target => ?_⟩
      rw [mem, List.exists_mem_cons_iff]
      refine (or_iff_right fun ⟨ht, _⟩ => ?_).symm
      exact absurd ((targets_iff _).mpr ht) (by simp)
    | some thread =>
      obtain ⟨orders₂, hy₂, faithful₂, loads₂⟩ := yields_loadOrder h faithful₁ thread
      obtain ⟨targets, orders', yields, faithful', keeps, loaded, mem⟩ :=
        yields_includeTargets h rest faithful₂ hi
      have here : Loaded orders' thread := keeps thread ((loads₂ thread).mpr (Or.inr rfl))
      refine ⟨_, orders', yields_bind.mpr ⟨_, t, hy₁, yields_bind.mpr ⟨_, t, hy₂,
        yields_bind.mpr ⟨_, t, yields, yields_pure.mpr ⟨rfl, rfl⟩⟩⟩⟩, faithful',
        fun other hl => keeps other ((loads₂ other).mpr (Or.inl (keeps₁ other hl))), ?_, ?_⟩
      · intro target hm
        rcases List.mem_append.mp hm with hm | hm
        · obtain ⟨id, _, rfl⟩ := List.mem_map.mp hm
          exact here
        · exact loaded target hm
      · rintro ⟨other, id⟩
        have only : thread = other ↔ r.Targets (s.keys.contents t) other := by
          rw [← targets_iff, Option.some.injEq]
        have tidy := (s.keys.tidy_orderOf t thread).2
        rw [List.mem_append, mem, List.exists_mem_cons_iff, List.mem_map, ← only]
        refine or_congr_left ⟨?_, ?_⟩
        · rintro ⟨_, hn, ⟨⟩⟩
          exact ⟨rfl, (mem_neighbours tidy).mp hn⟩
        · rintro ⟨rfl, reaches⟩
          exact ⟨id, (mem_neighbours tidy).mpr reaches, rfl⟩

/-! ## Arranging stored messages -/

theorem mem_arrange (h : s.keys.Indexed t) (stored : ∀ x ∈ l, s.keys.Stores t x)
    (direction : SortDirection) {x : Message} : x ∈ arrange orders direction l ↔ x ∈ l := by
  rw [arrange, Sorting.mem_sort]
  refine ⟨fun hx => (distinctBy_sublist _ l).subset hx, fun hx => ?_⟩
  have kept : ∃ y ∈ distinctBy (·.id) l, y.id = x.id := exists_key_distinctBy.mpr ⟨x, hx, rfl⟩
  obtain ⟨y, hy, same⟩ := kept
  exact h.eq_of_id (stored y ((distinctBy_sublist _ l).subset hy)) (stored x hx) same ▸ hy

/-- Stored messages of loaded orders are listed by their places in the orders of their threads. -/
theorem pairwise_turn_arrange (h : s.keys.Indexed t) (faithful : Faithful s.keys t orders)
    (direction : SortDirection)
    (stored : ∀ x ∈ l, s.keys.Stores t x ∧ Loaded orders x.threadId) :
    (direction.turn (arrange orders direction l)).Pairwise (s.keys.Earlier t) := by
  have turned : direction.turn (arrange orders direction l) = arrange orders .ascending l := by
    cases direction with
    | ascending => rfl
    | descending => rw [arrange_eq_turn orders .descending]; exact List.reverse_reverse _
  have sorted : (arrange orders .ascending l).Pairwise (listedBefore orders .ascending · ·) :=
    Sorting.pairwise_sort (listedBefore_trans orders .ascending)
      (listedBefore_total orders .ascending) _
  rw [turned]
  refine (sorted.and (pairwise_arrange orders .ascending l)).imp_of_mem ?_
  intro x y hx hy ⟨before, apart⟩
  obtain ⟨hx, loadedx⟩ := stored x ((mem_arrange h (fun x hx => (stored x hx).1) _).mp hx)
  obtain ⟨hy, loadedy⟩ := stored y ((mem_arrange h (fun x hx => (stored x hx).1) _).mp hy)
  obtain ⟨a, ha⟩ := h.exists_score hx
  obtain ⟨b, hb⟩ := h.exists_score hy
  rw [listedBefore_ascending] at before
  have before := Sorting.byRank_iff.mp before
  rw [scoreIn_of_loaded faithful loadedx ha, scoreIn_of_loaded faithful loadedy hb] at before
  refine ⟨a, b, ha, hb, before.imp id fun ⟨same, le⟩ => ⟨same, ?_⟩⟩
  exact Std.lt_of_le_of_ne le apart

theorem nodup_of_ids {l : List Message} (h : (l.map (·.id)).Nodup) : l.Nodup :=
  List.Nodup.of_map _ h

/-- Two listings of the same messages are the same. -/
theorem eq_of_members {k : Keyspace} {direction : SortDirection} {l l' : List Message}
    (sorted : (direction.turn l).Pairwise (k.Earlier t))
    (sorted' : (direction.turn l').Pairwise (k.Earlier t)) (once : (l.map (·.id)).Nodup)
    (once' : (l'.map (·.id)).Nodup) (members : ∀ x, x ∈ l ↔ x ∈ l') : l = l' := by
  have perm : l.Perm l' :=
    (List.perm_ext_iff_of_nodup (nodup_of_ids once) (nodup_of_ids once')).mpr members
  have turned : direction.turn l = direction.turn l' :=
    ((turn_perm direction l).trans (perm.trans (turn_perm direction l').symm)).eq_of_pairwise
      (fun _ _ _ _ h h' => absurd h' h.asymm) sorted sorted'
  cases direction with
  | ascending => exact turned
  | descending => exact List.reverse_injective turned

/-! ## More pages -/

/--
There is more if a later page has messages and the answer lacks one of those that are asked for: it has
none of them twice, so it lacks none just if it has as many.
-/
theorem hasMore_iff {listing selected : List Message} (once : (listing.map (·.id)).Nodup)
    (once' : (selected.map (·.id)).Nodup)
    (asked : ∀ x ∈ selected, q.matches? x = true → x ∈ listing) :
    hasMore q ⟨q.perPage.slice q.page listing, listing.length⟩ selected = true ↔
      (∃ n, q.perPage = .limit n ∧ (q.page.toNat + 1) * n < listing.length) ∧
        ∃ x ∈ listing, ¬ (x ∈ selected ∧ q.matches? x = true) := by
  have found : (selected.filter q.matches?).Subperm listing := by
    refine List.Nodup.subperm ((nodup_of_ids once').filter _) fun x hx => ?_
    obtain ⟨hx, hm⟩ := List.mem_filter.mp hx
    exact asked x hx hm
  have lacks : ¬ listing.length ≤ (selected.filter q.matches?).length ↔
      ∃ x ∈ listing, ¬ (x ∈ selected ∧ q.matches? x = true) := by
    simp only [← List.mem_filter]
    constructor
    · intro fewer
      by_contra none
      push Not at none
      exact fewer (List.Nodup.subperm (nodup_of_ids once) none).length_le
    · rintro ⟨x, hx, hno⟩ le
      exact hno ((found.perm_of_length_le le).symm.subset hx)
  rw [← lacks]
  unfold hasMore
  cases size : q.perPage with
  | all => simp
  | limit n =>
    have length := PageSize.length_slice_limit q.page n listing
    have next : (q.page.toNat + 1) * n = q.page.toNat * n + n := Nat.succ_mul ..
    simp only [PageSize.limit.injEq, exists_eq_left', next]
    clear lacks found
    split
    · next all => simp [all]
    · next fewer =>
      cases q.order with
      | ascending =>
        refine decide_eq_true_iff.trans ?_
        show _ + ((PageSize.limit n).slice q.page listing).length < listing.length ↔ _
        rw [length]
        dsimp only [PageSize.offset]
        omega
      | descending =>
        refine decide_eq_true_iff.trans ?_
        dsimp only [PageSize.offset]
        omega

/-! ## Pages -/

/-- The window of a question is a slice of all messages that are asked for. -/
theorem yields_filteredWindow (h : s.keys.Indexed t) (q : MessageQuery) : ∃ listing orders,
    (s.filteredWindow q).Yields t (⟨q.perPage.slice q.page listing, listing.length⟩, orders) t ∧
      Faithful s.keys t orders ∧ (listing.map (·.id)).Nodup ∧
      (∀ x ∈ listing, Loaded orders x.threadId) ∧
      ∀ x, x ∈ listing ↔ s.keys.Stores t x ∧ q.matches? x = true := by
  obtain ⟨targets, orders, loads, faithful, loaded, mem⟩ :=
    yields_loadTargets h q.threadIds (faithful_nil s.keys t)
  let candidates := targets.filterMap fun target => s.keys.message? t target.1 target.2
  have named : ∀ x, q.matches? x = true → x.threadId ∈ q.threadIds := by
    intro x asked
    simp only [MessageQuery.matches?, Bool.and_eq_true] at asked
    exact List.contains_iff_mem.mp asked.1.1
  have stored : ∀ x, x ∈ candidates.filter q.matches? ↔
      s.keys.Stores t x ∧ q.matches? x = true := by
    intro x
    rw [List.mem_filter]
    refine and_congr_left fun asked => ⟨fun hx => ?_, fun hx => ?_⟩
    · obtain ⟨target, ht, hx⟩ := List.mem_filterMap.mp hx
      exact (h.stores_of_message? ((mem target).mp ht).2.2 hx).1
    · have listed := h.contains_orderOf.mpr ⟨x, hx, rfl, rfl⟩
      exact List.mem_filterMap.mpr ⟨(x.threadId, x.id),
        (mem _).mpr ⟨named x asked, not_loaded_nil _, listed⟩, hx.2⟩
  have arranged : ∀ x, x ∈ arrange orders q.order (candidates.filter q.matches?) ↔
      s.keys.Stores t x ∧ q.matches? x = true := by
    intro x
    rw [mem_arrange h fun x hx => ((stored x).mp hx).1, stored]
  refine ⟨_, orders, ?_, faithful, ?_, fun x hx => ?_, arranged⟩
  · exact yields_bind.mpr ⟨_, t, loads, yields_bind.mpr ⟨candidates, t,
      s.yields_fetchMany t targets, yields_pure.mpr ⟨rfl, rfl⟩⟩⟩
  · exact List.pairwise_map.mpr (pairwise_arrange orders q.order _)
  · exact (loaded _).mpr (Or.inr (named x ((arranged x).mp hx).2))

/-- The messages that are fetched for the includes are those near the ones that they name. -/
theorem mem_fetched (h : s.keys.Indexed t) {targets : List (String × String)} {x : Message}
    (mem : ∀ target, target ∈ targets ↔ ∃ r ∈ q.includes,
      r.Targets (s.keys.contents t) target.1 ∧ r.Reaches (s.keys.orderOf t target.1) target.2) :
    x ∈ (distinct targets).filterMap (fun target => s.keys.message? t target.1 target.2) ↔
      ∃ r ∈ q.includes, s.keys.Included t r x := by
  rw [List.mem_filterMap]
  constructor
  · rintro ⟨⟨thread, id⟩, ht, hx⟩
    obtain ⟨r, hr, there, reaches⟩ := (mem _).mp ((distinctBy_sublist _ targets).subset ht)
    obtain ⟨stored, rfl, rfl⟩ := h.stores_of_message? reaches.contains hx
    exact ⟨r, hr, stored, there, reaches⟩
  · rintro ⟨r, hr, stored, there, reaches⟩
    have kept : ∃ target ∈ distinct targets, id target = (x.threadId, x.id) :=
      exists_key_distinctBy.mpr ⟨(x.threadId, x.id), (mem _).mpr ⟨r, hr, there, reaches⟩, rfl⟩
    obtain ⟨target, ht, same⟩ := kept
    obtain rfl : target = (x.threadId, x.id) := same
    exact ⟨_, ht, stored.2⟩

/-- The page that is made of a window and the includes of a question. -/
theorem yields_pageFrom_window (h : s.keys.Indexed t) (faithful : Faithful s.keys t orders)
    {listing : List Message} (once : (listing.map (·.id)).Nodup)
    (loaded : ∀ x ∈ listing, Loaded orders x.threadId)
    (mem : ∀ x, x ∈ listing ↔ s.keys.Stores t x ∧ q.matches? x = true)
    (hi : ∀ r ∈ q.includes, IsMessage r.id) : ∃ page,
      (s.pageFrom q (⟨q.perPage.slice q.page listing, listing.length⟩, orders)).Yields t page t ∧
      ∀ base : MessagePage, base.total = listing.length →
        (∀ x, x ∈ base.messages ↔ x ∈ q.perPage.slice q.page listing) →
        page.Completes s.keys t q base := by
  obtain ⟨targets, orders', yields, faithful', keeps, loads, targets_iff⟩ :=
    yields_includeTargets (q := q) h q.includes faithful hi
  let window := q.perPage.slice q.page listing
  let included := (distinct targets).filterMap fun target => s.keys.message? t target.1 target.2
  have mem_included : ∀ x, x ∈ included ↔ ∃ r ∈ q.includes, s.keys.Included t r x := fun x =>
    mem_fetched h targets_iff
  have stored : ∀ x ∈ window ++ included, s.keys.Stores t x ∧ Loaded orders' x.threadId := by
    intro x hx
    rcases List.mem_append.mp hx with hx | hx
    · have hx := (q.perPage.slice_sublist q.page listing).subset hx
      exact ⟨((mem x).mp hx).1, keeps _ (loaded x hx)⟩
    · obtain ⟨r, hr, hs, there, reaches⟩ := (mem_included x).mp hx
      exact ⟨hs, loads (x.threadId, x.id) ((targets_iff _).mpr ⟨r, hr, there, reaches⟩)⟩
  let selected := arrange orders' q.order (window ++ included)
  have selects : ∀ x, x ∈ selected ↔ x ∈ window ∨ ∃ r ∈ q.includes, s.keys.Included t r x := by
    intro x
    rw [mem_arrange h fun x hx => (stored x hx).1, List.mem_append, mem_included]
  have once' : (selected.map (·.id)).Nodup :=
    List.pairwise_map.mpr (pairwise_arrange orders' q.order _)
  have asked : ∀ x ∈ selected, q.matches? x = true → x ∈ listing := fun x hx hm =>
    (mem x).mpr ⟨(stored x ((mem_arrange h (fun x hx => (stored x hx).1) _).mp hx)).1, hm⟩
  refine ⟨_, yields_bind.mpr ⟨_, t, yields, yields_bind.mpr ⟨included, t,
    s.yields_fetchMany t _, yields_pure.mpr ⟨rfl, rfl⟩⟩⟩, fun base total members => ?_⟩
  refine ⟨fun x => (selects x).trans (or_congr_left (members x).symm), once',
    pairwise_turn_arrange h faithful' q.order stored, total.symm, rfl, rfl, ?_⟩
  rw [total]
  refine (hasMore_iff once once' asked).trans (and_congr_right fun _ => ?_)
  constructor
  · rintro ⟨x, hx, hno⟩
    obtain ⟨hs, hm⟩ := (mem x).mp hx
    exact ⟨x, hs, hm, fun hx => hno ⟨hx, hm⟩⟩
  · rintro ⟨x, hs, hm, hno⟩
    exact ⟨x, (mem x).mpr ⟨hs, hm⟩, fun hx => hno hx.1⟩

/-! ## Questions -/

theorem itemViolations_eq_nil {α : Type} {f : Nat → α → List Violation} {P : α → Prop}
    (hf : ∀ i a, f i a = [] ↔ P a) {items : List α} :
    itemViolations f items = [] ↔ ∀ a ∈ items, P a := by
  rw [itemViolations, List.flatMap_eq_nil_iff]
  constructor
  · intro h a ha
    obtain ⟨position, hp⟩ := exists_position ha
    exact (hf position a).mp (h (a, position) hp)
  · rintro h ⟨a, position⟩ hp
    exact (hf position a).mpr (h a (List.fst_mem_of_mem_zipIdx hp))

/-- The includes of a question are checked one by one. -/
theorem queryViolations_eq_nil : queryViolations q = [] ↔
    queryViolations { q with includes := [] } = [] ∧ ∀ r ∈ q.includes, r.Valid := by
  have each : itemViolations (fun i (r : IncludeRequest) =>
      Identifier.messageViolations (itemLabel "include" i ".id") r.id
        ++ (match r.threadId with
          | some id => Identifier.violations (itemLabel "include" i ".threadId") id
          | none => [])) q.includes = [] ↔ ∀ r ∈ q.includes, r.Valid := by
    refine itemViolations_eq_nil fun i r => ?_
    rw [List.append_eq_nil_iff, Identifier.messageViolations_eq_nil, IncludeRequest.Valid]
    cases r.threadId with
    | none => simp
    | some given => simp [Identifier.violations_eq_nil]
  simp only [queryViolations, List.append_eq_nil_iff]
  constructor
  · rintro ⟨⟨named, includes⟩, resource⟩
    exact ⟨⟨⟨named, rfl⟩, resource⟩, each.mp includes⟩
  · rintro ⟨⟨⟨named, _⟩, resource⟩, includes⟩
    exact ⟨⟨named, each.mpr includes⟩, resource⟩

/-- Other includes that keep the rules do not make a question one that is refused. -/
theorem valid_includes (valid : q.Valid) {includes : List IncludeRequest}
    (h : ∀ r ∈ includes, r.Valid) : ({ q with includes } : MessageQuery).Valid :=
  ⟨valid.1, queryViolations_eq_nil.mpr ⟨(queryViolations_eq_nil.mp valid.2).1, h⟩⟩

/-- The answers to a question with any includes complete the same page. -/
theorem exists_answers {w : World} (h : s.keys.Indexed w.tables) (valid : q.Valid) :
    ∃ (messages : List Message) (total : Nat), ∀ includes : List IncludeRequest,
      (∀ r ∈ includes, r.Valid) → ∃ page, s.answer w { q with includes } = .ok page ∧
        ∀ base : MessagePage, base.total = total → (∀ x, x ∈ base.messages ↔ x ∈ messages) →
          page.Completes s.keys w.tables { q with includes } base := by
  obtain ⟨listing, orders, opened, faithful, once, loaded, mem⟩ := yields_filteredWindow h q
  refine ⟨q.perPage.slice q.page listing, listing.length, fun includes hv => ?_⟩
  let q' : MessageQuery := { q with includes }
  obtain ⟨page, yields, completes⟩ := yields_pageFrom_window (q := q') h faithful once loaded mem
    fun r hr => (hv r hr).1.isMessage
  have filtered : (s.filteredWindow q' >>= s.pageFrom q').Yields w.tables page w.tables :=
    yields_bind.mpr ⟨_, _, opened, yields⟩
  refine ⟨page, ?_, completes⟩
  rw [answer_eq (valid_includes valid hv),
    s.collectPage_of_backed w.tables q' fun thread _ => h.backed thread, filtered]
  rfl

end Store

namespace MessagePage.Completes

variable {k : Keyspace} {t : Tables} {q : MessageQuery} {base base' page page' : MessagePage}

/-- There is one page only that completes another. -/
theorem unique {includes : List IncludeRequest} (h : page.Completes k t q base)
    (h' : page'.Completes k t { q with includes } base)
    (same : ∀ r, r ∈ includes ↔ r ∈ q.includes) : page' = page := by
  have members : ∀ x, x ∈ page'.messages ↔ x ∈ page.messages := by
    intro x
    rw [h.members, h'.members]
    simp only [same]
  have messages : page'.messages = page.messages :=
    Store.eq_of_members h'.sorted h.sorted h'.once h.once members
  have more : page'.hasMore = page.hasMore := by
    rw [Bool.eq_iff_iff, h.more, h'.more]
    simp only [members]
    rfl
  have total := h'.total.trans h.total.symm
  have number := h'.number.trans h.number.symm
  have size := h'.size.trans h.size.symm
  cases page
  cases page'
  simp_all

end MessagePage.Completes

namespace Store

variable {s : Store} {w : World} {q : MessageQuery}

/--
In indexed tables a valid question with includes is answered. The answer completes the page that is
given for the question without includes, and it does not depend on the order in which the includes are
given, nor on how often each is.
-/
theorem include_windows (s : Store) (w : World) (q : MessageQuery) (valid : q.Valid)
    (indexed : s.keys.Indexed w.tables) : ∃ base page,
      s.answer w { q with includes := [] } = .ok base ∧ s.answer w q = .ok page ∧
      page.Completes s.keys w.tables q base ∧
      ∀ includes : List IncludeRequest, (∀ r, r ∈ includes ↔ r ∈ q.includes) →
        s.answer w { q with includes } = .ok page := by
  obtain ⟨messages, total, answers⟩ := exists_answers indexed valid
  obtain ⟨base, hb, plain⟩ := answers [] (by simp)
  have includes : ∀ r ∈ q.includes, r.Valid := (queryViolations_eq_nil.mp valid.2).2
  obtain ⟨page, hp, completes⟩ := answers q.includes includes
  -- Without includes nothing is added.
  have base_plain := plain ⟨messages, total, q.page, q.perPage, false⟩ rfl fun _ => .rfl
  have members : ∀ x, x ∈ base.messages ↔ x ∈ messages := by
    intro x
    simpa using base_plain.members x
  have completes := completes base base_plain.total members
  refine ⟨base, page, hb, hp, completes, fun includes' same => ?_⟩
  obtain ⟨page', hp', completes'⟩ := answers includes' fun r hr => includes r ((same r).mp hr)
  rw [hp', completes.unique (completes' base base_plain.total members) same]

end Store

namespace Sample

/-- Two threads are created, and a batch of messages for both is saved. -/
def shelving : List (Instant × Operation) :=
  [(now, .saveThread (.create now "a" "r")), (now, .saveThread (.create now "b" "r")),
    (now, .saveMessages ([("m", "a"), ("x", "b"), ("n", "a"), ("y", "b"), ("o", "a")].map
      fun (id, thread) => .user now id thread "r" "text"))]

/-- Two threads, with three messages and with two. -/
def shelves : World := ((store false).performAll Faults.none shelving World.initial).2

/-- The first message of one thread, one from its end with the one in front of it, and one from the
other thread with more neighbours than there are. -/
def around : MessageQuery where
  threadIds := ["a"]
  includes := [{ id := "o", before := 1 }, { id := "y", threadId := some "b", before := 7, after := 7 },
    { id := "n" }]
  perPage := .limit 1

theorem indexed_shelves : (store false).keys.Indexed shelves.tables := by
  have rows : ∀ e ∈ shelves.tables.messages.entries,
      e.1 ∈ ["a", "b"].map (store false).keys.order ∨ (Message.ofRecord e.2).isOk = true := by
    decide +kernel
  exact ((store false).contents_consistent shelving).indexed fun hr =>
    Keyspace.isOk_of_rows (by decide) rows hr

end Sample

namespace Store

theorem windows_around_shelves :
    Sample.around.Valid ∧ (Sample.store false).keys.Indexed Sample.shelves.tables ∧
      ∃ base page,
        (Sample.store false).answer Sample.shelves { Sample.around with includes := [] } = .ok base ∧
        (Sample.store false).answer Sample.shelves Sample.around = .ok page ∧
        page.Completes (Sample.store false).keys Sample.shelves.tables Sample.around base ∧
        ∀ includes : List IncludeRequest, (∀ r, r ∈ includes ↔ r ∈ Sample.around.includes) →
          (Sample.store false).answer Sample.shelves { Sample.around with includes } = .ok page := by
  have valid : Sample.around.Valid := by decide +kernel
  exact ⟨valid, Sample.indexed_shelves,
    include_windows (Sample.store false) Sample.shelves Sample.around valid Sample.indexed_shelves⟩

-- All messages of the thread are there at last, so there are no more.
example : ((Sample.store false).answer Sample.shelves Sample.around).toOption.map
    (fun page => (page.messages.map (·.id), page.total, page.hasMore))
      = some (["m", "x", "n", "y", "o"], 3, false) := by decide +kernel

end Store

end ChatMemory
