import ChatMemory.Proofs.Paging

/-!
# Pages of threads

The threads of a resource have one listing for each order that may be asked for: all records that
decode and tell the resource, by date in the direction of the order, and equal dates by ascending id
in either direction. A record that does not decode is passed over. A record can tell an id that is not
its own, so that two threads of a listing can have the same id; these two are in the order of the ids
that they are stored under, which is the order of the keys, since sorting is stable.

Every page is a slice of the listing, which depends neither on the page nor on its size.

## Main statements

* `before_iff` — the order that is sorted by, with the order of the keys behind it.
* `ListsThreads.unique` — the listing is determined by the contents.
* `exists_threads` — the threads that are read.
* `exists_threadListing` — every page is a slice of the listing.
* `pages_cover_threads` — the pages together are the listing.
* `threadPage_saturated` — machine arithmetic cuts the same pages.
-/

namespace ChatMemory

/-! ## The order of a listing -/

namespace ThreadOrder

variable {o : ThreadOrder} {a b : String × Thread}

/-- The date of a thread stands in front of that of another. -/
def Earlier (o : ThreadOrder) (x y : Thread) : Prop :=
  match o.direction with
  | .ascending => o.field.date x < o.field.date y
  | .descending => o.field.date y < o.field.date x

/--
The order of the threads of a listing, each with the id that it is stored under: by date, equal dates
by the id of the thread, and equal ids by that of its key.
-/
def Before (o : ThreadOrder) (a b : String × Thread) : Prop :=
  o.Earlier a.2 b.2 ∨ o.field.date a.2 = o.field.date b.2 ∧
    (a.2.id < b.2.id ∨ a.2.id = b.2.id ∧ a.1 < b.1)

theorem threadPrecedes_iff {x y : Thread} : Store.threadPrecedes o x y = true ↔
    o.Earlier x y ∨ o.field.date x = o.field.date y ∧ x.id ≤ y.id := by
  have same : (o.field.date x).order = (o.field.date y).order ↔ o.field.date x = o.field.date y :=
    ⟨Instant.order_injective, congrArg _⟩
  rw [Store.threadPrecedes, Sorting.byRank_iff, Earlier, ← same]
  cases o.direction with
  | ascending => rw [Instant.order_lt_order]
  | descending => simp only [Int.neg_lt_neg_iff, Int.neg_inj, Instant.order_lt_order]

theorem not_earlier_of_eq {x y : Thread} (same : o.field.date x = o.field.date y) :
    ¬ o.Earlier x y := by
  unfold Earlier
  cases o.direction with
  | ascending => exact same ▸ Instant.lt_irrefl _
  | descending => exact same ▸ Instant.lt_irrefl _

theorem Earlier.asymm {x y : Thread} (h : o.Earlier x y) : ¬ o.Earlier y x := by
  unfold Earlier at *
  cases hd : o.direction <;> simp only [hd] at h ⊢ <;> exact fun h' =>
    Instant.lt_irrefl _ (Instant.lt_of_lt_of_le h (Instant.le_of_lt h'))

/-- The order of a listing is the order that is sorted by, with the order of the keys behind it. -/
theorem before_iff : o.Before a b ↔ Store.threadPrecedes o a.2 b.2 = true ∧
    (Store.threadPrecedes o b.2 a.2 = true → a.1 < b.1) := by
  rw [threadPrecedes_iff, threadPrecedes_iff, Before]
  constructor
  · rintro (earlier | ⟨date, id | ⟨id, key⟩⟩)
    · refine ⟨Or.inl earlier, ?_⟩
      rintro (later | ⟨date, _⟩)
      · exact absurd later earlier.asymm
      · exact absurd earlier (not_earlier_of_eq date.symm)
    · refine ⟨Or.inr ⟨date, String.not_lt.mp (String.lt_asymm id)⟩, ?_⟩
      rintro (later | ⟨_, id'⟩)
      · exact absurd later (not_earlier_of_eq date.symm)
      · exact absurd id (String.not_lt.mpr id')
    · exact ⟨Or.inr ⟨date, id ▸ String.le_refl _⟩, fun _ => key⟩
  · rintro ⟨earlier | ⟨date, id⟩, key⟩
    · exact Or.inl earlier
    · refine Or.inr ⟨date, ?_⟩
      by_cases id' : b.2.id ≤ a.2.id
      · exact Or.inr ⟨String.le_antisymm id id', key (Or.inr ⟨date.symm, id'⟩)⟩
      · exact Or.inl (String.not_le.mp id')

theorem Before.asymm (h : o.Before a b) : ¬ o.Before b a := by
  intro h'
  obtain ⟨hab, hkey⟩ := before_iff.mp h
  obtain ⟨hba, hkey'⟩ := before_iff.mp h'
  exact String.lt_asymm (hkey hba) (hkey' hab)

end ThreadOrder

/-! ## The listing of a resource -/

/-- The listing of the threads of a resource, each with the id that it is stored under. -/
structure Contents.ListsThreads (c : Contents) (resource : String) (o : ThreadOrder)
    (l : List (String × Thread)) : Prop where
  mem : ∀ id t, (id, t) ∈ l ↔ id ≠ "" ∧ c.IsThread id t ∧ t.resourceId = resource
  sorted : l.Pairwise o.Before

namespace Contents.ListsThreads

variable {c : Contents} {resource : String} {o : ThreadOrder} {l l' : List (String × Thread)}

theorem nodup (h : c.ListsThreads resource o l) : l.Nodup :=
  h.sorted.imp fun {a b} before e => by
    subst e
    exact before.asymm before

/-- There is one listing only. -/
theorem unique (h : c.ListsThreads resource o l) (h' : c.ListsThreads resource o l') : l = l' := by
  have perm : l.Perm l' := (List.perm_ext_iff_of_nodup h.nodup h'.nodup).mpr fun ⟨id, t⟩ =>
    (h.mem id t).trans (h'.mem id t).symm
  exact perm.eq_of_pairwise (fun _ _ _ _ hab hba => absurd hba hab.asymm) h.sorted h'.sorted

end Contents.ListsThreads

/-- The thread that is stored under an id, if what is stored there decodes. -/
def Keyspace.thread? (k : Keyspace) (t : Tables) (id : String) : Option Thread :=
  ((k.contents t).thread id).bind fun r => (Thread.ofJson r).toOption

theorem Keyspace.thread?_eq_some_iff {k : Keyspace} {t : Tables} {id : String} {x : Thread} :
    k.thread? t id = some x ↔ (k.contents t).IsThread id x := by
  rw [Keyspace.thread?, Option.bind_eq_some_iff]
  refine exists_congr fun r => and_congr_right fun _ => ?_
  cases Thread.ofJson r <;> simp [Except.toOption]

namespace Store

open Action

variable {s : Store} {t : Tables}

/-! ## Reading all threads -/

/-- A record that does not decode is taken for none. -/
theorem yields_skipCorruptThread (s : Store) (t : Tables) (id : String) :
    (skipCorrupt (s.fetchThread id)).Yields t (s.keys.thread? t id) t := by
  rw [Yields, skipCorrupt, outcome_recover, fetchThread, outcome_bind, outcome_ask]
  dsimp only [Request.answer, Request.effect, Keyspace.thread?, Keyspace.contents]
  cases t.get? .threads (s.keys.thread id) with
  | none => rfl
  | some r =>
    dsimp only [Option.bind_some]
    cases Thread.ofJson r <;> rfl

/-- The listing of the threads is in the order of their ids. -/
theorem exists_threadIds (s : Store) (t : Tables) : ∃ ids, s.threadIds.Yields t ids t ∧
    ids.Pairwise (· < ·) ∧ ∀ id, id ∈ ids ↔ (s.keys.contents t).HasThread id := by
  obtain ⟨ids, t', h, _, sorted, mem⟩ :=
    (ends_threadIds (s := s) (c := s.keys.contents t)).exists_yields
      fun _ _ h => Faults.not_active_none h.2
  obtain rfl := s.reads_threadIds.yields h
  exact ⟨ids, h, sorted, mem⟩

/-- All threads that decode, in the order of the ids that they are stored under. -/
theorem exists_threads (s : Store) (t : Tables) : ∃ threads : List (String × Thread),
    threads.Pairwise (·.1 < ·.1) ∧
    (∀ id x, (id, x) ∈ threads ↔ id ≠ "" ∧ (s.keys.contents t).IsThread id x) ∧
    ∀ q : ThreadQuery, 0 ≤ q.page → Identifier.Valid q.resourceId →
      (s.listThreads q).Yields t (threadPage q (threads.map (·.2))) t := by
  obtain ⟨ids, found, sorted, mem⟩ := s.exists_threadIds t
  let stored (id : String) : Option (String × Thread) := (s.keys.thread? t id).map (id, ·)
  refine ⟨ids.filterMap stored, ?_, fun id x => ?_, fun q page valid => ?_⟩
  · refine sorted.filterMap _ fun a a' hlt b hb b' hb' => ?_
    obtain ⟨_, _, rfl⟩ := Option.map_eq_some_iff.mp hb
    obtain ⟨_, _, rfl⟩ := Option.map_eq_some_iff.mp hb'
    exact hlt
  · simp only [List.mem_filterMap, mem, stored, Option.map_eq_some_iff, Prod.mk.injEq,
      Keyspace.thread?_eq_some_iff]
    constructor
    · rintro ⟨_, there, _, isThread, rfl, rfl⟩
      exact ⟨there.1, isThread⟩
    · rintro ⟨given, isThread⟩
      exact ⟨id, isThread.hasThread given, x, isThread, rfl, rfl⟩
  · have each : (Action.each (fun id => skipCorrupt (s.fetchThread id)) ids).Yields t
        (ids.map (s.keys.thread? t)) t :=
      Yields.each_rest fun id _ => s.yields_skipCorruptThread t id
    have read : (ids.map (s.keys.thread? t)).filterMap id = (ids.filterMap stored).map (·.2) := by
      rw [List.filterMap_map, List.map_filterMap]
      refine List.filterMap_congr fun id _ => ?_
      simp [stored, Function.comp_def]
    have collected : (do
        let found ← Action.each (fun id => skipCorrupt (s.fetchThread id)) (← s.threadIds)
        return threadPage q (found.filterMap id)).Yields t
          (threadPage q ((ids.filterMap stored).map Prod.snd)) t :=
      yields_bind.mpr ⟨_, t, found, yields_bind.mpr ⟨_, t, each, yields_pure.mpr ⟨by rw [read], rfl⟩⟩⟩
    refine yields_bind.mpr ⟨(), t, yields_check.mpr ⟨?_, rfl⟩, yields_bind.mpr ⟨(), t,
      yields_check.mpr ⟨Identifier.violations_eq_nil.mpr valid, rfl⟩, ?_⟩⟩
    · rw [Identifier.pageViolations, if_neg (Int.not_lt.mpr page)]
    · rw [Yields, orEmpty, outcome_recover, collected]

/-! ## Pages -/

/-- The threads that are read, sorted, are the listing. -/
theorem listsThreads_sort {c : Contents} {threads : List (String × Thread)}
    (keys : threads.Pairwise (·.1 < ·.1))
    (mem : ∀ id t, (id, t) ∈ threads ↔ id ≠ "" ∧ c.IsThread id t) (resource : String)
    (o : ThreadOrder) :
    c.ListsThreads resource o (Sorting.sort (fun a b => threadPrecedes o a.2 b.2)
      (threads.filter (·.2.resourceId = resource))) where
  mem id t := by
    rw [Sorting.mem_sort, List.mem_filter, mem, decide_eq_true_iff, and_assoc]
  sorted := by
    have dates : (Sorting.sort (fun a b : String × Thread => threadPrecedes o a.2 b.2)
        (threads.filter (·.2.resourceId = resource))).Pairwise
          fun a b => threadPrecedes o a.2 b.2 = true :=
      Sorting.pairwise_sort (fun a b c => Sorting.byRank_trans _ _ a.2 b.2 c.2)
        (fun a b => Sorting.byRank_total _ _ a.2 b.2) _
    exact (dates.and (Sorting.pairwise_sort_stable (keys.filter _))).imp fun h =>
      ThreadOrder.before_iff.mpr h

/-- A page of a listing has more if it does not reach the end. -/
theorem threadPage_eq (q : ThreadQuery) (threads : List (String × Thread)) :
    let sorted := (Sorting.sort (fun a b => threadPrecedes q.orderBy a.2 b.2)
      (threads.filter (·.2.resourceId = q.resourceId))).map (·.2)
    threadPage q (threads.map (·.2)) = ⟨q.perPage.slice q.page sorted, sorted.length, q.page,
      q.perPage, q.perPage.hasLater q.page sorted.length⟩ := by
  intro sorted
  have same : Sorting.sort (threadPrecedes q.orderBy)
      ((threads.map (·.2)).filter (·.resourceId = q.resourceId)) = sorted := by
    rw [List.filter_map, Sorting.sort_map]
    rfl
  rw [threadPage, same]
  cases size : q.perPage with
  | all => rfl
  | limit n =>
    have next : (q.page.toNat + 1) * n = q.page.toNat * n + n := Nat.succ_mul ..
    dsimp only [PageSize.hasLater]
    rw [PageSize.length_slice_limit, PageSize.offset, next]
    generalize q.page.toNat * n = offset
    congr 1
    refine decide_eq_decide.mpr ?_
    omega

/-- A page is the same if its end is counted in words that saturate at the bound of all lengths. -/
theorem threadPage_saturated {q : ThreadQuery} {size bound : Nat} (limited : q.perPage = .limit size)
    (threads : List Thread) :
    let sorted := Sorting.sort (threadPrecedes q.orderBy)
      (threads.filter (·.resourceId = q.resourceId))
    let page := threadPage q threads
    let offset := min (q.page.toNat * size) bound
    sorted.length ≤ bound → page.threads = (sorted.drop offset).take size ∧
      (page.hasMore = true ↔ min (offset + page.threads.length) bound < page.total) := by
  intro sorted page offset fits
  have threads : page.threads = (sorted.drop offset).take size := by
    simp only [page, threadPage, limited]
    exact PageSize.slice_saturated q.page size fits
  refine ⟨threads, ?_⟩
  have more : page.hasMore = decide (q.page.toNat * size + page.threads.length < sorted.length) := by
    simp only [page, threadPage, limited, PageSize.offset]
    rfl
  rw [more, decide_eq_true_iff, show page.total = sorted.length from rfl]
  omega

/-- The answer to a question for threads, when no call fails. -/
def threadsAnswer (s : Store) (w : World) (q : ThreadQuery) : Except MemoryError ThreadPage :=
  ((s.listThreads q).run Faults.none w).1

/-- Every page is a slice of one listing. -/
theorem exists_threadListing (s : Store) (w : World) (resource : String) (o : ThreadOrder)
    (valid : Identifier.Valid resource) :
    ∃ l : List (String × Thread), (s.keys.contents w.tables).ListsThreads resource o l ∧
      ∀ (page : Int) (size : PageSize), 0 ≤ page →
        s.threadsAnswer w ⟨resource, page, size, o⟩ = .ok ⟨size.slice page (l.map (·.2)), l.length,
          page, size, size.hasLater page l.length⟩ := by
  obtain ⟨threads, keys, mem, read⟩ := s.exists_threads w.tables
  refine ⟨_, listsThreads_sort keys mem resource o, fun page size hp => ?_⟩
  refine (read ⟨resource, page, size, o⟩ hp valid).run.1.trans (congrArg Except.ok ?_)
  rw [threadPage_eq, List.length_map]

/--
The threads of a resource have one listing for each order. It is given when all threads are asked for,
whatever the page. A page of any size is the slice of the listing that begins at its number times its
size, with the length of the listing as the total, and it has more if its end is not that of the
listing. So the pages up to the first that has no more after it are the listing.
-/
theorem pages_cover_threads (s : Store) (w : World) (resource : String) (o : ThreadOrder)
    (valid : Identifier.Valid resource) :
    ∃ l : List (String × Thread),
      (∀ l', (s.keys.contents w.tables).ListsThreads resource o l' ↔ l' = l) ∧
      (∀ page : Int, 0 ≤ page → s.threadsAnswer w ⟨resource, page, .all, o⟩
        = .ok ⟨l.map (·.2), l.length, page, .all, false⟩) ∧
      ∀ size, ∃ pages : Nat → ThreadPage,
        (∀ k : Nat, s.threadsAnswer w ⟨resource, k, .limit size, o⟩ = .ok (pages k)) ∧
        (∀ k, (pages k).total = l.length) ∧
        (∀ k, (pages k).threads = ((l.map (·.2)).drop (k * size)).take size) ∧
        (∀ k, (pages k).hasMore = true ↔ k * size + (pages k).threads.length < l.length) ∧
        (1 ≤ size → ∃ last, (pages last).hasMore = false ∧ (∀ k < last, (pages k).hasMore = true) ∧
          (List.range (last + 1)).flatMap (fun k => (pages k).threads) = l.map (·.2)) := by
  obtain ⟨l, lists, answers⟩ := s.exists_threadListing w resource o valid
  refine ⟨l, fun l' => ⟨fun h => h.unique lists, fun e => e ▸ lists⟩,
    fun page hp => answers page .all hp, fun size => ⟨_, fun k => answers k (.limit size)
      (Int.natCast_nonneg k), fun _ => rfl, fun k => PageSize.slice_limit k size _, fun k => ?_,
      fun positive => ?_⟩⟩
  · have next : (k + 1) * size = k * size + size := Nat.succ_mul ..
    dsimp only
    rw [PageSize.hasLater_limit, PageSize.length_slice_limit, List.length_map, Int.toNat_natCast,
      next]
    omega
  · obtain ⟨last, none, more, all, _⟩ := PageSize.exists_last positive (l.map (·.2))
    rw [List.length_map] at none more
    exact ⟨last, none, more, all⟩

end Store

/-! ## A sample -/

namespace Sample

/-- Two threads of the same date, and a record that does not decode. -/
def listed : World :=
  let w := world false "a"
  { w with tables := w.tables.put .threads ((store false).keys.thread "c") (.str "?") }

end Sample

/-- The threads with an equal date are on two pages. -/
theorem Store.pages_of_threads :
    Identifier.Valid "r" ∧
      ∃ l : List (String × Thread),
        ((Sample.store false).keys.contents Sample.listed.tables).ListsThreads "r" {} l ∧
        ∃ pages : Nat → ThreadPage,
          (∀ k : Nat, (Sample.store false).threadsAnswer Sample.listed
            { resourceId := "r", page := k, perPage := .limit 1 } = .ok (pages k)) ∧
          ∃ last, (List.range (last + 1)).flatMap (fun k => (pages k).threads) = l.map (·.2) := by
  have valid : Identifier.Valid "r" := by decide
  obtain ⟨l, lists, _, pages⟩ :=
    pages_cover_threads (Sample.store false) Sample.listed "r" {} valid
  obtain ⟨pages, answers, _, _, _, covered⟩ := pages 1
  obtain ⟨last, _, _, covered⟩ := covered (by decide)
  exact ⟨valid, l, (lists l).mpr rfl, pages, answers, last, covered⟩

example : (List.range 3).map (fun k => ((Sample.store false).threadsAnswer Sample.listed
      { resourceId := "r", page := k, perPage := .limit 1 }).toOption.map
        fun page => (page.threads.map (·.id), page.total, page.hasMore))
    = [some (["a"], 2, true), some (["b"], 2, false), some ([], 2, false)] := by decide +kernel

end ChatMemory
