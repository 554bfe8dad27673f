import ChatMemory.Proofs.Windows
import Mathlib.Data.Nat.Find

/-!
# Going through the pages

A question without messages to be included has one *listing* in each direction. It depends neither on
the page that is asked for nor on the size of the pages: each page is a slice of it, with its length
as the total (`exists_listing`). The two directions are the reverse of each other. If the orders
cannot be loaded, the listing is empty.

What remains is about lists: the slices, one after the other, are the list.

## Main statements

* `flatMap_slice` — the first pages together are the beginning of a list.
* `exists_last` — the pages up to the first that has no items after it are the list.
* `idsBetween_saturated`, `hasMore_saturated` — machine arithmetic reads the same pages.
* `exists_listing` — every page is a slice of one listing.
* `pages_cover_listing` — going through the pages yields the listing.
-/

namespace ChatMemory

open Action

/-! ## Slices of a list -/

namespace PageSize

variable {α : Type}

theorem slice_limit (page : Nat) (size : Nat) (l : List α) :
    (limit size).slice page l = (l.drop (page * size)).take size := by
  rw [slice, offset, Int.toNat_natCast]

theorem length_slice_limit (page : Int) (size : Nat) (l : List α) :
    ((limit size).slice page l).length = min size (l.length - page.toNat * size) := by
  rw [slice, offset, List.length_take, List.length_drop]

theorem slice_sublist (size : PageSize) (page : Int) (l : List α) :
    (size.slice page l).Sublist l := by
  cases size with
  | limit n => exact (List.take_sublist _ _).trans (List.drop_sublist _ _)
  | all => exact .refl l

theorem slice_nil (size : PageSize) (page : Int) : size.slice page ([] : List α) = [] :=
  List.sublist_nil.mp (size.slice_sublist page [])

/-- A page is the same if the items before it are counted in words that saturate at the bound of all
lengths. -/
theorem slice_saturated (page : Int) (size : Nat) {bound : Nat} {l : List α} (fits : l.length ≤ bound) :
    (limit size).slice page l = (l.drop (min (page.toNat * size) bound)).take size := by
  rw [slice, offset]
  rcases Nat.le_total (page.toNat * size) bound with h | h
  · rw [Nat.min_eq_left h]
  · rw [Nat.min_eq_right h, List.drop_of_length_le (Nat.le_trans fits h), List.drop_of_length_le fits]

/-- The first pages of a list are its beginning. -/
theorem flatMap_slice (size : Nat) (l : List α) : ∀ count : Nat,
    (List.range count).flatMap (fun page : Nat => (limit size).slice page l) = l.take (count * size)
  | 0 => by simp
  | count + 1 => by
    rw [List.range_succ, List.flatMap_append, flatMap_slice size l count, List.flatMap_singleton,
      slice_limit, ← List.take_add, Nat.succ_mul]

/-- Whether there are items on later pages. -/
def hasLater (size : PageSize) (page : Int) (total : Nat) : Bool :=
  match size with
  | limit n => decide ((page.toNat + 1) * n < total)
  | all => false

theorem hasLater_zero (size : PageSize) (page : Int) : size.hasLater page 0 = false := by
  cases size <;> simp [hasLater]

theorem hasLater_limit {size page total : Nat} :
    (limit size).hasLater page total = true ↔ (page + 1) * size < total := by
  simp [hasLater]

/-- The pages up to the first that has no items after it are the list. -/
theorem exists_last {size : Nat} (positive : 1 ≤ size) (l : List α) :
    ∃ last : Nat, (limit size).hasLater last l.length = false ∧
      (∀ k < last, (limit size).hasLater k l.length = true) ∧
      (List.range (last + 1)).flatMap (fun k : Nat => (limit size).slice k l) = l ∧
      ∀ k : Nat, last < k → (limit size).slice k l = [] ∧
        (limit size).hasLater k l.length = false := by
  have reached : ∃ k, l.length ≤ (k + 1) * size :=
    ⟨l.length, Nat.le_trans (Nat.le_succ _) (Nat.le_mul_of_pos_right _ positive)⟩
  refine ⟨Nat.find reached, ?_, fun k hk => ?_, ?_, fun k hk => ?_⟩
  · rw [← Bool.not_eq_true, hasLater_limit, Nat.not_lt]
    exact Nat.find_spec reached
  · exact hasLater_limit.mpr (Nat.not_le.mp (Nat.find_min reached hk))
  · exact (flatMap_slice size l _).trans (List.take_of_length_le (Nat.find_spec reached))
  · have past : l.length ≤ k * size :=
      Nat.le_trans (Nat.find_spec reached) (Nat.mul_le_mul_right size hk)
    constructor
    · rw [slice_limit, List.drop_of_length_le past, List.take_nil]
    · rw [← Bool.not_eq_true, hasLater_limit, Nat.not_lt]
      exact Nat.le_trans past (Nat.mul_le_mul_right size (Nat.le_succ k))

end PageSize

namespace Store

variable {s : Store} {t : Tables} {q : MessageQuery}

/-! ## Words that saturate -/

/-- The window of an order is the same if it is counted in words that saturate at the bound of all
lengths. -/
theorem idsBetween_saturated (direction : SortDirection) {order : OrderSnapshot} {bound : Nat}
    (fits : order.length ≤ bound) (page : Int) (size : Nat) :
    let offset := min (page.toNat * size) bound
    idsBetween order (match direction with
      | .ascending => (offset, min (min (offset + size) bound) order.length)
      | .descending => (order.length - offset - size, order.length - offset))
    = idsBetween order (windowBounds direction order.length ((PageSize.limit size).offset page) size) := by
  intro offset
  rw [PageSize.offset]
  rcases Nat.le_total (page.toNat * size) bound with h | h
  · have exact : offset = page.toNat * size := Nat.min_eq_left h
    have ends : min (min (offset + size) bound) order.length = min (offset + size) order.length := by
      omega
    rw [ends, exact]
    rfl
  · -- The page is behind the end of the order, so its window is empty in any case.
    have behind : offset = bound := Nat.min_eq_right h
    have empty : ∀ {bounds : Nat × Nat}, bounds.2 ≤ bounds.1 → idsBetween order bounds = [] :=
      fun h => if_neg (Nat.not_lt.mpr h)
    cases direction with
    | ascending =>
      rw [empty, empty]
      · exact Nat.le_trans (Nat.min_le_right _ _) (Nat.le_trans fits h)
      · exact Nat.le_trans (Nat.min_le_right _ _) (behind ▸ fits)
    | descending =>
      rw [empty, empty]
      · exact Nat.le_trans (Nat.le_of_eq (Nat.sub_eq_zero_of_le (Nat.le_trans fits h))) (Nat.zero_le _)
      · exact Nat.le_trans (Nat.le_of_eq (Nat.sub_eq_zero_of_le (behind ▸ fits))) (Nat.zero_le _)

/-- So is whether there are messages on later pages. -/
theorem hasMore_saturated {size bound : Nat} (limited : q.perPage = .limit size) {w : Window}
    (fits : w.total ≤ bound) (selected : List Message) :
    let offset := min (q.page.toNat * size) bound
    hasMore q w selected = true ↔ (selected.filter q.matches?).length < w.total ∧
      match q.order with
      | .ascending => min (offset + w.messages.length) bound < w.total
      | .descending => min (offset + size) bound < w.total := by
  intro offset
  simp only [hasMore, limited, PageSize.offset]
  split
  · next all => exact iff_of_false (by simp) fun h => Nat.not_lt.mpr all h.1
  · next some =>
    cases q.order with
    | ascending =>
      simp only [decide_eq_true_iff]
      omega
    | descending =>
      simp only [decide_eq_true_iff]
      omega

/-! ## Pages without included messages -/

/-- Nothing is included. -/
theorem yields_pageFrom (plain : q.includes = []) {w : Window} {orders : Orders}
    (sorted : arrange orders q.order w.messages = w.messages) :
    (s.pageFrom q (w, orders)).Yields t
      ⟨w.messages, w.total, q.page, q.perPage, hasMore q w w.messages⟩ t := by
  rw [pageFrom, plain]
  refine yields_bind.mpr ⟨([], orders), t, yields_pure.mpr ⟨rfl, rfl⟩, ?_⟩
  refine yields_bind.mpr ⟨[], t, yields_pure.mpr ⟨rfl, rfl⟩, ?_⟩
  rw [List.append_nil, sorted]
  exact yields_pure.mpr ⟨rfl, rfl⟩

/-- A page of a listing has more if its end is not the end of the listing. -/
theorem hasMore_slice {l : List Message} (asked : ∀ x ∈ l, q.matches? x = true) :
    let page := q.perPage.slice q.page l
    hasMore q ⟨page, l.length⟩ page = q.perPage.hasLater q.page l.length := by
  intro page
  have selected : page.filter q.matches? = page := List.filter_eq_self.mpr fun x hx =>
    asked x ((q.perPage.slice_sublist q.page l).subset hx)
  rw [hasMore, selected]
  cases size : q.perPage with
  | all => rfl
  | limit n =>
    have length : page.length = min n (l.length - q.page.toNat * n) := by
      simp only [page, size]
      exact PageSize.length_slice_limit q.page n l
    have next : (q.page.toNat + 1) * n = q.page.toNat * n + n := Nat.succ_mul ..
    dsimp only [PageSize.hasLater]
    rw [length, next, PageSize.offset]
    generalize q.page.toNat * n = offset
    split
    · refine (decide_eq_false ?_).symm
      omega
    · cases q.order with
      | ascending =>
        refine decide_eq_decide.mpr ?_
        omega
      | descending => rfl

/-- Once the orders are loaded, a page is a slice of the listing of all messages asked for. -/
theorem yields_filtered {targets : List (String × String)} {orders : Orders}
    (plain : q.includes = []) (loaded : (s.loadTargets [] q.threadIds).Yields t (targets, orders) t) :
    let candidates := targets.filterMap fun target => s.keys.message? t target.1 target.2
    let listing := arrange orders q.order (candidates.filter q.matches?)
    (s.filteredWindow q >>= s.pageFrom q).Yields t ⟨q.perPage.slice q.page listing, listing.length,
      q.page, q.perPage, q.perPage.hasLater q.page listing.length⟩ t := by
  intro candidates listing
  have window : (s.filteredWindow q).Yields t
      (⟨q.perPage.slice q.page listing, listing.length⟩, orders) t :=
    yields_bind.mpr ⟨_, t, loaded, yields_bind.mpr ⟨candidates, t, s.yields_fetchMany t targets,
      yields_pure.mpr ⟨rfl, rfl⟩⟩⟩
  have asked : ∀ x ∈ listing, q.matches? x = true := fun x hx =>
    (List.mem_filter.mp ((distinctBy_sublist _ _).subset (Sorting.mem_sort.mp hx))).2
  refine yields_bind.mpr ⟨_, t, window, ?_⟩
  rw [← hasMore_slice asked]
  exact yields_pageFrom plain (arrange_of_sublist (q.perPage.slice_sublist q.page listing))

/--
Every page of a question without included messages is a slice of one listing, which depends on the
direction alone.
-/
theorem exists_listing (s : Store) (w : World) (q : MessageQuery) (checked : queryViolations q = [])
    (plain : q.includes = []) (backed : ∀ thread ∈ q.threadIds, s.keys.Backed w.tables thread) :
    ∃ listing : SortDirection → List Message,
      listing .descending = (listing .ascending).reverse ∧
      (∀ direction, ((listing direction).map (·.id)).Nodup) ∧
      ∀ (page : Int) (size : PageSize) (direction : SortDirection), 0 ≤ page →
        s.answer w { q with page, perPage := size, order := direction }
          = .ok ⟨size.slice page (listing direction), (listing direction).length, page, size,
              size.hasLater page (listing direction).length⟩ := by
  cases loaded : (s.loadTargets [] q.threadIds).outcome w.tables with
  | mk result t =>
  obtain rfl : t = w.tables := by
    simpa [loaded] using (s.reads_loadTargets q.threadIds []).tables w.tables
  cases result with
  | error error =>
    refine ⟨fun _ => [], rfl, fun _ => .nil, fun page size direction hp => ?_⟩
    let q' : MessageQuery := { q with page, perPage := size, order := direction }
    have valid : q'.Valid := ⟨hp, checked⟩
    have fails : ((s.filteredWindow q' >>= s.pageFrom q').outcome w.tables).1 = .error error := by
      simp only [filteredWindow, outcome_bind, q', loaded]
    rw [answer_eq valid, s.collectPage_of_backed w.tables q' backed, fails, PageSize.slice_nil,
      List.length_nil, PageSize.hasLater_zero]
    rfl
  | ok found =>
    obtain ⟨targets, orders⟩ := found
    let candidates := targets.filterMap fun target => s.keys.message? w.tables target.1 target.2
    refine ⟨fun direction => arrange orders direction (candidates.filter q.matches?),
      arrange_eq_turn orders .descending _,
      fun direction => List.pairwise_map.mpr (pairwise_arrange orders direction _),
      fun page size direction hp => ?_⟩
    let q' : MessageQuery := { q with page, perPage := size, order := direction }
    have valid : q'.Valid := ⟨hp, checked⟩
    have yields := yields_filtered (q := q') plain loaded
    rw [answer_eq valid, s.collectPage_of_backed w.tables q' backed, yields]
    rfl

/-! ## All pages -/

/--
Take a question without included messages, about threads whose orders are backed by records. Going
through its pages of any size, up to the first that has no more after it, yields the listing that is
given when all messages are asked for at once, in order; no two messages of it have the same id. All
pages have the length of the listing as their total, a page has more if it does not reach the end of
the listing, and pages after the last are empty. The listing in one direction is the reverse of that
in the other.
-/
theorem pages_cover_listing (s : Store) (w : World) (q : MessageQuery) (valid : q.Valid)
    (plain : q.includes = []) (backed : ∀ thread ∈ q.threadIds, s.keys.Backed w.tables thread) :
    ∃ listing : SortDirection → List Message,
      listing .descending = (listing .ascending).reverse ∧
      (∀ direction, ((listing direction).map (·.id)).Nodup) ∧
      (∀ direction, s.answer w { q with perPage := .all, order := direction }
        = .ok ⟨listing direction, (listing direction).length, q.page, .all, false⟩) ∧
      ∀ direction size, 1 ≤ size → ∃ pages : Nat → MessagePage,
        (∀ k : Nat, s.answer w { q with page := k, perPage := .limit size, order := direction }
          = .ok (pages k)) ∧
        (∀ k, (pages k).total = (listing direction).length) ∧
        (∀ k, (pages k).hasMore = true ↔ (k + 1) * size < (listing direction).length) ∧
        ∃ last, (pages last).hasMore = false ∧ (∀ k < last, (pages k).hasMore = true) ∧
          (List.range (last + 1)).flatMap (fun k => (pages k).messages) = listing direction ∧
          ∀ k, last < k → (pages k).messages = [] ∧ (pages k).hasMore = false := by
  obtain ⟨listing, reversed, once, answers⟩ := s.exists_listing w q valid.2 plain backed
  refine ⟨listing, reversed, once, fun direction => answers q.page .all direction valid.1, ?_⟩
  intro direction size positive
  exact ⟨_, fun k => answers k (.limit size) direction (Int.natCast_nonneg k), fun _ => rfl,
    fun _ => PageSize.hasLater_limit, PageSize.exists_last positive (listing direction)⟩

/-- Three messages on pages of two. -/
theorem pages_of_three :
    let q := Sample.secondPage
    ({ q with includes := [] } : MessageQuery).Valid ∧
      (∀ thread ∈ q.threadIds, (Sample.store false).keys.Backed Sample.three.tables thread) ∧
      ∃ listing : SortDirection → List Message,
        listing .descending = (listing .ascending).reverse ∧
        (Sample.store false).answer Sample.three
            { q with includes := [], perPage := .all, order := .ascending }
          = .ok ⟨listing .ascending, (listing .ascending).length, 1, .all, false⟩ ∧
        ∃ pages : Nat → MessagePage,
          (∀ k : Nat, (Sample.store false).answer Sample.three
            { q with includes := [], page := k } = .ok (pages k)) ∧
          ∃ last, (List.range (last + 1)).flatMap (fun k => (pages k).messages)
            = listing .descending := by
  intro q
  have valid : ({ q with includes := [] } : MessageQuery).Valid := by decide +kernel
  have backed : ∀ thread ∈ q.threadIds,
      (Sample.store false).keys.Backed Sample.three.tables thread := by decide +kernel
  obtain ⟨listing, reversed, _, all, pages⟩ := pages_cover_listing (Sample.store false) Sample.three
    { q with includes := [] } valid rfl backed
  obtain ⟨pages, answers, _, _, last, _, _, covered, _⟩ := pages .descending 2 (by decide)
  exact ⟨valid, backed, listing, reversed, all .ascending, pages, answers, last, covered⟩

example : (List.range 3).map (fun k => ((Sample.store false).answer Sample.three
      { Sample.secondPage with includes := [], page := k }).toOption.map
        fun page => (page.messages.map (·.id), page.hasMore))
    = [some (["o", "n"], true), some (["m"], false), some ([], false)] := by decide +kernel

end Store

end ChatMemory
