import ChatMemory.Proofs.Newest
import Mathlib.Algebra.Ring.Int.Defs
import Mathlib.Algebra.Ring.Nat

/-!
# Ranges of an order

Ranges of an order are cut with signed numbers of 64 bits, and what is cut is a slice between two
positions. A sum that does not fit or a slice beyond the end would stop the program. Here the cuts
are done with such numbers, where all that can go wrong is `none`: nothing goes wrong for an order
that fits into memory, and the cuts are those of `OrderSnapshot.range`, `lastN` and `ids`, which
count with whole numbers.

No sum can overflow, since a bound is only added to the length if it is negative. No slice is out of
bounds: the first position is never negative, the last never beyond the end, and nothing is cut
unless they are in order.

## Main statements

* `OrderSnapshot.range_eq_idsAt` — a range holds the ids between its clamped bounds.
* `OrderSnapshot.range64?_eq`, `OrderSnapshot.lastN64?_eq` — nothing goes wrong with 64 bits.
* `OrderSnapshot.ranges_exact` — both, and how an order is put together from its ends.
-/

namespace ChatMemory

/-! ## Numbers of 64 bits -/

namespace Machine

/-- A number as one of 64 bits with a sign, if it fits. -/
def signed? (n : Int) : Option Int64 :=
  if Int64.minValue.toInt ≤ n ∧ n ≤ Int64.maxValue.toInt then some (.ofInt n) else none

/-- The part of a list from one position to another, both included, if they are in bounds. -/
def slice? {α : Type} (l : List α) (first last : UInt64) : Option (List α) :=
  if last.toNat + 1 < UInt64.size ∧ first.toNat ≤ last.toNat + 1 ∧ last.toNat + 1 ≤ l.length then
    some ((l.drop first.toNat).take (last.toNat + 1 - first.toNat))
  else none

theorem exists_signed? {n : Int} (low : -2 ^ 63 ≤ n) (high : n < 2 ^ 63) :
    ∃ x, signed? n = some x ∧ x.toInt = n := by
  refine ⟨.ofInt n, if_pos ⟨?_, ?_⟩, Int64.toInt_ofInt_of_le low high⟩
  · rw [Int64.toInt_minValue]
    exact low
  · rw [Int64.toInt_maxValue]
    exact Int.le_sub_one_of_lt high

theorem toInt_max (a b : Int64) : (max a b).toInt = max a.toInt b.toInt := by
  rw [Int.max_def, show max a b = if a ≤ b then b else a from rfl]
  simp only [Int64.le_iff_toInt_le]
  split <;> rfl

theorem toInt_min (a b : Int64) : (min a b).toInt = min a.toInt b.toInt := by
  rw [Int.min_def, show min a b = if a ≤ b then a else b from rfl]
  simp only [Int64.le_iff_toInt_le]
  split <;> rfl

theorem toInt_toInt64 {n : UInt64} (h : n.toNat < 2 ^ 63) : n.toInt64.toInt = n.toNat := by
  have same : n.toInt64 = Int64.ofNat n.toNat := by
    rw [← Int64.toInt64_toUInt64 (.ofNat n.toNat), Int64.toUInt64_ofNat', UInt64.ofNat_toNat]
  rw [same, Int64.toInt_ofNat_of_lt h]

theorem toNat_toUInt64 {x : Int64} (h : 0 ≤ x.toInt) : x.toUInt64.toNat = x.toInt.toNat :=
  Int64.toNat_toUInt64_of_le (Int64.le_iff_toInt_le.mpr h)

theorem slice?_eq {α : Type} {l : List α} {first last : UInt64} (fits : l.length < 2 ^ 63)
    (h : first.toNat ≤ last.toNat) (inside : last.toNat < l.length) :
    slice? l first last = some ((l.drop first.toNat).take (last.toNat + 1 - first.toNat)) := by
  refine if_pos ⟨?_, by omega, inside⟩
  rw [show UInt64.size = 2 ^ 64 from rfl]
  omega

end Machine

namespace OrderSnapshot

open Machine

/-! ## Positions -/

/-- The position of a bound, which counts from the end if it is negative. -/
def position (s : OrderSnapshot) (bound : Int) : Int :=
  if bound < 0 then s.length + bound else bound

/-- The ids whose positions are between two numbers, in order. -/
def idsAt (s : OrderSnapshot) (first last : Int) : List String :=
  (s.entries.zipIdx.filter fun p => first ≤ (p.2 : Int) && (p.2 : Int) ≤ last).map (·.1.id)

theorem filter_zipIdx {α : Type} (first stop : Nat) : ∀ (l : List α) (n : Nat),
    ((l.zipIdx n).filter fun p => first ≤ p.2 && p.2 < stop).map (·.1)
      = (l.drop (first - n)).take (stop - max first n)
  | [], _ => by simp
  | a :: rest, n => by
    rw [List.zipIdx_cons, List.filter_cons]
    by_cases before : n < first
    · -- The entry stands in front of the slice.
      rw [if_neg (by simp; omega), filter_zipIdx first stop rest (n + 1),
        show first - n = first - (n + 1) + 1 by omega, List.drop_succ_cons]
      congr 1
      omega
    · have drop (l : List α) (k : Nat) (h : first ≤ k) : l.drop (first - k) = l := by
        rw [Nat.sub_eq_zero_of_le h, List.drop_zero]
      rw [drop _ n (by omega)]
      by_cases inside : n < stop
      · rw [if_pos (by simp; omega), List.map_cons, filter_zipIdx first stop rest (n + 1),
          drop _ (n + 1) (by omega),
          show stop - max first n = stop - max first (n + 1) + 1 by omega, List.take_succ_cons]
      · rw [if_neg (by simp; omega), filter_zipIdx first stop rest (n + 1),
          show stop - max first n = 0 by omega, show stop - max first (n + 1) = 0 by omega,
          List.take_zero, List.take_zero]

theorem idsAt_eq (s : OrderSnapshot) {first last : Int} (h : 0 ≤ first) :
    s.idsAt first last
      = ((s.entries.drop first.toNat).take ((last + 1).toNat - first.toNat)).map (·.id) := by
  have slice := filter_zipIdx first.toNat (last + 1).toNat s.entries 0
  rw [Nat.sub_zero, Nat.max_zero] at slice
  rw [← slice, idsAt, List.map_map]
  refine congrArg _ (List.filter_congr fun p _ => ?_)
  rw [Bool.eq_iff_iff]
  simp only [Bool.and_eq_true, decide_eq_true_eq]
  omega

/-- A range holds the ids between its bounds, of which the first is moved up to the beginning of the
order and the last down to its end. -/
theorem range_eq_idsAt (s : OrderSnapshot) (start stop : Int) :
    s.range start stop
      = s.idsAt (max (s.position start) 0) (min (s.position stop) (s.length - 1)) := by
  have first : (if start < 0 then max ((s.length : Int) + start) 0 else start)
      = max (s.position start) 0 := by
    unfold position
    split <;> omega
  have last : (if stop < 0 then (s.length : Int) + stop else min stop (s.length - 1))
      = min (s.position stop) (s.length - 1) := by
    unfold position
    split <;> omega
  have nonneg : 0 ≤ max (s.position start) 0 := by omega
  rw [range, first, last, idsAt_eq s nonneg]
  generalize max (s.position start) 0 = first at nonneg
  generalize min (s.position stop) ((s.length : Int) - 1) = last
  split
  · next outside =>
    have none : (s.entries.drop first.toNat).take ((last + 1).toNat - first.toNat) = [] := by
      rw [← List.length_eq_zero_iff, List.length_take, List.length_drop]
      unfold length at outside
      omega
    rw [none, List.map_nil]
  · next inside =>
    congr 2
    omega

/-! ## With 64 bits -/

/-- The length of an order as an unsigned number. -/
def length64 (s : OrderSnapshot) : UInt64 := .ofNat s.length

/-- The first position of a range. -/
def first64? (length start : Int64) : Option Int64 :=
  if start < 0 then (signed? (length.toInt + start.toInt)).map (max · 0) else some start

/-- The last position of a range. -/
def last64? (length stop : Int64) : Option Int64 :=
  if stop < 0 then signed? (length.toInt + stop.toInt)
  else (signed? (length.toInt - 1)).map (min stop)

/-- `range` with numbers of 64 bits. -/
def range64? (s : OrderSnapshot) (start stop : Int64) : Option (List String) :=
  let length := s.length64.toInt64
  if length = 0 then some []
  else do
    let first ← first64? length start
    let last ← last64? length stop
    if last < first ∨ length ≤ first then return []
    let entries ← slice? s.entries first.toUInt64 last.toUInt64
    return entries.map (·.id)

/-- `lastN` with numbers of 64 bits. -/
def lastN64? (s : OrderSnapshot) (n : UInt64) : Option (List String) :=
  let n := min n s.length64
  if n = 0 then some []
  else do
    let start ← signed? (-n.toInt64.toInt)
    s.range64? start (-1)

/-- `ids` with numbers of 64 bits. -/
def ids64? (s : OrderSnapshot) : Option (List String) := s.range64? 0 (-1)

theorem exists_first64? (length start : Int64) (h : 0 ≤ length.toInt) :
    ∃ x, first64? length start = some x ∧
      x.toInt = if start.toInt < 0 then max (length.toInt + start.toInt) 0 else start.toInt := by
  have low := start.le_toInt
  have high := length.toInt_lt
  simp only [first64?, Int64.lt_iff_toInt_lt, Int64.toInt_zero]
  split
  · obtain ⟨x, some, value⟩ :=
      exists_signed? (n := length.toInt + start.toInt) (by omega) (by omega)
    exact ⟨max x 0, by rw [some, Option.map_some], by rw [toInt_max, value, Int64.toInt_zero]⟩
  · exact ⟨start, rfl, rfl⟩

theorem exists_last64? (length stop : Int64) (h : 0 ≤ length.toInt) :
    ∃ x, last64? length stop = some x ∧
      x.toInt = if stop.toInt < 0 then length.toInt + stop.toInt
        else min stop.toInt (length.toInt - 1) := by
  have low := stop.le_toInt
  have high := length.toInt_lt
  simp only [last64?, Int64.lt_iff_toInt_lt, Int64.toInt_zero]
  split
  · exact exists_signed? (by omega) (by omega)
  · obtain ⟨x, some, value⟩ := exists_signed? (n := length.toInt - 1) (by omega) (by omega)
    exact ⟨min stop x, by rw [some, Option.map_some], by rw [toInt_min, value]⟩

section

variable {s : OrderSnapshot} (fits : s.length < 2 ^ 63)
include fits

theorem toNat_length64 : s.length64.toNat = s.length := by
  rw [length64, UInt64.toNat_ofNat', Nat.mod_eq_of_lt (by omega)]

theorem toInt_length64 : s.length64.toInt64.toInt = s.length := by
  rw [toInt_toInt64 (by rw [toNat_length64 fits]; exact fits), toNat_length64 fits]

/-- A range is cut without overflow and within bounds. -/
theorem range64?_eq (start stop : Int64) :
    s.range64? start stop = some (s.range start.toInt stop.toInt) := by
  have len := toInt_length64 fits
  obtain ⟨first, someFirst, hfirst⟩ := exists_first64? s.length64.toInt64 start (by omega)
  obtain ⟨last, someLast, hlast⟩ := exists_last64? s.length64.toInt64 stop (by omega)
  rw [len] at hfirst hlast
  rw [range64?, range, ← hfirst, ← hlast, someFirst, someLast]
  simp only [← Int64.toInt_inj, Int64.lt_iff_toInt_lt, Int64.le_iff_toInt_le, len, Int64.toInt_zero]
  by_cases empty : s.length = 0
  · rw [if_pos (by omega), if_pos (.inl empty)]
  rw [if_neg (by omega), Option.bind_eq_bind, Option.bind_some, Option.bind_eq_bind,
    Option.bind_some]
  by_cases outside : last.toInt < first.toInt ∨ (s.length : Int) ≤ first.toInt
  · rw [if_pos outside, if_pos (.inr outside)]
    rfl
  -- What is left is a slice within the order.
  have low : 0 ≤ first.toInt := by
    rw [hfirst]
    split <;> omega
  have high : last.toInt < s.length := by
    rw [hlast]
    split <;> omega
  have toNat_first := toNat_toUInt64 low
  have toNat_last := toNat_toUInt64 (x := last) (by omega)
  have inside : last.toUInt64.toNat < s.entries.length := by
    unfold length at high
    omega
  rw [if_neg outside, if_neg (by omega), slice?_eq fits (by omega) inside, toNat_first, toNat_last]
  have count : last.toInt.toNat + 1 - first.toInt.toNat = (last.toInt - first.toInt + 1).toNat := by
    omega
  rw [count]
  rfl

/-- The last ids are cut without overflow and within bounds. -/
theorem lastN64?_eq (n : UInt64) : s.lastN64? n = some (s.lastN n.toNat) := by
  have least : (min n s.length64).toNat = min n.toNat s.length := by
    rw [UInt64.toNat_min, toNat_length64 fits]
  simp only [lastN64?, lastN, ← UInt64.toNat_inj, least, UInt64.toNat_zero]
  split
  · rfl
  · next some =>
    have value := toInt_toInt64 (n := min n s.length64) (by omega)
    obtain ⟨start, fit, start_eq⟩ :=
      exists_signed? (n := -(min n s.length64).toInt64.toInt) (by omega) (by omega)
    rw [fit, Option.bind_eq_bind, Option.bind_some, range64?_eq fits, start_eq, value, least]
    rfl

theorem ids64?_eq : s.ids64? = some s.ids := range64?_eq fits 0 (-1)

end

/-! ## Ranges -/

theorem ids_eq_take_append (s : OrderSnapshot) (n : Nat) :
    s.ids = (s.entries.map (·.id)).take (s.length - min n s.length) ++ s.lastN n := by
  rw [ids_eq_map, lastN_eq, lastEntries, List.map_drop,
    show s.length - min n s.length = s.length - n by omega, List.take_append_drop]

/--
What ranges of an order hold, which fits into memory. They are cut with numbers of 64 bits, no sum
overflows and no slice is out of bounds; the last ids complete the first ones to the whole order.
-/
theorem ranges_exact (s : OrderSnapshot) (fits : s.length < 2 ^ 63) :
    (∀ start stop : Int64,
      s.range64? start stop = some (s.range start.toInt stop.toInt) ∧
      s.range start.toInt stop.toInt = s.idsAt (max (s.position start.toInt) 0)
        (min (s.position stop.toInt) (s.length - 1))) ∧
    ∀ n : UInt64,
      s.lastN64? n = some (s.lastN n.toNat) ∧
      s.lastN n.toNat = (s.entries.map (·.id)).drop (s.length - min n.toNat s.length) ∧
      s.ids64? = some s.ids ∧
      s.ids = (s.entries.map (·.id)).take (s.length - min n.toNat s.length) ++ s.lastN n.toNat := by
  refine ⟨fun start stop => ⟨range64?_eq fits start stop, s.range_eq_idsAt _ _⟩,
    fun n => ⟨lastN64?_eq fits n, ?_, ids64?_eq fits, s.ids_eq_take_append n.toNat⟩⟩
  rw [lastN_eq, lastEntries, List.map_drop,
    show s.length - min n.toNat s.length = s.length - n.toNat by omega]

theorem ranges_exact_extremes :
    let s : OrderSnapshot := ⟨[⟨"a", .ofInt 1⟩, ⟨"b", .ofInt 2⟩, ⟨"c", .ofInt 3⟩]⟩
    s.length < 2 ^ 63 ∧
    s.range64? Int64.minValue Int64.maxValue = some ["a", "b", "c"] ∧
    s.range64? (-2) Int64.minValue = some [] ∧
    s.lastN64? 2 = some ["b", "c"] := by
  intro s
  have fits : s.length < 2 ^ 63 := by decide
  obtain ⟨range, last⟩ := s.ranges_exact fits
  exact ⟨fits, (range _ _).1.trans (by decide), (range _ _).1.trans (by decide),
    (last 2).1.trans (by decide)⟩

end OrderSnapshot

end ChatMemory
