/-!
# Finite binary64 numbers

A finite binary64 number is a sign and a *rank*: the position of its magnitude among all finite
magnitudes, zero being rank 0. The rank is also the bit pattern below the sign bit, so comparing
ranks compares magnitudes.

Every finite magnitude is a whole number of units of 2⁻¹⁰⁷⁴ (`units`). Arithmetic is therefore
exact arithmetic on natural numbers followed by one rounding (`nearestRank`), to the nearest
magnitude and from half way to the one with the even rank.

## Main statements

* `order_injective` — numbers are told apart by their place in the total order.
* `nearestRank_of_lt` — magnitudes below 2⁵³ units are not rounded.
-/

namespace ChatMemory

/-- One more than the rank of the largest finite magnitude. -/
def Binary64.rankBound : Nat := 2047 * Nat.pow 2 52

/-- A finite binary64 number. Zero comes with either sign. -/
structure Binary64 where
  negative : Bool
  rank : Nat
  rank_lt : rank < Binary64.rankBound
deriving DecidableEq

namespace Binary64

/-- Positive zero. -/
def zero : Binary64 := ⟨false, 0, by decide⟩

/-! ## Rounding -/

/-- The whole number nearest to `num / den`; from half way, the even one. -/
def roundHalfEven (num den : Nat) : Nat :=
  let below := num / den
  let excess := 2 * (num % den)
  if excess < den ∨ (excess = den ∧ below % 2 = 0) then below else below + 1

/-- The magnitude of a rank, in units of 2⁻¹⁰⁷⁴. -/
def units (rank : Nat) : Nat :=
  if rank < Nat.pow 2 52 then rank
  else (Nat.pow 2 52 + rank % Nat.pow 2 52) * Nat.pow 2 (rank / Nat.pow 2 52 - 1)

/--
The rank of the magnitude nearest to `num / den` units.

A magnitude below 2⁵³ units is kept to the unit. Above that only 53 significant bits are kept, so
the step between neighbours is the power of two that leaves that many. The result may lie past
`rankBound`, which means that the magnitude is too large.
-/
def nearestRank (num den : Nat) : Nat :=
  let shift := Nat.log2 (num / den) - 52
  shift * Nat.pow 2 52 + roundHalfEven num (den * Nat.pow 2 shift)

/-- The number of units in one. -/
def unitsPerOne : Nat := Nat.pow 2 1074

/-- The number of a sign and a rank, if the rank is one of a finite magnitude. -/
def ofRank? (negative : Bool) (rank : Nat) : Option Binary64 :=
  if h : rank < rankBound then some ⟨negative, rank, h⟩ else none

/-- The number of a sign and a rank; ranks past the finite ones stand for the largest magnitude. -/
def ofRank (negative : Bool) (rank : Nat) : Binary64 :=
  if h : rank < rankBound then ⟨negative, rank, h⟩ else ⟨negative, rankBound - 1, by decide⟩

/-! ## Conversion and addition -/

/-- The number nearest to an integer. Zero is positive. -/
def ofInt (value : Int) : Binary64 :=
  ofRank (decide (value < 0)) (nearestRank (value.natAbs * unitsPerOne) 1)

/-- The exact value, in units. -/
def signedUnits (x : Binary64) : Int :=
  if x.negative then -(units x.rank : Int) else units x.rank

/-- The number nearest to the exact sum. A sum of zero is negative only if both parts are. -/
def add (x y : Binary64) : Binary64 :=
  let sum := x.signedUnits + y.signedUnits
  if sum = 0 then ⟨x.negative && y.negative, 0, by decide⟩
  else ofRank (decide (sum < 0)) (nearestRank sum.natAbs 1)

instance : Add Binary64 := ⟨add⟩

/-- The opposite sign. -/
def neg (x : Binary64) : Binary64 := { x with negative := !x.negative }

/-- The integer part: the fraction is cut off. -/
def truncate (x : Binary64) : Int :=
  let whole : Int := (units x.rank / unitsPerOne : Nat)
  if x.negative then -whole else whole

/-! ## Order -/

/--
The place of a number in the total order of finite numbers. Negative zero is placed right before
positive zero, and no two numbers share a place.
-/
def order (x : Binary64) : Int :=
  if x.negative then -(x.rank : Int) - 1 else x.rank

theorem order_injective {x y : Binary64} (h : x.order = y.order) : x = y := by
  obtain ⟨xn, xr, hx⟩ := x
  obtain ⟨yn, yr, hy⟩ := y
  simp only [order] at h
  cases xn <;> cases yn <;> simp only [Bool.false_eq_true, ↓reduceIte] at h
  · obtain rfl : xr = yr := by omega
    rfl
  · omega
  · omega
  · obtain rfl : xr = yr := by omega
    rfl

/-! ## Facts about units -/

@[simp]
theorem units_zero : units 0 = 0 := rfl

theorem roundHalfEven_one (num : Nat) : roundHalfEven num 1 = num := by
  simp [roundHalfEven, Nat.mod_one]

/-- Below 2⁵³ units nothing is rounded. -/
theorem nearestRank_of_lt {num : Nat} (h : num < Nat.pow 2 53) : nearestRank num 1 = num := by
  have hlog : Nat.log2 num - 52 = 0 := by
    by_cases h0 : num = 0
    · subst h0; rfl
    · have := (Nat.log2_lt h0).mpr h
      omega
  simp [nearestRank, hlog, roundHalfEven_one]

end Binary64

end ChatMemory
