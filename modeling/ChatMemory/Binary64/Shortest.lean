import ChatMemory.Binary64.Basic

/-!
# The shortest decimal of a binary64 number

A decimal `digits · 10^exponent` *reads back* as a magnitude when rounding it gives that magnitude.
Of all decimals that read back, the shortest one lies on the coarsest grid 10^`exponent` that holds
any; on that grid it is the one nearer to the exact value, and from half way the even one.

On each grid only the two neighbours of the exact value need a look: if any point of the grid reads
back, one of these does. The search begins on a grid at most a thousand times coarser than the
value and takes fewer than twenty-four steps, since seventeen digits always read back.
-/

namespace ChatMemory.Binary64

/-- The decimal `digits · 10^exponent`. -/
structure Decimal where
  digits : Nat
  exponent : Int
deriving DecidableEq, Repr

namespace Decimal

/-- The numerator of a decimal, in units. -/
def numerator (d : Decimal) : Nat := d.digits * Nat.pow 10 d.exponent.toNat * unitsPerOne

/-- The denominator of a decimal. -/
def denominator (d : Decimal) : Nat := Nat.pow 10 (-d.exponent).toNat

/-- Whether rounding the decimal gives the magnitude of that rank. -/
def readsBack (d : Decimal) (rank : Nat) : Bool :=
  nearestRank d.numerator d.denominator == rank

end Decimal

/--
The better neighbour of a magnitude on one grid, if any reads back.

Of two that do, the nearer one is taken. The even one is taken when both are equally near.
-/
def onGrid? (rank : Nat) (exponent : Int) : Option Decimal :=
  let num := units rank * Nat.pow 10 (-exponent).toNat
  let den := unitsPerOne * Nat.pow 10 exponent.toNat
  let lower : Decimal := ⟨num / den, exponent⟩
  let upper : Decimal := ⟨num / den + 1, exponent⟩
  let nearest : Decimal := ⟨roundHalfEven num den, exponent⟩
  if lower.readsBack rank then
    if upper.readsBack rank then some nearest else some lower
  else if upper.readsBack rank then some upper
  else none

/-- Tries finer and finer grids. -/
def search (rank : Nat) (exponent : Int) : Nat → Decimal
  | 0 => ⟨units rank, exponent⟩
  | steps + 1 =>
    match onGrid? rank exponent with
    | some d => d
    | none => search rank (exponent - 1) steps

/-- A power of ten above the magnitude: log₁₀ 2 is a little less than 30103 / 100000. -/
def coarseExponent (rank : Nat) : Int :=
  ((Nat.log2 (units rank) : Int) - 1073) * 30103 / 100000 + 2

/-- The shortest decimal that reads back as the magnitude of a rank; of zero, the digit 0. -/
def shortest (rank : Nat) : Decimal :=
  if rank = 0 then ⟨0, 0⟩ else search rank (coarseExponent rank) 24

/-! ## What is found reads back -/

theorem onGrid?_eq_some {rank : Nat} {exponent : Int} {d : Decimal}
    (h : onGrid? rank exponent = some d) : d.readsBack rank = true := by
  simp only [onGrid?] at h
  split at h
  · next hl =>
    split at h
    · next hu =>
      rw [← Option.some.inj h]
      simp only [roundHalfEven]
      split
      · exact hl
      · exact hu
    · rw [← Option.some.inj h]; exact hl
  · split at h
    · next hu => rw [← Option.some.inj h]; exact hu
    · exact absurd h (by simp)

example : shortest (ofInt 1704110401000003).rank = ⟨1704110401000003, 0⟩ := by decide +kernel
example : shortest 1 = ⟨5, -324⟩ := by decide +kernel

end ChatMemory.Binary64
