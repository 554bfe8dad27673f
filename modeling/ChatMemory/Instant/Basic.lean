import ChatMemory.Instant.Calendar

/-!
# Instants

A point in time in UTC: seconds since 1970-01-01T00:00:00Z and nanoseconds within the second. A
leap second has no number of its own. It belongs to the last second of a minute, whose nanoseconds
then go on past 10⁹.

Instants are ordered by seconds, then nanoseconds.

## Main statements

* `lt_nextMicrosecond` — moving on by a microsecond moves on, also within a leap second.
* `le_antisymm`, `le_trans`, `le_total` — the order is total.
-/

namespace ChatMemory

/-- A point in time. -/
structure Instant where
  seconds : Int
  nanos : Nat
  nanos_lt : nanos < 2_000_000_000
  leap_at_end : 1_000_000_000 ≤ nanos → seconds % 60 = 59
deriving DecidableEq

namespace Instant

/-- The instant of the given seconds and nanoseconds, if there is one. -/
def of? (seconds : Int) (nanos : Nat) : Option Instant :=
  if h : nanos < 2_000_000_000 ∧ (1_000_000_000 ≤ nanos → seconds % 60 = 59) then
    some ⟨seconds, nanos, h.1, h.2⟩
  else none

/-- The instant a number of nanoseconds after the epoch. -/
def ofNanos (n : Int) : Instant :=
  ⟨n / 1_000_000_000, (n % 1_000_000_000).toNat, by omega, by omega⟩

/-- The instant a number of milliseconds after the epoch. -/
def ofMillis (n : Int) : Instant :=
  ⟨n / 1000, (n % 1000).toNat * 1_000_000, by omega, by omega⟩

/-- Whole microseconds since the epoch. Those of a leap second run on into the next second. -/
def micros (t : Instant) : Int := t.seconds * 1_000_000 + (t.nanos / 1000 : Nat)

/-! ## The supported range -/

/-- The first day of the year −262143. -/
def firstDay : Int := Date.dayNumber ⟨-262143, 1, 1⟩

/-- The last day of the year 262142. -/
def lastDay : Int := Date.dayNumber ⟨262142, 12, 31⟩

/-- The day that an instant lies in. -/
def dayOf (seconds : Int) : Int := seconds / 86400

/-- Whether a second lies in the supported years. -/
def inRange (seconds : Int) : Bool := firstDay ≤ dayOf seconds && dayOf seconds ≤ lastDay

/-! ## Order -/

/-- Strictly earlier. -/
def before (s t : Instant) : Prop :=
  s.seconds < t.seconds ∨ (s.seconds = t.seconds ∧ s.nanos < t.nanos)

instance : LT Instant := ⟨before⟩
instance : LE Instant := ⟨fun s t => ¬ t < s⟩

instance (s t : Instant) : Decidable (s < t) :=
  inferInstanceAs (Decidable (s.seconds < t.seconds ∨ (s.seconds = t.seconds ∧ s.nanos < t.nanos)))

instance (s t : Instant) : Decidable (s ≤ t) := inferInstanceAs (Decidable (¬ t < s))

theorem lt_iff {s t : Instant} :
    s < t ↔ s.seconds < t.seconds ∨ (s.seconds = t.seconds ∧ s.nanos < t.nanos) := .rfl

theorem le_iff {s t : Instant} : s ≤ t ↔ ¬ t < s := .rfl

theorem lt_irrefl (t : Instant) : ¬ t < t := by
  rw [lt_iff]; omega

theorem lt_trans {s t u : Instant} (h₁ : s < t) (h₂ : t < u) : s < u := by
  rw [lt_iff] at *; omega

theorem le_refl (t : Instant) : t ≤ t := lt_irrefl t

theorem le_trans {s t u : Instant} (h₁ : s ≤ t) (h₂ : t ≤ u) : s ≤ u := by
  rw [le_iff, lt_iff] at *; omega

theorem le_total (s t : Instant) : s ≤ t ∨ t ≤ s := by
  rw [le_iff, le_iff, lt_iff, lt_iff]; omega

theorem lt_of_lt_of_le {s t u : Instant} (h₁ : s < t) (h₂ : t ≤ u) : s < u := by
  rw [le_iff] at h₂; rw [lt_iff] at *; omega

theorem le_of_lt {s t : Instant} (h : s < t) : s ≤ t := by
  rw [le_iff]; rw [lt_iff] at *; omega

theorem le_antisymm {s t : Instant} (h₁ : s ≤ t) (h₂ : t ≤ s) : s = t := by
  rw [le_iff, lt_iff] at *
  obtain ⟨a, b, _, _⟩ := s
  obtain ⟨c, d, _, _⟩ := t
  simp only at h₁ h₂
  obtain ⟨rfl, rfl⟩ : a = c ∧ b = d := by omega
  rfl

/-- The place of an instant in the order of all instants. -/
def order (t : Instant) : Int := t.seconds * 2_000_000_000 + t.nanos

theorem order_lt_order {s t : Instant} : s.order < t.order ↔ s < t := by
  have := s.nanos_lt
  have := t.nanos_lt
  rw [lt_iff, order, order]
  omega

theorem order_injective {s t : Instant} (h : s.order = t.order) : s = t :=
  le_antisymm (fun hlt => by rw [← order_lt_order] at hlt; omega)
    (fun hlt => by rw [← order_lt_order] at hlt; omega)

/-- The later of two instants. -/
def latest (s t : Instant) : Instant := if s ≤ t then t else s

theorem le_latest_right (s t : Instant) : t ≤ latest s t := by
  unfold latest
  split
  · exact le_refl t
  · next h => exact (le_total s t).resolve_left h

/-! ## The next microsecond -/

/-- A microsecond later. A leap second is stayed in as long as its nanoseconds last. -/
def nextMicrosecond (t : Instant) : Instant :=
  if h : t.nanos < 999_999_000 then ⟨t.seconds, t.nanos + 1000, by omega, by omega⟩
  else if h' : t.nanos < 1_000_000_000 then
    ⟨t.seconds + 1, t.nanos + 1000 - 1_000_000_000, by omega, by omega⟩
  else if h'' : t.nanos < 1_999_999_000 then
    ⟨t.seconds, t.nanos + 1000, by omega, fun _ => t.leap_at_end (by omega)⟩
  else ⟨t.seconds + 1, t.nanos + 1000 - 2_000_000_000, by have := t.nanos_lt; omega,
    by have := t.nanos_lt; omega⟩

theorem lt_nextMicrosecond (t : Instant) : t < t.nextMicrosecond := by
  rw [lt_iff]
  unfold nextMicrosecond
  split
  · exact Or.inr ⟨rfl, by simp only; omega⟩
  · split
    · exact Or.inl (by simp only; omega)
    · split
      · exact Or.inr ⟨rfl, by simp only; omega⟩
      · exact Or.inl (by simp only; omega)

/-- The clock's time, or a microsecond after `previous` if the clock is not past that. -/
def advance (now previous : Instant) : Instant := latest now previous.nextMicrosecond

theorem lt_advance (now previous : Instant) : previous < advance now previous :=
  lt_of_lt_of_le (lt_nextMicrosecond previous) (le_latest_right now _)

end Instant

end ChatMemory
