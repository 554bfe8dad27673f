/-!
# The calendar

Days of the proleptic Gregorian calendar and their numbers, day 0 being 1970-01-01. Years are
astronomical: the year before year 1 is year 0.

A day number is split from the top: 400-year cycles, centuries, four-year groups, years. The last
century of a cycle and the last year of a group are a day longer than the others, so a quotient of
four counts as three. What is left is the day of the year, and the months are walked one by one.

## Main statements

* `dayNumber_ofDayNumber` — the date of a day number has that number.
* `ofDayNumber_dayNumber` — a valid date is the date of its number.
-/

namespace ChatMemory

/-- A date, not necessarily one that exists. Months and days count from 1. -/
structure Date where
  year : Int
  month : Nat
  day : Nat
deriving DecidableEq

namespace Date

/-- Whether the year has 366 days. -/
def isLeap (year : Int) : Bool :=
  decide (year % 4 = 0) && (decide (year % 100 ≠ 0) || decide (year % 400 = 0))

/-- The number of days of each month. -/
def monthLengths (leap : Bool) : List Nat :=
  [31, if leap then 29 else 28, 31, 30, 31, 30, 31, 31, 30, 31, 30, 31]

/-- Whether the calendar has the date. -/
def exists? (d : Date) : Bool :=
  match d.month with
  | 0 => false
  | m + 1 =>
    match (monthLengths (isLeap d.year))[m]? with
    | some length => 1 ≤ d.day && d.day ≤ length
    | none => false

/-- The number of days from 0001-01-01 to the first day of a year. -/
def daysBeforeYear (year : Int) : Int :=
  365 * (year - 1) + (year - 1) / 4 - (year - 1) / 100 + (year - 1) / 400

/-- The number of days from 0001-01-01 to 1970-01-01. -/
def epoch : Int := 719162

/-- The number of days of the year before a month. -/
def daysBeforeMonth (leap : Bool) (month : Nat) : Nat :=
  ((monthLengths leap).take (month - 1)).foldl (· + ·) 0

/-- The number of a date. -/
def dayNumber (d : Date) : Int :=
  daysBeforeYear d.year + daysBeforeMonth (isLeap d.year) d.month + ((d.day : Int) - 1) - epoch

/-- The year that holds a day, counted from 0001-01-01. -/
def yearOfDay (n : Int) : Int :=
  let cycle := n % 146097
  let century := min (cycle / 36524) 3
  let inCentury := cycle - 36524 * century
  let group := inCentury / 1461
  let inGroup := inCentury - 1461 * group
  400 * (n / 146097) + 100 * century + 4 * group + min (inGroup / 365) 3 + 1

/-- Walks the months from a given one on: the month and the day of a day of the rest of the year. -/
def monthAndDay (month : Nat) : List Nat → Nat → Nat × Nat
  | [], n => (month, n + 1)
  | length :: lengths, n =>
    if n < length then (month, n + 1) else monthAndDay (month + 1) lengths (n - length)

/-- The date of a day number. -/
def ofDayNumber (number : Int) : Date :=
  let year := yearOfDay (number + epoch)
  let dayOfYear := (number + epoch - daysBeforeYear year).toNat
  let (month, day) := monthAndDay 1 (monthLengths (isLeap year)) dayOfYear
  ⟨year, month, day⟩

/-! ## The two directions -/

/-- The length of a year. -/
def yearLength (year : Int) : Nat := if isLeap year then 366 else 365

/-- The days before a year that is given by its place in cycle, century and group. -/
theorem daysBeforeYear_split {cycle century group year : Int} (h₁ : 0 ≤ century ∧ century ≤ 3)
    (h₂ : 0 ≤ group ∧ group ≤ 24) (h₃ : 0 ≤ year ∧ year ≤ 3) :
    daysBeforeYear (400 * cycle + 100 * century + 4 * group + year + 1)
      = 146097 * cycle + 36524 * century + 1461 * group + 365 * year := by
  simp only [daysBeforeYear]
  have q4 : (400 * cycle + 100 * century + 4 * group + year + 1 - 1) / 4
      = 100 * cycle + 25 * century + group := by omega
  have q100 : (400 * cycle + 100 * century + 4 * group + year + 1 - 1) / 100
      = 4 * cycle + century := by omega
  have q400 : (400 * cycle + 100 * century + 4 * group + year + 1 - 1) / 400 = cycle := by omega
  rw [q4, q100, q400]
  omega

/-- The length of a year that is given by its place in cycle, century and group. -/
theorem yearLength_split {cycle century group year : Int} (h₁ : 0 ≤ century ∧ century ≤ 3)
    (h₂ : 0 ≤ group ∧ group ≤ 24) (h₃ : 0 ≤ year ∧ year ≤ 3) :
    yearLength (400 * cycle + 100 * century + 4 * group + year + 1)
      = if year = 3 ∧ (group < 24 ∨ century = 3) then 366 else 365 := by
  have r4 : (400 * cycle + 100 * century + 4 * group + year + 1) % 4 = 0 ↔ year = 3 := by omega
  have r100 : (400 * cycle + 100 * century + 4 * group + year + 1) % 100 = 0 ↔
      year = 3 ∧ group = 24 := by omega
  have r400 : (400 * cycle + 100 * century + 4 * group + year + 1) % 400 = 0 ↔
      year = 3 ∧ group = 24 ∧ century = 3 := by omega
  have leap : isLeap (400 * cycle + 100 * century + 4 * group + year + 1) = true ↔
      year = 3 ∧ (group < 24 ∨ century = 3) := by
    simp only [isLeap, Bool.and_eq_true, Bool.or_eq_true, decide_eq_true_eq, ne_eq, r4, r100, r400]
    omega
  simp only [yearLength, leap]

/-- The days before the year after one that is given by its place. -/
theorem daysBeforeYear_split_succ {cycle century group year : Int}
    (h₁ : 0 ≤ century ∧ century ≤ 3) (h₂ : 0 ≤ group ∧ group ≤ 24) (h₃ : 0 ≤ year ∧ year ≤ 3) :
    daysBeforeYear (400 * cycle + 100 * century + 4 * group + year + 1 + 1)
      = 146097 * cycle + 36524 * century + 1461 * group + 365 * year
        + yearLength (400 * cycle + 100 * century + 4 * group + year + 1) := by
  have q4 : (400 * cycle + 100 * century + 4 * group + year + 1 + 1 - 1) / 4
      = 100 * cycle + 25 * century + group + (year + 1) / 4 := by omega
  have q100 : (400 * cycle + 100 * century + 4 * group + year + 1 + 1 - 1) / 100
      = 4 * cycle + century + (4 * group + year + 1) / 100 := by omega
  have q400 : (400 * cycle + 100 * century + 4 * group + year + 1 + 1 - 1) / 400
      = cycle + (100 * century + 4 * group + year + 1) / 400 := by omega
  rw [yearLength_split h₁ h₂ h₃]
  simp only [daysBeforeYear, q4, q100, q400]
  split <;> omega

theorem exists_split (year : Int) : ∃ cycle century group place : Int,
    (0 ≤ century ∧ century ≤ 3) ∧ (0 ≤ group ∧ group ≤ 24) ∧ (0 ≤ place ∧ place ≤ 3) ∧
      year = 400 * cycle + 100 * century + 4 * group + place + 1 :=
  ⟨(year - 1) / 400, (year - 1) % 400 / 100, (year - 1) % 100 / 4, (year - 1) % 4,
    by omega, by omega, by omega, by omega⟩

theorem daysBeforeYear_succ (year : Int) :
    daysBeforeYear (year + 1) = daysBeforeYear year + yearLength year := by
  obtain ⟨cycle, century, group, place, h₁, h₂, h₃, rfl⟩ := exists_split year
  rw [daysBeforeYear_split_succ h₁ h₂ h₃, daysBeforeYear_split h₁ h₂ h₃]

theorem daysBeforeYear_yearOfDay_le (n : Int) : daysBeforeYear (yearOfDay n) ≤ n := by
  simp only [yearOfDay]
  rw [daysBeforeYear_split (by omega) (by omega) (by omega)]
  omega

theorem lt_daysBeforeYear_yearOfDay (n : Int) : n < daysBeforeYear (yearOfDay n + 1) := by
  simp only [yearOfDay]
  rw [daysBeforeYear_split_succ (by omega) (by omega) (by omega),
    yearLength_split (by omega) (by omega) (by omega)]
  split <;> omega

theorem daysBeforeYear_lt (year : Int) : daysBeforeYear year < daysBeforeYear (year + 1) := by
  simp only [daysBeforeYear]
  omega

theorem daysBeforeYear_mono {a b : Int} (h : a ≤ b) : daysBeforeYear a ≤ daysBeforeYear b := by
  obtain ⟨k, rfl⟩ := Int.le.dest h
  induction k with
  | zero => simp
  | succ k ih =>
    have := daysBeforeYear_lt (a + k)
    have := ih (by omega)
    rw [show a + ((k + 1 : Nat) : Int) = a + k + 1 by omega]
    omega

/-- A day of a year is given that year. -/
theorem yearOfDay_eq {n year : Int} (h₁ : daysBeforeYear year ≤ n)
    (h₂ : n < daysBeforeYear (year + 1)) : yearOfDay n = year := by
  have l := daysBeforeYear_yearOfDay_le n
  have u := lt_daysBeforeYear_yearOfDay n
  rcases Int.lt_trichotomy (yearOfDay n) year with h | h | h
  · have := daysBeforeYear_mono (show yearOfDay n + 1 ≤ year by omega)
    omega
  · exact h
  · have := daysBeforeYear_mono (show year + 1 ≤ yearOfDay n by omega)
    omega

/-! ### Days within a year -/

/-- Within a year, the month and day found for a day have that day's place. -/
theorem daysBeforeMonth_monthAndDay (leap : Bool) {n : Nat}
    (h : n < if leap then 366 else 365) :
    1 ≤ (monthAndDay 1 (monthLengths leap) n).2 ∧
      daysBeforeMonth leap (monthAndDay 1 (monthLengths leap) n).1
        + (monthAndDay 1 (monthLengths leap) n).2 = n + 1 := by
  have all : ∀ leap : Bool, ∀ n ∈ List.range (if leap then 366 else 365),
      1 ≤ (monthAndDay 1 (monthLengths leap) n).2 ∧
        daysBeforeMonth leap (monthAndDay 1 (monthLengths leap) n).1
          + (monthAndDay 1 (monthLengths leap) n).2 = n + 1 := by
    decide +kernel
  exact all leap n (List.mem_range.mpr h)

/-- Within a year, each month and day are found from their place. -/
theorem monthAndDay_daysBeforeMonth (leap : Bool) {m day length : Nat}
    (hm : (monthLengths leap)[m]? = some length) (h₁ : 1 ≤ day) (h₂ : day ≤ length) :
    daysBeforeMonth leap (m + 1) + (day - 1) < (if leap then 366 else 365) ∧
      monthAndDay 1 (monthLengths leap) (daysBeforeMonth leap (m + 1) + (day - 1))
        = (m + 1, day) := by
  have all : ∀ leap : Bool, ∀ m ∈ List.range 12, ∀ k ∈ List.range ((monthLengths leap)[m]?.getD 0),
      daysBeforeMonth leap (m + 1) + k < (if leap then 366 else 365) ∧
        monthAndDay 1 (monthLengths leap) (daysBeforeMonth leap (m + 1) + k)
          = (m + 1, k + 1) := by
    decide +kernel
  have hlt : m < 12 := by
    have := (List.getElem?_eq_some_iff.mp hm).1
    cases leap <;> simpa [monthLengths] using this
  have := all leap m (List.mem_range.mpr hlt) (day - 1)
    (List.mem_range.mpr (by rw [hm]; simp only [Option.getD_some]; omega))
  rwa [show day - 1 + 1 = day by omega] at this

theorem yearLength_def (year : Int) :
    yearLength year = if isLeap year then 366 else 365 := rfl

/-! ### Dates and day numbers -/

theorem dayNumber_ofDayNumber (number : Int) : dayNumber (ofDayNumber number) = number := by
  have l := daysBeforeYear_yearOfDay_le (number + epoch)
  have u := lt_daysBeforeYear_yearOfDay (number + epoch)
  rw [daysBeforeYear_succ] at u
  have h := daysBeforeMonth_monthAndDay (isLeap (yearOfDay (number + epoch)))
    (n := (number + epoch - daysBeforeYear (yearOfDay (number + epoch))).toNat)
    (by rw [← yearLength_def]; omega)
  simp only [ofDayNumber, dayNumber]
  omega

theorem ofDayNumber_dayNumber {d : Date} (h : d.exists? = true) :
    ofDayNumber (dayNumber d) = d := by
  obtain ⟨year, month, day⟩ := d
  simp only [exists?] at h
  split at h
  · exact absurd h (by simp)
  · next m =>
    split at h
    · next length hm =>
      simp only [Bool.and_eq_true, decide_eq_true_eq] at h
      obtain ⟨hlt, found⟩ := monthAndDay_daysBeforeMonth (isLeap year) hm h.1 h.2
      rw [← yearLength_def] at hlt
      have number : dayNumber ⟨year, m + 1, day⟩ + epoch
          = daysBeforeYear year + (daysBeforeMonth (isLeap year) (m + 1) + (day - 1) : Nat) := by
        simp only [dayNumber]
        omega
      have hyear : yearOfDay (dayNumber ⟨year, m + 1, day⟩ + epoch) = year :=
        yearOfDay_eq (by omega) (by rw [daysBeforeYear_succ]; omega)
      simp only [ofDayNumber, hyear]
      rw [show (dayNumber ⟨year, m + 1, day⟩ + epoch - daysBeforeYear year).toNat
        = daysBeforeMonth (isLeap year) (m + 1) + (day - 1) by omega, found]
    · exact absurd h (by simp)

end Date

end ChatMemory
