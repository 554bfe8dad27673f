import ChatMemory.Instant.Json

/-!
# Dates read back

The text of an instant is read by the strict reader as that instant, provided that its year has four
digits. Any other year is written with a sign, and no such text is a strict date.

The pieces of the text are read one by one, so there is one lemma for each kind of piece, about a text
that goes on in any way.

## Main statements

* `exactly?_padded` — a number of a given width is read back.
* `strictParts?_chars` — the parts of a date are read back.
* `ofJson_toJson` — an instant is read back from its stored form, exactly if its year has four digits.
-/

namespace ChatMemory

namespace Text

theorem digit?_of_isDigit {c : Char} (h : c.isDigit = true) :
    digit? c = some (c.toNat - '0'.toNat) := by
  simp only [Char.isDigit, Bool.and_eq_true, decide_eq_true_eq] at h
  rw [digit?, if_pos]
  simp only [Bool.and_eq_true, decide_eq_true_eq]
  exact h

theorem length_padded {width n : Nat} (hw : 0 < width) (h : n < Nat.pow 10 width) :
    (padded width n).length = width := by
  have := (Nat.length_toDigits_le_iff (b := 10) (by decide) hw).mpr h
  rw [padded, List.length_append, List.length_replicate, natChars]
  omega

theorem isDigit_of_mem_padded {width n : Nat} {c : Char} (h : c ∈ padded width n) :
    c.isDigit = true := by
  rcases List.mem_append.mp h with h | h
  · rw [(List.mem_replicate.mp h).2]
    decide
  · exact Nat.isDigit_of_mem_toDigits (by decide) (by decide) h

theorem ofDigitChars_padded (width n : Nat) : Nat.ofDigitChars 10 (padded width n) 0 = n := by
  rw [padded, Nat.ofDigitChars_append, Nat.ofDigitChars_replicate_zero, Nat.mul_zero, natChars,
    Nat.ofDigitChars_ten_toDigits]

end Text

namespace Date

/-- Whether a date exists depends on its year only in whether that is a leap year. -/
theorem exists?_congr {year year' : Int} (h : isLeap year = isLeap year') (month day : Nat) :
    exists? ⟨year, month, day⟩ = exists? ⟨year', month, day⟩ := by
  simp only [exists?, h]

theorem exists?_ofDayNumber (number : Int) : (ofDayNumber number).exists? = true := by
  have l := daysBeforeYear_yearOfDay_le (number + epoch)
  have u := lt_daysBeforeYear_yearOfDay (number + epoch)
  rw [daysBeforeYear_succ, yearLength_def] at u
  have all : ∀ leap : Bool, ∀ n ∈ List.range (if leap then 366 else 365),
      exists? ⟨if leap then 0 else 1, (monthAndDay 1 (monthLengths leap) n).1,
        (monthAndDay 1 (monthLengths leap) n).2⟩ = true := by
    decide +kernel
  have same : isLeap (yearOfDay (number + epoch))
      = isLeap (if isLeap (yearOfDay (number + epoch)) then 0 else 1) := by
    cases isLeap (yearOfDay (number + epoch)) <;> rfl
  refine (exists?_congr same _ _).trans ?_
  exact all (isLeap (yearOfDay (number + epoch)))
    (number + epoch - daysBeforeYear (yearOfDay (number + epoch))).toNat
    (List.mem_range.mpr (by omega))

/-- The numbers of the fields of a date that exists. -/
theorem fields_of_exists? {d : Date} (h : d.exists? = true) :
    1 ≤ d.month ∧ d.month ≤ 12 ∧ 1 ≤ d.day ∧ d.day ≤ 31 := by
  obtain ⟨year, month, day⟩ := d
  simp only [exists?] at h
  split at h
  · exact absurd h (by simp)
  · next m =>
    split at h
    · next length hm =>
      simp only [Bool.and_eq_true, decide_eq_true_eq] at h
      have hlt : m < 12 := by
        have := (List.getElem?_eq_some_iff.mp hm).1
        cases hl : isLeap year <;> simpa [hl, monthLengths] using this
      have le : length ≤ 31 := by
        have all : ∀ leap : Bool, ∀ l ∈ monthLengths leap, l ≤ 31 := by decide
        exact all _ _ (List.mem_of_getElem? hm)
      simp only
      omega
    · exact absurd h (by simp)

theorem daysBeforeMonth_le (leap : Bool) {month : Nat} (h : month ≤ 12) :
    daysBeforeMonth leap month ≤ 335 := by
  have all : ∀ leap : Bool, ∀ m ∈ List.range 13, daysBeforeMonth leap m ≤ 335 := by decide
  exact all leap month (List.mem_range.mpr (by omega))

end Date

namespace Instant

open Text (digit? padded length_padded isDigit_of_mem_padded ofDigitChars_padded)

/-! ## Pieces of a date -/

/-- Digits are read up to a mark that is none, or until there are enough. -/
theorem digitsUpTo_append {rest : List Char} : ∀ {ds : List Char} {value count most : Nat},
    (∀ c ∈ ds, c.isDigit = true) → ds.length ≤ most →
    (most = ds.length ∨ ∃ c cs, rest = c :: cs ∧ digit? c = none) →
    digitsUpTo value count most (ds ++ rest)
      = (Nat.ofDigitChars 10 ds value, count + ds.length, rest)
  | [], value, count, most, _, _, hend => by
    rcases hend with rfl | ⟨c, cs, rfl, hc⟩
    · rfl
    · cases most with
      | zero => rfl
      | succ most =>
        rw [List.nil_append, digitsUpTo, hc]
        rfl
  | d :: ds, value, count, most, hd, hlen, hend => by
    cases most with
    | zero => exact absurd hlen (by simp)
    | succ most =>
      rw [List.cons_append, digitsUpTo, Text.digit?_of_isDigit (hd d List.mem_cons_self)]
      simp only
      rw [digitsUpTo_append (fun c hc => hd c (List.mem_cons_of_mem _ hc))
        (by simpa using hlen) (by simpa using hend), Nat.ofDigitChars_cons, Nat.mul_comm 10 value,
        List.length_cons]
      congr 2
      omega

theorem exactly?_padded {width n : Nat} (hw : 0 < width) (h : n < Nat.pow 10 width) (rest : List Char) :
    exactly? width (padded width n ++ rest) = some (n, rest) := by
  have hlen := length_padded hw h
  rw [exactly?, digitsUpTo_append (fun _ hc => isDigit_of_mem_padded hc) (by omega)
    (Or.inl hlen.symm), ofDigitChars_padded]
  simp [hlen]

theorem fraction?_digits {width n : Nat} (hw : 0 < width) (h9 : width ≤ 9) (h : n < Nat.pow 10 width)
    (rest : List Char) :
    fraction? ('.' :: padded width n ++ 'Z' :: rest)
      = some (n * Nat.pow 10 (9 - width), 'Z' :: rest) := by
  have hlen := length_padded hw h
  rw [List.cons_append, fraction?, digitsUpTo_append (fun _ hc => isDigit_of_mem_padded hc)
    (by omega) (Or.inr ⟨'Z', rest, rfl, by decide⟩), ofDigitChars_padded, hlen]
  split
  · next heq =>
    have : 0 + width = 0 := (Prod.mk.inj (Prod.mk.inj heq).2).1
    omega
  · next heq =>
    obtain ⟨h₁, h₂⟩ := Prod.mk.inj heq
    obtain ⟨h₂, h₃⟩ := Prod.mk.inj h₂
    subst h₁ h₂ h₃
    rw [Nat.zero_add]
    rfl

theorem fraction?_fractionChars {nanos : Nat} (h : nanos < 1_000_000_000) (rest : List Char) :
    fraction? (fractionChars nanos ++ 'Z' :: rest) = some (nanos, 'Z' :: rest) := by
  rw [fractionChars]
  split
  · next h0 =>
    subst h0
    rfl
  · split
    · next h6 =>
      have bound : nanos / 1_000_000 < Nat.pow 10 3 := show nanos / 1_000_000 < 1000 by omega
      rw [fraction?_digits (by decide) (by decide) bound]
      congr 2
      show nanos / 1_000_000 * 1_000_000 = nanos
      omega
    · split
      · next h3 =>
        have bound : nanos / 1000 < Nat.pow 10 6 := show nanos / 1000 < 1_000_000 by omega
        rw [fraction?_digits (by decide) (by decide) bound]
        congr 2
        show nanos / 1000 * 1000 = nanos
        omega
      · have bound : nanos < Nat.pow 10 9 := h
        rw [fraction?_digits (by decide) (by decide) bound]
        congr 2
        exact Nat.mul_one nanos

/-! ## The whole date -/

/-- The year of an instant. -/
def year (t : Instant) : Int := (Date.ofDayNumber (dayOf t.seconds)).year

/-- An instant of a year that has four digits. -/
def FourDigit (t : Instant) : Prop := 0 ≤ t.year ∧ t.year ≤ 9999

instance (t : Instant) : Decidable t.FourDigit :=
  inferInstanceAs (Decidable (0 ≤ t.year ∧ t.year ≤ 9999))

/-- The parts that an instant is written with. -/
def parts (t : Instant) : Parts where
  date := Date.ofDayNumber (dayOf t.seconds)
  hour := (t.seconds % 86400).toNat / 3600
  minute := (t.seconds % 86400).toNat / 60 % 60
  second := (t.seconds % 86400).toNat % 60 + t.nanos / 1_000_000_000
  nanos := t.nanos % 1_000_000_000
  offset := 0

theorem second_le (t : Instant) : t.parts.second ≤ 60 := by
  have := t.nanos_lt
  simp only [parts]
  by_cases h : 1_000_000_000 ≤ t.nanos
  · have := t.leap_at_end h
    omega
  · omega

theorem strictParts?_chars {t : Instant} (h : t.FourDigit) :
    strictParts? t.chars = some t.parts := by
  have date := Date.fields_of_exists? (Date.exists?_ofDayNumber (dayOf t.seconds))
  have hs := t.second_le
  obtain ⟨h₀, h₁⟩ := h
  have year4 : yearChars (Date.ofDayNumber (dayOf t.seconds)).year
      = padded 4 (Date.ofDayNumber (dayOf t.seconds)).year.toNat := if_pos ⟨h₀, h₁⟩
  have two : ∀ {n : Nat}, n < 100 → ∀ rest, exactly? 2 (padded 2 n ++ rest) = some (n, rest) :=
    fun hn rest => exactly?_padded (by decide) hn rest
  simp only [year, parts] at h₀ h₁ hs
  simp only [chars, year4, List.append_assoc, List.cons_append]
  have four : (Date.ofDayNumber (dayOf t.seconds)).year.toNat < Nat.pow 10 4 :=
    show (Date.ofDayNumber (dayOf t.seconds)).year.toNat < 10_000 by omega
  rw [strictParts?, exactly?_padded (by decide) four]
  simp only [Option.bind_eq_bind, Option.bind_some, mark?, if_true]
  rw [two (by omega)]
  simp only [Option.bind_some, if_true]
  rw [two (by omega)]
  simp only [Option.bind_some, between?, true_or, if_true]
  rw [two (by omega)]
  simp only [Option.bind_some, if_true]
  rw [two (by omega)]
  simp only [Option.bind_some, if_true]
  rw [two (by omega)]
  simp only [Option.bind_some]
  rw [fraction?_fractionChars (Nat.mod_lt _ (by decide))]
  simp only [Option.bind_some, offset?, true_or, if_true, List.isEmpty_nil, Option.pure_def, parts]
  rw [Int.toNat_of_nonneg h₀]

/-- Days of years with four digits lie in the supported years. -/
theorem inRange_of_fourDigit {t : Instant} (h : t.FourDigit) : inRange t.seconds = true := by
  have date := Date.fields_of_exists? (Date.exists?_ofDayNumber (dayOf t.seconds))
  have number := Date.dayNumber_ofDayNumber (dayOf t.seconds)
  have months := Date.daysBeforeMonth_le
    (Date.isLeap (Date.ofDayNumber (dayOf t.seconds)).year) date.2.1
  have first : firstDay = -96465292 := by decide +kernel
  have last : lastDay = 95026236 := by decide +kernel
  obtain ⟨h₀, h₁⟩ := h
  simp only [year] at h₀ h₁
  simp only [Date.dayNumber, Date.daysBeforeYear, Date.epoch] at number
  simp only [inRange, Bool.and_eq_true, decide_eq_true_eq]
  omega

theorem ofParts?_parts {t : Instant} (h : t.FourDigit) : ofParts? t.parts = some t := by
  have exists? := Date.exists?_ofDayNumber (dayOf t.seconds)
  have number := Date.dayNumber_ofDayNumber (dayOf t.seconds)
  have range := inRange_of_fourDigit h
  have hs := t.second_le
  have hn := t.nanos_lt
  -- The leap second is the only second 60, and only there the nanoseconds pass 10⁹.
  have leap : t.parts.second = 60 ↔ 1_000_000_000 ≤ t.nanos := by
    simp only [parts] at hs ⊢
    constructor
    · omega
    · intro hl
      have := t.leap_at_end hl
      omega
  have whole : min t.parts.second 59 = (t.seconds % 86400).toNat % 60 := by
    simp only [parts] at hs ⊢
    by_cases hl : 1_000_000_000 ≤ t.nanos
    · have := t.leap_at_end hl
      omega
    · omega
  have locally : Date.dayNumber t.parts.date * 86400
      + (t.parts.hour * 3600 + t.parts.minute * 60 : Nat) + (min t.parts.second 59 : Nat)
      = t.seconds := by
    rw [whole, parts, number, dayOf]
    simp only
    omega
  have hnanos : (if t.parts.second = 60 then t.parts.nanos + 1_000_000_000 else t.parts.nanos)
      = t.nanos := by
    simp only [leap]
    simp only [parts]
    split <;> omega
  have hour : t.parts.hour ≤ 23 := by
    simp only [parts]
    omega
  have minute : t.parts.minute ≤ 59 := by
    simp only [parts]
    omega
  have zero : t.parts.offset = 0 := rfl
  rw [ofParts?]
  simp only [locally, hnanos, zero, Int.sub_zero, range]
  rw [if_pos, of?, dif_pos ⟨t.nanos_lt, t.leap_at_end⟩]
  simp only [Bool.and_eq_true, decide_eq_true_eq, Bool.and_true]
  exact ⟨⟨⟨⟨⟨exists?, hour⟩, minute⟩, hs⟩, by decide⟩, by decide⟩

theorem ofRfc3339?_text {t : Instant} (h : t.FourDigit) : ofRfc3339? t.text = some t := by
  rw [ofRfc3339?, text, String.toList_ofList, strictParts?_chars h]
  exact ofParts?_parts h

/-- A year with a sign is not read. -/
theorem ofRfc3339?_text_eq_none {t : Instant} (h : ¬ t.FourDigit) : ofRfc3339? t.text = none := by
  have sign : ∀ (c : Char) (cs : List Char), digit? c = none → strictParts? (c :: cs) = none := by
    intro c cs hc
    rw [strictParts?, exactly?, digitsUpTo, hc]
    rfl
  have signed : yearChars (Date.ofDayNumber (dayOf t.seconds)).year
      = (if t.year < 0 then '-' else '+') :: padded 4 t.year.natAbs := if_neg h
  rw [ofRfc3339?, text, String.toList_ofList]
  simp only [chars, signed, List.cons_append]
  rw [sign]
  · rfl
  · split <;> decide

/-! ## As JSON -/

theorem ofJson_toJson_of_fourDigit {t : Instant} (h : t.FourDigit) :
    ofJson t.toJson = .ok t := by
  rw [toJson, ofJson, ofRfc3339?_text h]

/-- What is stored for an instant is read as that instant or not at all. -/
theorem ofJson_toJson (t : Instant) :
    ofJson t.toJson = if t.FourDigit then .ok t else .error .malformedDate := by
  split
  · next h => exact ofJson_toJson_of_fourDigit h
  · next h => rw [toJson, ofJson, ofRfc3339?_text_eq_none h]

end Instant

end ChatMemory
