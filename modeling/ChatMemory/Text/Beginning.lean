/-!
# Beginnings of texts

Whether one text begins with another, and what follows it. Texts are ordered by code points, and
under that order the texts with a common beginning stand together.

## Main statements

* `after?_eq_some_iff` — what follows a beginning completes it to the text.
* `not_lt_of_begins`, `begins_of_between` — texts with a common beginning stand together, the
  beginning itself being the first of them.
-/

namespace ChatMemory.Text

/-- Whether a text begins with another. -/
def begins (start text : String) : Bool := start.toList.isPrefixOf text.toList

/-- What follows a beginning, among characters. -/
def charsAfter? : List Char → List Char → Option (List Char)
  | [], cs => some cs
  | _ :: _, [] => none
  | s :: ss, c :: cs => if s = c then charsAfter? ss cs else none

/-- What follows a beginning, if the text has that beginning. -/
def after? (start text : String) : Option String :=
  (charsAfter? start.toList text.toList).map String.ofList

theorem charsAfter?_eq_some_iff {rest : List Char} :
    ∀ {start text : List Char}, charsAfter? start text = some rest ↔ text = start ++ rest
  | [], cs => by simp [charsAfter?]
  | _ :: _, [] => by simp [charsAfter?]
  | s :: ss, c :: cs => by
    rw [charsAfter?]
    split
    · next h =>
      subst h
      rw [charsAfter?_eq_some_iff, List.cons_append, List.cons.injEq]
      simp
    · next h =>
      simp only [List.cons_append, List.cons.injEq, reduceCtorEq, false_iff, not_and]
      exact fun e => absurd e.symm h

theorem after?_eq_some_iff {start text rest : String} :
    after? start text = some rest ↔ text = start ++ rest := by
  rw [after?, Option.map_eq_some_iff]
  constructor
  · rintro ⟨cs, h, rfl⟩
    rw [← String.toList_inj, charsAfter?_eq_some_iff.mp h, String.toList_append,
      String.toList_ofList]
  · rintro rfl
    exact ⟨rest.toList, charsAfter?_eq_some_iff.mpr String.toList_append, String.ofList_toList⟩

theorem begins_iff {start text : String} :
    begins start text = true ↔ ∃ rest, text.toList = start.toList ++ rest := by
  rw [begins, List.isPrefixOf_iff_prefix]
  exact ⟨fun ⟨r, h⟩ => ⟨r, h.symm⟩, fun ⟨r, h⟩ => ⟨r, h.symm⟩⟩

/-- What two lists have in common in front does not count for their order. -/
theorem append_lt_append_iff {α : Type} [LT α] (irrefl : ∀ a : α, ¬ a < a) {a b : List α} :
    ∀ {start : List α}, start ++ a < start ++ b ↔ a < b
  | [] => .rfl
  | c :: cs => by
    rw [List.cons_append, List.cons_append, List.cons_lt_cons_iff, append_lt_append_iff irrefl]
    simp [irrefl c]

/-- A text is not below its beginnings. -/
theorem not_lt_of_begins {start text : String} (h : begins start text = true) :
    ¬ text < start := by
  obtain ⟨rest, hr⟩ := begins_iff.mp h
  rw [String.lt_iff, hr]
  intro hlt
  have : ∀ a b : List Char, ¬ a ++ b < a := by
    intro a b
    induction a with
    | nil => simp
    | cons c cs ih =>
      rw [List.cons_append, List.cons_lt_cons_iff]
      rintro (h | ⟨_, h⟩)
      · exact Char.lt_irrefl c h
      · exact ih h
  exact this _ _ hlt

/-- Between two texts with a common beginning there are only texts with that beginning. -/
theorem begins_of_between {start a b : String} (ha : ¬ a < start) (hab : a < b)
    (hb : begins start b = true) : begins start a = true := by
  obtain ⟨rest, hr⟩ := begins_iff.mp hb
  rw [String.lt_iff] at ha hab
  rw [hr] at hab
  rw [begins, List.isPrefixOf_iff_prefix]
  have : ∀ s x r : List Char, ¬ x < s → x < s ++ r → s <+: x := by
    intro s
    induction s with
    | nil => intro x r _ _; exact List.nil_prefix
    | cons c cs ih =>
      intro x r h₁ h₂
      cases x with
      | nil => exact absurd (List.nil_lt_cons c cs) h₁
      | cons d ds =>
        rw [List.cons_append, List.cons_lt_cons_iff] at h₂
        rw [List.cons_lt_cons_iff, not_or] at h₁
        rcases h₂ with h₂ | ⟨rfl, h₂⟩
        · exact absurd h₂ h₁.1
        · exact (List.prefix_cons_inj d).mpr (ih ds r (fun h => h₁.2 ⟨rfl, h⟩) h₂)
  exact this _ _ _ ha hab

end ChatMemory.Text
