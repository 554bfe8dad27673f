/-!
# Pairs by key

A list of pairs stands for a finite map. The value of a key is found by `List.lookup`, so of a
repeated key the first pair counts.

There are two ways to set a value. `assign` leaves the keys in their places and puts a new key last.
`insert` puts a new text key in front of the first larger one, so a list with increasing keys stays
such a list (`pairwise_insert`).

## Main statements

* `lookup_assign`, `lookup_insert`, `lookup_without` — what is found after a change.
* `lookup_eq_some_iff` — in a list with increasing keys, every pair is found.
* `insert_comm`, `foldr_insert_twice` — values are set in any order, and as often as one likes.
-/

namespace ChatMemory.Pairs

theorem lookup_cons_eq {κ ν : Type} [DecidableEq κ] (key k : κ) (v : ν) (rest : List (κ × ν)) :
    ((k, v) :: rest).lookup key = if key = k then some v else rest.lookup key := by
  rw [List.lookup_cons]
  by_cases h : key = k
  · simp [h]
  · rw [if_neg h, beq_eq_false_iff_ne.mpr h]

/-! ## Keys in their places -/

section Places

variable {κ ν : Type} [DecidableEq κ]

/-- Sets the value of a key where it stands, or puts it last. -/
def assign (key : κ) (value : ν) : List (κ × ν) → List (κ × ν)
  | [] => [(key, value)]
  | (k, v) :: rest => if k = key then (key, value) :: rest else (k, v) :: assign key value rest

/-- The pairs with another key. -/
def without (key : κ) (pairs : List (κ × ν)) : List (κ × ν) := pairs.filter (·.1 ≠ key)

theorem lookup_assign (key other : κ) (value : ν) : ∀ pairs : List (κ × ν),
    (assign key value pairs).lookup other = if other = key then some value else pairs.lookup other
  | [] => by rw [assign, lookup_cons_eq]
  | (k, v) :: rest => by
    rw [assign]
    split
    · next h =>
      subst h
      rw [lookup_cons_eq, lookup_cons_eq]
      split <;> rfl
    · next h =>
      rw [lookup_cons_eq, lookup_cons_eq, lookup_assign key other value rest]
      split
      · next hk => rw [if_neg (fun e => h (hk.symm.trans e))]
      · rfl

theorem lookup_without (key other : κ) : ∀ pairs : List (κ × ν),
    (without key pairs).lookup other = if other = key then none else pairs.lookup other
  | [] => by simp [without]
  | (k, v) :: rest => by
    have ih := lookup_without key other rest
    rw [without] at ih
    rw [without, List.filter_cons, lookup_cons_eq]
    by_cases hk : k = key
    · rw [if_neg (by simp [hk]), ih]
      by_cases ho : other = key
      · rw [if_pos ho, if_pos ho]
      · rw [if_neg ho, if_neg ho, if_neg (fun e => ho (e.trans hk))]
    · rw [if_pos (by simp [hk]), lookup_cons_eq, ih]
      by_cases ho : other = k
      · rw [if_pos ho, if_pos ho, if_neg (fun e => hk (ho.symm.trans e))]
      · rw [if_neg ho, if_neg ho]

theorem mem_keys_iff {key : κ} : ∀ {pairs : List (κ × ν)},
    key ∈ pairs.map (·.1) ↔ pairs.lookup key ≠ none
  | [] => by simp
  | (k, v) :: rest => by
    rw [List.map_cons, List.mem_cons, mem_keys_iff, lookup_cons_eq]
    by_cases h : key = k
    · simp [h]
    · simp [h]

/-- A key that comes once still does when its value is set. -/
theorem pairwise_assign {key : κ} {value : ν} : ∀ {pairs : List (κ × ν)},
    pairs.Pairwise (·.1 ≠ ·.1) → (assign key value pairs).Pairwise (·.1 ≠ ·.1)
  | [], _ => List.pairwise_singleton ..
  | (k, v) :: rest, h => by
    obtain ⟨hk, hr⟩ := List.pairwise_cons.mp h
    rw [assign]
    split
    · next same =>
      subst same
      exact List.pairwise_cons.mpr ⟨hk, hr⟩
    · next other =>
      refine List.pairwise_cons.mpr ⟨fun e he same => ?_, pairwise_assign hr⟩
      have there : k ∈ (assign key value rest).map (·.1) := List.mem_map.mpr ⟨e, he, same.symm⟩
      rw [mem_keys_iff, lookup_assign, if_neg other, ← mem_keys_iff, List.mem_map] at there
      obtain ⟨e', he', same'⟩ := there
      exact hk e' he' same'.symm

theorem lookup_filter {keeps : κ → Bool} {key : κ} (h : keeps key) : ∀ pairs : List (κ × ν),
    (pairs.filter (keeps ·.1)).lookup key = pairs.lookup key
  | [] => rfl
  | (k, v) :: rest => by
    have ih := lookup_filter h rest
    rw [List.filter_cons, lookup_cons_eq]
    by_cases hk : key = k
    · rw [if_pos (hk ▸ h), lookup_cons_eq, if_pos hk, if_pos hk]
    · rw [if_neg hk]
      split
      · rw [lookup_cons_eq, if_neg hk, ih]
      · exact ih

end Places

/-! ## Increasing keys -/

section Increasing

variable {ν : Type}

/-- Sets the value of a key: a known key gets the new value, a new key is put in its place. -/
def insert (key : String) (value : ν) : List (String × ν) → List (String × ν)
  | [] => [(key, value)]
  | (k, v) :: rest =>
    if k = key then (key, value) :: rest
    else if key < k then (key, value) :: (k, v) :: rest
    else (k, v) :: insert key value rest

theorem lookup_insert (key other : String) (value : ν) : ∀ pairs : List (String × ν),
    (insert key value pairs).lookup other = if other = key then some value else pairs.lookup other
  | [] => by rw [insert, lookup_cons_eq]
  | (k, v) :: rest => by
    rw [insert]
    split
    · next h =>
      subst h
      rw [lookup_cons_eq, lookup_cons_eq]
      split <;> rfl
    · next h =>
      split
      · rw [lookup_cons_eq]
      · rw [lookup_cons_eq, lookup_cons_eq, lookup_insert key other value rest]
        split
        · next hk => rw [if_neg (fun e => h (hk.symm.trans e))]
        · rfl

theorem mem_insert {key : String} {value : ν} {e : String × ν} :
    ∀ {pairs : List (String × ν)}, e ∈ insert key value pairs → e = (key, value) ∨ e ∈ pairs
  | [], h => Or.inl (by simpa [insert] using h)
  | (k, v) :: rest, h => by
    rw [insert] at h
    split at h
    · rcases List.mem_cons.mp h with h | h
      · exact Or.inl h
      · exact Or.inr (List.mem_cons_of_mem _ h)
    · split at h
      · exact List.mem_cons.mp h
      · rcases List.mem_cons.mp h with h | h
        · exact Or.inr (h ▸ List.mem_cons_self)
        · rcases mem_insert h with h | h
          · exact Or.inl h
          · exact Or.inr (List.mem_cons_of_mem _ h)

theorem pairwise_insert {key : String} {value : ν} :
    ∀ {pairs : List (String × ν)}, pairs.Pairwise (·.1 < ·.1) →
      (insert key value pairs).Pairwise (·.1 < ·.1)
  | [], _ => by simp [insert]
  | (k, v) :: rest, h => by
    obtain ⟨hk, hr⟩ := List.pairwise_cons.mp h
    rw [insert]
    split
    · next heq =>
      subst heq
      exact List.pairwise_cons.mpr ⟨hk, hr⟩
    · next hne =>
      split
      · next hlt =>
        refine List.pairwise_cons.mpr ⟨fun e he => ?_, h⟩
        rcases List.mem_cons.mp he with rfl | he
        · exact hlt
        · exact String.lt_trans hlt (hk e he)
      · next hnlt =>
        refine List.pairwise_cons.mpr ⟨fun e he => ?_, pairwise_insert hr⟩
        rcases mem_insert he with rfl | he
        · exact Std.lt_of_le_of_ne hnlt hne
        · exact hk e he

theorem lookup_eq_some_iff {key : String} {value : ν} :
    ∀ {pairs : List (String × ν)}, pairs.Pairwise (·.1 < ·.1) →
      (pairs.lookup key = some value ↔ (key, value) ∈ pairs)
  | [], _ => by simp
  | (k, v) :: rest, h => by
    obtain ⟨hk, hr⟩ := List.pairwise_cons.mp h
    rw [lookup_cons_eq]
    split
    · next heq =>
      subst heq
      constructor
      · intro e
        rw [Option.some.inj e]
        exact List.mem_cons_self
      · intro e
        rcases List.mem_cons.mp e with e | e
        · rw [(Prod.mk.inj e).2]
        · exact absurd (hk _ e) (String.lt_irrefl key)
    · next hne =>
      rw [lookup_eq_some_iff hr, List.mem_cons]
      constructor
      · exact Or.inr
      · rintro (e | e)
        · exact absurd (Prod.mk.inj e).1 hne
        · exact e

/-! ### Setting several keys -/

/-- Of two values that are set for a key the second counts. -/
theorem insert_insert (key : String) (value value' : ν) : ∀ pairs : List (String × ν),
    insert key value (insert key value' pairs) = insert key value pairs
  | [] => by simp [insert]
  | (k, v) :: rest => by
    by_cases same : k = key
    · simp [insert, same]
    · by_cases before : key < k
      · simp [insert, same, before]
      · simp [insert, same, before, insert_insert key value value' rest]

theorem insert_comm_of_lt {key other : String} (lt : key < other) (value value' : ν)
    (pairs : List (String × ν)) :
    insert key value (insert other value' pairs)
      = insert other value' (insert key value pairs) := by
  have apart : key ≠ other := String.ne_of_lt lt
  have after : ¬ other < key := String.lt_asymm lt
  induction pairs with
  | nil => simp [insert, lt, apart, apart.symm, after]
  | cons e rest ih =>
    obtain ⟨k, v⟩ := e
    by_cases same : k = key
    · simp [insert, same, apart, after]
    by_cases before : key < k
    · -- The smaller key is put in front, whatever becomes of the other one.
      by_cases same' : k = other
      · simp [insert, same', lt, apart, apart.symm, after]
      · by_cases before' : other < k
        · simp [insert, same, before, same', before', lt, apart, apart.symm, after]
        · simp [insert, same, before, same', before', apart, after]
    · have lt' : k < other := String.lt_trans (Std.lt_of_le_of_ne before same) lt
      simp [insert, same, before, String.ne_of_lt lt', String.lt_asymm lt', ih]

/-- Values of different keys may be set in any order. -/
theorem insert_comm {key other : String} (apart : key ≠ other) (value value' : ν)
    (pairs : List (String × ν)) :
    insert key value (insert other value' pairs)
      = insert other value' (insert key value pairs) := by
  by_cases lt : key < other
  · exact insert_comm_of_lt lt value value' pairs
  · exact (insert_comm_of_lt (Std.lt_of_le_of_ne lt apart.symm) value' value pairs).symm

/-- The value of a key that is set in the end makes no difference before. -/
theorem insert_foldr_insert (key : String) (value value' : ν) (pairs : List (String × ν)) :
    ∀ entries : List (String × ν),
      insert key value (entries.foldr (fun e p => insert e.1 e.2 p) (insert key value' pairs))
        = insert key value (entries.foldr (fun e p => insert e.1 e.2 p) pairs)
  | [] => insert_insert key value value' pairs
  | (k, v) :: rest => by
    have ih := insert_foldr_insert key value value' pairs rest
    rw [List.foldr_cons, List.foldr_cons]
    by_cases same : key = k
    · rw [← same, insert_insert, insert_insert, ih]
    · rw [insert_comm same, insert_comm same, ih]

/-- What has been set once may be set once more. -/
theorem foldr_insert_twice (pairs : List (String × ν)) : ∀ entries : List (String × ν),
    entries.foldr (fun e p => insert e.1 e.2 p) (entries.foldr (fun e p => insert e.1 e.2 p) pairs)
      = entries.foldr (fun e p => insert e.1 e.2 p) pairs
  | [] => rfl
  | (k, v) :: rest => by
    rw [List.foldr_cons, List.foldr_cons, insert_foldr_insert, foldr_insert_twice pairs rest]

end Increasing

end ChatMemory.Pairs
