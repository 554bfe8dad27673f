/-!
# First occurrences

A list without the elements whose key was seen before.

## Main statements

* `pairwise_distinctBy` — no key occurs twice in the result.
* `exists_key_distinctBy`, `mem_distinct` — every key still occurs.
* `distinctBy_sublist` — nothing is added or moved.
* `distinctBy_append` — what comes later counts only if it is new.
-/

namespace ChatMemory

variable {α κ : Type} [DecidableEq κ]

/-- The first element of each key, in order. -/
def distinctBy (key : α → κ) : List α → List α
  | [] => []
  | x :: xs => x :: (distinctBy key xs).filter (key · ≠ key x)

/-- The distinct elements, in order of their first occurrence. -/
def distinct (xs : List κ) : List κ := distinctBy id xs

theorem distinctBy_sublist (key : α → κ) : ∀ xs : List α, (distinctBy key xs).Sublist xs
  | [] => .slnil
  | _ :: xs => (List.filter_sublist.trans (distinctBy_sublist key xs)).cons_cons _

theorem pairwise_distinctBy (key : α → κ) :
    ∀ xs : List α, (distinctBy key xs).Pairwise (key · ≠ key ·)
  | [] => .nil
  | x :: xs => by
    rw [distinctBy, List.pairwise_cons]
    refine ⟨fun y hy e => ?_, (pairwise_distinctBy key xs).filter _⟩
    have := (List.mem_filter.mp hy).2
    simp [e] at this

theorem distinctBy_eq_self {key : α → κ} :
    ∀ {xs : List α}, xs.Pairwise (key · ≠ key ·) → distinctBy key xs = xs
  | [], _ => rfl
  | x :: xs, h => by
    obtain ⟨hx, hxs⟩ := List.pairwise_cons.mp h
    rw [distinctBy, distinctBy_eq_self hxs]
    congr 1
    exact List.filter_eq_self.mpr fun y hy => by simpa using (hx y hy).symm

/-- Of what is appended, only the keys that are new count. -/
theorem distinctBy_append (key : α → κ) : ∀ xs ys : List α,
    distinctBy key (xs ++ ys)
      = distinctBy key xs ++ (distinctBy key ys).filter fun y => key y ∉ xs.map key
  | [], _ => (List.filter_eq_self.mpr fun _ _ => by simp).symm
  | x :: xs, ys => by
    rw [List.cons_append, distinctBy, distinctBy_append key xs ys, List.filter_append,
      List.filter_filter, distinctBy, List.cons_append]
    congr 3
    funext y
    simp [not_or]

theorem exists_key_distinctBy {key : α → κ} {k : κ} :
    ∀ {xs : List α}, (∃ x ∈ distinctBy key xs, key x = k) ↔ ∃ x ∈ xs, key x = k
  | [] => by simp [distinctBy]
  | y :: ys => by
    rw [distinctBy]
    constructor
    · rintro ⟨x, hx, rfl⟩
      exact ⟨x, (distinctBy_sublist key (y :: ys)).subset hx, rfl⟩
    · rintro ⟨x, hx, rfl⟩
      by_cases h : key x = key y
      · exact ⟨y, List.mem_cons_self, h.symm⟩
      · rcases List.mem_cons.mp hx with rfl | hx
        · exact absurd rfl h
        · obtain ⟨z, hz, hk⟩ := exists_key_distinctBy.mpr ⟨x, hx, rfl⟩
          exact ⟨z, List.mem_cons_of_mem _ (List.mem_filter.mpr ⟨hz, by simp [hk, h]⟩), hk⟩

theorem mem_distinct {k : κ} {xs : List κ} : k ∈ distinct xs ↔ k ∈ xs := by
  have occurs : (∃ x ∈ distinct xs, id x = k) ↔ ∃ x ∈ xs, id x = k := exists_key_distinctBy
  simpa using occurs

theorem nodup_distinct (xs : List κ) : (distinct xs).Nodup := pairwise_distinctBy id xs

omit [DecidableEq κ] in
/-- In a list without repeated keys the elements are told by their keys. -/
theorem eq_of_key_eq {key : α → κ} {a b : α} :
    ∀ {xs : List α}, xs.Pairwise (key · ≠ key ·) → a ∈ xs → b ∈ xs → key a = key b → a = b
  | x :: xs, h, ha, hb, e => by
    obtain ⟨hx, hxs⟩ := List.pairwise_cons.mp h
    rcases List.mem_cons.mp ha with rfl | ha' <;> rcases List.mem_cons.mp hb with rfl | hb'
    · rfl
    · exact absurd e (hx b hb')
    · exact absurd e.symm (hx a ha')
    · exact eq_of_key_eq hxs ha' hb' e

end ChatMemory
