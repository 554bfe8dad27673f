/-!
# Stable sorting

Insertion sort by a Boolean comparison `le`, where `le a b` says that `a` may stand before `b`.
Elements that may stand either way keep their order, so a list sorted by one key can be sorted
again by another.

The sort is structural recursion on the list, so closed instances compute in the kernel.

## Main statements

* `sort_perm` — sorting only rearranges.
* `pairwise_sort` — for a total and transitive comparison the result is in order.
* `pairwise_sort_stable` — elements that may stand either way keep their order.
* `sort_eq_self` — a list in order is left as it is.
* `sort_eq_of_perm`, `sort_swap` — if no two elements may stand either way, the result does not
  depend on the arrangement, and the opposite comparison gives its reverse.
* `byRank_trans`, `byRank_total` — a rank with ties broken by name is an order to sort by.
-/

namespace ChatMemory.Sorting

variable {α : Type}

/-- Puts `x` in front of the first element that it may precede. -/
def insert (le : α → α → Bool) (x : α) : List α → List α
  | [] => [x]
  | y :: ys => if le x y then x :: y :: ys else y :: insert le x ys

/-- The elements of a list, each inserted into the sorted rest. -/
def sort (le : α → α → Bool) : List α → List α
  | [] => []
  | x :: xs => insert le x (sort le xs)

/-! ## Only the order changes -/

theorem insert_perm (le : α → α → Bool) (x : α) : ∀ l : List α, (insert le x l).Perm (x :: l)
  | [] => .refl _
  | y :: ys => by
    rw [insert]
    split
    · exact .refl _
    · exact ((insert_perm le x ys).cons y).trans (.swap x y ys)

theorem sort_perm (le : α → α → Bool) : ∀ l : List α, (sort le l).Perm l
  | [] => .refl _
  | x :: xs => (insert_perm le x _).trans ((sort_perm le xs).cons x)

@[simp]
theorem mem_sort {le : α → α → Bool} {l : List α} {x : α} : x ∈ sort le l ↔ x ∈ l :=
  (sort_perm le l).mem_iff

@[simp]
theorem length_sort (le : α → α → Bool) (l : List α) : (sort le l).length = l.length :=
  (sort_perm le l).length_eq

/-! ## The result is in order -/

theorem pairwise_insert {le : α → α → Bool}
    (trans : ∀ a b c, le a b → le b c → le a c) (total : ∀ a b, le a b ∨ le b a) (x : α) :
    ∀ {l : List α}, l.Pairwise (le · ·) → (insert le x l).Pairwise (le · ·)
  | [], _ => by simp [insert]
  | y :: ys, h => by
    obtain ⟨hy, hys⟩ := List.pairwise_cons.mp h
    rw [insert]
    split
    · next hxy =>
      refine List.pairwise_cons.mpr ⟨fun z hz => ?_, h⟩
      rcases List.mem_cons.mp hz with rfl | hz
      · exact hxy
      · exact trans x y z hxy (hy z hz)
    · next hxy =>
      refine List.pairwise_cons.mpr ⟨fun z hz => ?_, pairwise_insert trans total x hys⟩
      rcases List.mem_cons.mp ((insert_perm le x ys).mem_iff.mp hz) with rfl | hz
      · exact (total z y).resolve_left hxy
      · exact hy z hz

theorem pairwise_sort {le : α → α → Bool}
    (trans : ∀ a b c, le a b → le b c → le a c) (total : ∀ a b, le a b ∨ le b a) :
    ∀ l : List α, (sort le l).Pairwise (le · ·)
  | [] => .nil
  | x :: xs => pairwise_insert trans total x (pairwise_sort trans total xs)

/-- The inserted element stands in front of those that it may stand behind, too. -/
theorem pairwise_insert_stable {le : α → α → Bool} {r : α → α → Prop} {x : α} :
    ∀ {l : List α}, (∀ y ∈ l, r x y) →
      l.Pairwise (fun a b => le b a → r a b) → (insert le x l).Pairwise fun a b => le b a → r a b
  | [], _, _ => by simp [insert]
  | y :: ys, hx, h => by
    obtain ⟨hy, hys⟩ := List.pairwise_cons.mp h
    rw [insert]
    split
    · exact List.pairwise_cons.mpr ⟨fun z hz _ => hx z hz, h⟩
    · next hxy =>
      have rest := pairwise_insert_stable (fun z hz => hx z (List.mem_cons_of_mem _ hz)) hys
      refine List.pairwise_cons.mpr ⟨fun z hz hzy => ?_, rest⟩
      rcases List.mem_cons.mp ((insert_perm le x ys).mem_iff.mp hz) with rfl | hz
      · exact absurd hzy hxy
      · exact hy z hz hzy

/-- Elements that may stand either way keep the order `r` that they had. -/
theorem pairwise_sort_stable {le : α → α → Bool} {r : α → α → Prop} :
    ∀ {l : List α}, l.Pairwise r → (sort le l).Pairwise fun a b => le b a → r a b
  | [], _ => .nil
  | x :: xs, h => by
    obtain ⟨hx, hxs⟩ := List.pairwise_cons.mp h
    exact pairwise_insert_stable (fun y hy => hx y (mem_sort.mp hy)) (pairwise_sort_stable hxs)

/-- Elements are sorted by what they are mapped to. -/
theorem sort_map {β : Type} (f : α → β) (le : β → β → Bool) :
    ∀ l : List α, sort le (l.map f) = (sort (fun a b => le (f a) (f b)) l).map f
  | [] => rfl
  | x :: xs => by
    have insert_map : ∀ l : List α,
        insert le (f x) (l.map f) = (insert (fun a b => le (f a) (f b)) x l).map f := by
      intro l
      induction l with
      | nil => rfl
      | cons y ys ih =>
        simp only [List.map_cons, insert, ih]
        split <;> rfl
    rw [List.map_cons, sort, sort_map f le xs, insert_map, sort]

theorem sort_eq_self {le : α → α → Bool} : ∀ {l : List α}, l.Pairwise (le · ·) → sort le l = l
  | [], _ => rfl
  | [_], _ => rfl
  | x :: y :: ys, h => by
    obtain ⟨hx, hys⟩ := List.pairwise_cons.mp h
    rw [sort, sort_eq_self hys, insert, if_pos (hx y List.mem_cons_self)]

section Antisymmetric

variable {le : α → α → Bool} (trans : ∀ a b c, le a b → le b c → le a c)
  (total : ∀ a b, le a b ∨ le b a)

include trans total

/-- A list is sorted the same way however it is arranged, if no two of its elements may stand either
way. -/
theorem sort_eq_of_perm {l₁ l₂ : List α} (p : l₁.Perm l₂)
    (antisymm : ∀ a ∈ l₁, ∀ b ∈ l₁, le a b → le b a → a = b) : sort le l₁ = sort le l₂ := by
  have sorted : (sort le l₁).Perm (sort le l₂) :=
    (sort_perm le l₁).trans (p.trans (sort_perm le l₂).symm)
  refine sorted.eq_of_pairwise (fun a b ha hb => antisymm a (mem_sort.mp ha) b ?_)
    (pairwise_sort trans total l₁) (pairwise_sort trans total l₂)
  exact p.mem_iff.mpr (mem_sort.mp hb)

/-- Sorting the other way round gives the reverse. -/
theorem sort_swap {l : List α} (antisymm : ∀ a ∈ l, ∀ b ∈ l, le a b → le b a → a = b) :
    sort (fun a b => le b a) l = (sort le l).reverse := by
  have perm : (sort (fun a b => le b a) l).Perm (sort le l).reverse :=
    (sort_perm _ l).trans ((sort_perm le l).symm.trans (List.reverse_perm _).symm)
  refine perm.eq_of_pairwise (fun a b ha hb hab hba => ?_)
    (pairwise_sort (fun a b c hab hbc => trans c b a hbc hab) (fun a b => total b a) l)
    (List.pairwise_reverse.mpr (pairwise_sort trans total l))
  exact antisymm a (mem_sort.mp ha) b (mem_sort.mp (List.mem_reverse.mp hb)) hba hab

end Antisymmetric

/-! ## Rank, then name -/

/-- The order by a rank, with equal ranks ordered by name. -/
def byRank (rank : α → Int) (name : α → String) (a b : α) : Bool :=
  decide (rank a < rank b) || (decide (rank a = rank b) && decide (name a ≤ name b))

theorem byRank_iff {rank : α → Int} {name : α → String} {a b : α} :
    byRank rank name a b = true ↔ rank a < rank b ∨ (rank a = rank b ∧ name a ≤ name b) := by
  simp [byRank]

theorem byRank_trans (rank : α → Int) (name : α → String) (a b c : α)
    (h₁ : byRank rank name a b = true) (h₂ : byRank rank name b c = true) :
    byRank rank name a c = true := by
  rw [byRank_iff] at *
  rcases h₁ with h₁ | ⟨h₁, h₁'⟩ <;> rcases h₂ with h₂ | ⟨h₂, h₂'⟩
  · exact Or.inl (by omega)
  · exact Or.inl (by omega)
  · exact Or.inl (by omega)
  · exact Or.inr ⟨by omega, String.le_trans h₁' h₂'⟩

theorem byRank_total (rank : α → Int) (name : α → String) (a b : α) :
    byRank rank name a b = true ∨ byRank rank name b a = true := by
  rw [byRank_iff, byRank_iff]
  rcases Int.lt_trichotomy (rank a) (rank b) with h | h | h
  · exact Or.inl (Or.inl h)
  · rcases String.le_total (name a) (name b) with h' | h'
    · exact Or.inl (Or.inr ⟨h, h'⟩)
    · exact Or.inr (Or.inr ⟨h.symm, h'⟩)
  · exact Or.inr (Or.inl h)

/-- Elements that may stand either way have the same name. -/
theorem name_eq_of_byRank {rank : α → Int} {name : α → String} {a b : α}
    (h₁ : byRank rank name a b = true) (h₂ : byRank rank name b a = true) : name a = name b := by
  rw [byRank_iff] at h₁ h₂
  rcases h₁ with h₁ | ⟨_, h₁⟩ <;> rcases h₂ with h₂ | ⟨_, h₂⟩
  · omega
  · omega
  · omega
  · exact String.le_antisymm h₁ h₂

end ChatMemory.Sorting
