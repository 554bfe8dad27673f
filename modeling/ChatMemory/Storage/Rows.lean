import ChatMemory.Json.Basic
import ChatMemory.Text.Beginning

/-!
# Rows

The contents of one table: values under text keys, with the keys in increasing order and no key
twice. Two collections of rows that answer every look-up alike are therefore equal (`ext`).

Listing by a beginning starts at the first key that is not below it and stops at the first key that
does not begin with it. Nothing is missed, since the keys with a common beginning stand together
(`mem_keysFrom`).

## Main statements

* `get?_put`, `get?_delete` — what a look-up finds after a change.
* `ext` — rows are determined by their look-ups.
* `mem_keysFrom` — a listing holds exactly the stored keys with the given beginning.
* `pairwise_keysFrom` — a listing is in order.
-/

namespace ChatMemory

/-- Values by key, in the order of the keys. -/
structure Rows where
  entries : List (String × Json)
  sorted : entries.Pairwise (·.1 < ·.1)

namespace Rows

open Text (begins not_lt_of_begins begins_of_between)

/-- No rows. -/
def empty : Rows := ⟨[], .nil⟩

/-! ## Look-up and changes -/

/-- The value of a key. -/
def get? (rows : Rows) (key : String) : Option Json := rows.entries.lookup key

/-- Sets the value of a key. -/
def put (rows : Rows) (key : String) (value : Json) : Rows :=
  ⟨Pairs.insert key value rows.entries, Pairs.pairwise_insert rows.sorted⟩

/-- Removes a key; a key that is not there is no error. -/
def delete (rows : Rows) (key : String) : Rows :=
  ⟨Pairs.without key rows.entries, rows.sorted.filter _⟩

@[simp]
theorem get?_empty (key : String) : empty.get? key = none := rfl

theorem get?_put (rows : Rows) (key other : String) (value : Json) :
    (rows.put key value).get? other = if other = key then some value else rows.get? other :=
  Pairs.lookup_insert key other value rows.entries

theorem get?_delete (rows : Rows) (key other : String) :
    (rows.delete key).get? other = if other = key then none else rows.get? other :=
  Pairs.lookup_without key other rows.entries

/-! ## Rows are their look-ups -/

theorem mem_entries_iff {rows : Rows} {key : String} {value : Json} :
    (key, value) ∈ rows.entries ↔ rows.get? key = some value :=
  (Pairs.lookup_eq_some_iff rows.sorted).symm

theorem nodup_entries (rows : Rows) : rows.entries.Nodup :=
  rows.sorted.imp fun {a b} (h : a.1 < b.1) (e : a = b) =>
    String.lt_irrefl a.1 (by rw [← e] at h; exact h)

theorem ext {a b : Rows} (h : ∀ key, a.get? key = b.get? key) : a = b := by
  have perm : a.entries.Perm b.entries :=
    (List.perm_ext_iff_of_nodup a.nodup_entries b.nodup_entries).mpr fun ⟨k, v⟩ => by
      rw [mem_entries_iff, mem_entries_iff, h]
  have eq : a.entries = b.entries :=
    perm.eq_of_pairwise (fun _ _ _ _ h₁ h₂ => absurd h₂ (String.lt_asymm h₁)) a.sorted b.sorted
  obtain ⟨_, _⟩ := a
  obtain ⟨_, _⟩ := b
  subst eq
  rfl

/-! ## Listing -/

/-- The keys that begin with `start`, in order. -/
def keysFrom (rows : Rows) (start : String) : List String :=
  ((rows.entries.map (·.1)).dropWhile (· < start)).takeWhile (begins start)

theorem mem_takeWhile_dropWhile {start key : String} :
    ∀ {l : List String}, l.Pairwise (· < ·) →
      (key ∈ (l.dropWhile (· < start)).takeWhile (begins start) ↔
        key ∈ l ∧ begins start key = true)
  | [], _ => by simp
  | k :: rest, h => by
    obtain ⟨hk, hr⟩ := List.pairwise_cons.mp h
    rw [List.dropWhile_cons]
    split
    · next hlt =>
      rw [mem_takeWhile_dropWhile hr, List.mem_cons]
      constructor
      · exact fun ⟨h₁, h₂⟩ => ⟨Or.inr h₁, h₂⟩
      · rintro ⟨rfl | h₁, h₂⟩
        · exact absurd (of_decide_eq_true hlt) (not_lt_of_begins h₂)
        · exact ⟨h₁, h₂⟩
    · next hnlt =>
      have hnlt : ¬ k < start := by simpa using hnlt
      have run : ∀ {l : List String}, (∀ x ∈ l, ¬ x < start) → l.Pairwise (· < ·) →
          (key ∈ l.takeWhile (begins start) ↔ key ∈ l ∧ begins start key = true) := by
        intro l
        induction l with
        | nil => simp
        | cons x xs ih =>
          intro hge hp
          obtain ⟨hx, hxs⟩ := List.pairwise_cons.mp hp
          rw [List.takeWhile_cons]
          split
          · next hb =>
            rw [List.mem_cons, List.mem_cons,
              ih (fun y hy => hge y (List.mem_cons_of_mem _ hy)) hxs]
            constructor
            · rintro (rfl | h)
              · exact ⟨Or.inl rfl, hb⟩
              · exact ⟨Or.inr h.1, h.2⟩
            · rintro ⟨rfl | h, hkey⟩
              · exact Or.inl rfl
              · exact Or.inr ⟨h, hkey⟩
          · next hb =>
            constructor
            · intro h; exact absurd h (by simp)
            · rintro ⟨h, hkey⟩
              rcases List.mem_cons.mp h with rfl | h
              · exact absurd hkey hb
              · exact absurd (begins_of_between (hge x List.mem_cons_self) (hx key h) hkey) hb
      refine run (fun x hx => ?_) h
      rcases List.mem_cons.mp hx with rfl | hx
      · exact hnlt
      · exact fun hlt => hnlt (String.lt_trans (hk x hx) hlt)

theorem pairwise_keys (rows : Rows) : (rows.entries.map (·.1)).Pairwise (· < ·) :=
  List.pairwise_map.mpr rows.sorted

theorem mem_keysFrom {rows : Rows} {start key : String} :
    key ∈ rows.keysFrom start ↔ (rows.get? key).isSome ∧ begins start key = true := by
  rw [keysFrom, mem_takeWhile_dropWhile rows.pairwise_keys]
  refine and_congr_left fun _ => ?_
  rw [List.mem_map, Option.isSome_iff_exists]
  constructor
  · rintro ⟨⟨k, v⟩, h, rfl⟩
    exact ⟨v, mem_entries_iff.mp h⟩
  · rintro ⟨v, h⟩
    exact ⟨(key, v), mem_entries_iff.mpr h, rfl⟩

theorem pairwise_keysFrom (rows : Rows) (start : String) :
    (rows.keysFrom start).Pairwise (· < ·) :=
  rows.pairwise_keys.sublist
    ((List.takeWhile_sublist _).trans (List.dropWhile_sublist _))

end Rows

end ChatMemory
