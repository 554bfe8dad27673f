import ChatMemory.Distinct
import ChatMemory.Order.Entry
import ChatMemory.Sorting

/-!
# The order of a thread

The entries of a thread sorted by score, then id. No id occurs twice: of repeated ids the first
counts, and adding an id that is there already changes nothing.

Ranges are given by their first and last position, both included. Positions below zero count from
the end, −1 being the last one, and positions outside are moved to the nearest end.
-/

namespace ChatMemory

/-- The order of a thread at some point in time. -/
structure OrderSnapshot where
  entries : List OrderEntry
deriving DecidableEq

namespace OrderSnapshot

/-- The order of entries: by score, then id. -/
def precedes : OrderEntry → OrderEntry → Bool := Sorting.byRank (·.score.order) (·.id)

/-- The order of a list of entries. -/
def ofEntries (entries : List OrderEntry) : OrderSnapshot :=
  ⟨Sorting.sort precedes (distinctBy (·.id) entries)⟩

/-! ## Reading -/

def length (s : OrderSnapshot) : Nat := s.entries.length

def isEmpty (s : OrderSnapshot) : Bool := s.entries.isEmpty

def contains (s : OrderSnapshot) (id : String) : Bool := s.entries.any (·.id = id)

/-- The position of an id, counted from zero. -/
def rank? (s : OrderSnapshot) (id : String) : Option Nat := s.entries.findIdx? (·.id = id)

/-- The score of an id. -/
def score? (s : OrderSnapshot) (id : String) : Option Binary64 :=
  (s.entries.find? (·.id = id)).map (·.score)

/-- The ids from one position to another. -/
def range (s : OrderSnapshot) (start stop : Int) : List String :=
  let length : Int := s.length
  let first := if start < 0 then max (length + start) 0 else start
  let last := if stop < 0 then length + stop else min stop (length - 1)
  if s.length = 0 ∨ last < first ∨ length ≤ first then []
  else ((s.entries.drop first.toNat).take (last - first + 1).toNat).map (·.id)

/-- The last `n` ids, or all of them if there are fewer. -/
def lastN (s : OrderSnapshot) (n : Nat) : List String :=
  if min n s.length = 0 then [] else s.range (-(min n s.length : Nat)) (-1)

/-- All ids. -/
def ids (s : OrderSnapshot) : List String := s.range 0 (-1)

/-! ## Changes -/

/-- The entries whose ids are new, each id once. -/
def unknown (s : OrderSnapshot) (entries : List OrderEntry) : List OrderEntry :=
  (distinctBy (·.id) entries).filter fun e => !s.contains e.id

/-- The order with the new entries added, or nothing if none is new. -/
def add? (s : OrderSnapshot) (entries : List OrderEntry) : Option OrderSnapshot :=
  let added := s.unknown entries
  if added.isEmpty then none else some ⟨Sorting.sort precedes (s.entries ++ added)⟩

/-- The order without some ids, or nothing if it has none of them. -/
def remove? (s : OrderSnapshot) (ids : List String) : Option OrderSnapshot :=
  let kept := s.entries.filter fun e => !ids.contains e.id
  if kept.length = s.entries.length then none else some ⟨kept⟩

/-- The stored form. -/
def toJson (s : OrderSnapshot) : Json := .arr (s.entries.map OrderEntry.toJson)

/-! ## All ids -/

theorem ids_eq_map (s : OrderSnapshot) : s.ids = s.entries.map (·.id) := by
  have last : (if (-1 : Int) < 0 then (s.length : Int) + -1 else min (-1) ((s.length : Int) - 1))
      = (s.length : Int) - 1 := if_pos (by decide)
  have first : (if (0 : Int) < 0 then max ((s.length : Int) + 0) 0 else 0) = 0 :=
    if_neg (by decide)
  simp only [ids, range, last, first]
  split
  · next h =>
    have : s.entries.length = 0 := by
      simp only [length] at h
      omega
    rw [List.length_eq_zero_iff.mp this, List.map_nil]
  · rw [Int.toNat_zero, List.drop_zero, List.take_of_length_le]
    simp only [length]
    omega

end OrderSnapshot

end ChatMemory
