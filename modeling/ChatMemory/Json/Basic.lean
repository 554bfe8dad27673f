import ChatMemory.Json.Number
import ChatMemory.Pairs

/-!
# JSON values

A value of free-form data: metadata, message parts and stored records are such values. An object is
a list of fields with the keys in increasing code point order and no key twice. All operations that
build objects go through `Pairs.insert`, which keeps that form; the look-up laws hold for every
list.

## Main statements

* `Object.lookup_merge`, `Object.merge_merge` — merging overwrites key by key, and doing so once more
  changes nothing.
-/

namespace ChatMemory

/-- A JSON value. -/
inductive Json where
  | null
  | bool (value : Bool)
  | num (value : Number)
  | str (value : String)
  | arr (items : List Json)
  | obj (fields : List (String × Json))

/-- The fields of a JSON object. -/
abbrev Object := List (String × Json)

namespace Object

/-- The object with the given fields; of a repeated key the last value counts. -/
def ofFields (fields : List (String × Json)) : Object :=
  fields.foldl (fun o f => Pairs.insert f.1 f.2 o) []

/-- Shallow merge: the fields of the patch overwrite those of the base. -/
def merge (base patch : Object) : Object :=
  patch.foldl (fun o f => Pairs.insert f.1 f.2 o) base

/-- After a merge a key has the last value that the patch gives it, or its old value. -/
theorem lookup_merge (key : String) : ∀ (patch base : Object),
    (merge base patch).lookup key = (patch.reverse.lookup key).or (base.lookup key)
  | [], base => by simp [merge]
  | (k, v) :: rest, base => by
    have ih := lookup_merge key rest (Pairs.insert k v base)
    rw [merge, List.foldl_cons]
    rw [merge] at ih
    rw [ih, List.reverse_cons, List.lookup_append, Pairs.lookup_insert, Pairs.lookup_cons_eq,
      List.lookup_nil]
    by_cases h : key = k
    · simp [h]
    · simp [h]

/-- Merging a patch once more changes nothing. -/
theorem merge_merge (base patch : Object) : (base.merge patch).merge patch = base.merge patch := by
  have reversed (base : Object) : base.merge patch
      = patch.reverse.foldr (fun e o => Pairs.insert e.1 e.2 o) base := List.foldr_reverse.symm
  rw [reversed (base.merge patch), reversed base, Pairs.foldr_insert_twice]

end Object

namespace Json

/-- The value of a field, if the value is an object that has it. -/
def field? (key : String) : Json → Option Json
  | .obj fields => fields.lookup key
  | _ => none

/-- The text of a string value. -/
def asText? : Json → Option String
  | .str value => some value
  | _ => none

/-- A natural number as a value. -/
def ofNat (n : Nat) : Json := .num (.int n)

/-- A text as a value, nothing as null. -/
def ofText? : Option String → Json
  | some value => .str value
  | none => .null

/-- The object with the given fields. -/
def record (fields : List (String × Json)) : Json := .obj (Object.ofFields fields)

end Json

end ChatMemory
