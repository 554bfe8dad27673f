import ChatMemory.Error
import ChatMemory.Storage.Keyspace
import ChatMemory.Text.Blank

/-!
# Identifiers

Identifiers become fields of keys, so they may not be blank and may not hold a colon. The id of a
message may not be the reserved field of the order index either. A check gives the list of what is
wrong; the checks of one operation are put together before any of them is reported.

## Main statements

* `violations_eq_nil`, `messageViolations_eq_nil` — a check finds nothing exactly for an
  identifier that keeps the rules.
-/

namespace ChatMemory.Identifier

/-- An identifier that can be a field of a key. -/
def Valid (id : String) : Prop := Text.allBlank id = false ∧ ':' ∉ id.toList

/-- An identifier that can be the id of a message. -/
def ValidMessage (id : String) : Prop := Valid id ∧ id ≠ Keyspace.orderField

instance (id : String) : Decidable (Valid id) :=
  inferInstanceAs (Decidable (Text.allBlank id = false ∧ ':' ∉ id.toList))

instance (id : String) : Decidable (ValidMessage id) :=
  inferInstanceAs (Decidable (Valid id ∧ id ≠ Keyspace.orderField))

/-- What is wrong with an identifier. -/
def violations (label id : String) : List Violation :=
  if Text.allBlank id then [.required label]
  else if id.toList.contains ':' then [.separator label id]
  else []

/-- What is wrong with the id of a message. -/
def messageViolations (label id : String) : List Violation :=
  violations label id ++ if id = Keyspace.orderField then [.reserved label id] else []

theorem violations_eq_nil {label id : String} : violations label id = [] ↔ Valid id := by
  simp only [violations, Valid]
  split
  · next h => simp [h]
  · next h =>
    split
    · next hc => simp_all
    · next hc => simp_all

theorem messageViolations_eq_nil {label id : String} :
    messageViolations label id = [] ↔ ValidMessage id := by
  simp only [messageViolations, List.append_eq_nil_iff, violations_eq_nil, ValidMessage, ne_eq]
  refine and_congr_right fun _ => ?_
  split <;> simp_all

/-- What is wrong with a page number. -/
def pageViolations (page : Int) : List Violation := if page < 0 then [.negativePage page] else []

/-- The error of some violations, if there are any. -/
def report (vs : List Violation) : Except MemoryError Unit :=
  if vs.isEmpty then .ok () else .error (.validation vs)

end ChatMemory.Identifier
