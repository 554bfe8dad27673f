import ChatMemory.Proofs.Alike
import ChatMemory.Proofs.Single

/-!
# Labelled tables

Ids that no check has seen come from callers who ask for messages by id, so the empty id has to be
reckoned with, and so has the reserved one. Nothing is stored under an empty id, and what is read as a
message has an id (`Keyspace.Labelled`). All that the store writes keeps it so: what it writes about a
message goes to a key that names an id, and what it writes about an order is not read as a message.

## Main statements

* `Labelled.put`, `Labelled.delete`, … — the changes of tables that keep them labelled.
* `Labelled.not_readFrom` — an id that no message may have finds none.
-/

namespace ChatMemory

namespace Keyspace

/-- No message has an empty id, neither in a key nor in a record. -/
structure Labelled (k : Keyspace) (t : Tables) : Prop where
  label : ∀ {thread id} {x : Message}, x.ReadFrom (k.stored t thread id) → x.id ≠ ""
  blank : ∀ {thread}, Plain thread → k.stored t thread "" = none

variable {k : Keyspace} {t t' : Tables} {thread id : String}

theorem stored_of_messages (h : t'.messages = t.messages) (thread id : String) :
    k.stored t' thread id = k.stored t thread id := congrArg (·.get? (k.message thread id)) h

namespace Labelled

theorem of_messages (h : k.Labelled t) (same : t'.messages = t.messages) : k.Labelled t' where
  label hx := h.label (stored_of_messages same .. ▸ hx)
  blank plain := (stored_of_messages same ..).trans (h.blank plain)

theorem of_main (h : k.Labelled t) (same : t'.main = t.main) : k.Labelled t' :=
  h.of_messages (Prod.mk.inj (Prod.mk.inj same).2).1

theorem put (h : k.Labelled t) (hid : id ≠ "") {v : Json}
    (hv : ∀ x : Message, x.ReadFrom (some v) → x.id ≠ "") :
    k.Labelled (t.put .messages (k.message thread id) v) where
  label {other id' x} hx := by
    rw [stored, Tables.get?_put] at hx
    split at hx
    · exact hv x hx
    · exact h.label hx
  blank {other} plain := by
    have apart : k.message other "" ≠ k.message thread id := fun e =>
      hid ((message_eq_plain_iff plain (by decide)).mp e.symm).2
    rw [stored, Tables.get?_put, if_neg fun e => apart e.2]
    exact h.blank plain

theorem delete (h : k.Labelled t) (table : Table) (key : String) :
    k.Labelled (t.delete table key) where
  label {other id' x} hx := by
    rw [stored, Tables.get?_delete] at hx
    split at hx
    · exact absurd rfl hx.ne_none
    · exact h.label hx
  blank {other} plain := by
    rw [stored, Tables.get?_delete]
    split
    · rfl
    · exact h.blank plain

theorem putAside (h : k.Labelled t) {table : Table} (hne : table ≠ .messages) (key : String)
    (v : Json) : k.Labelled (t.put table key v) :=
  h.of_messages (by cases table <;> first | rfl | exact absurd rfl hne)

/-- Under a thread with a colon nothing is stored: the key is that of a message whose id holds one. -/
theorem stored_of_not_plain (single : (k.contents t).Single) (hno : ¬ Plain thread) (id : String) :
    k.stored t thread id = none := by
  obtain ⟨first, rest, _, same⟩ := k.message_of_not_plain hno
  have joined := not_plain_joined rest id
  refine Decidable.byContradiction fun stored => ?_
  have held : (k.contents t).Holds first (rest ++ ":" ++ id) := by
    rw [Contents.Holds, record_contents (isMessage_of_not_plain joined), Keyspace.stored, ← same]
    exact stored
  obtain ⟨r, hr⟩ := Option.ne_none_iff_exists'.mp held
  exact joined (single.placed hr).2.2.1.plain

/-- Nothing is stored under an empty id. -/
theorem stored_blank (h : k.Labelled t) (single : (k.contents t).Single) (thread : String) :
    k.stored t thread "" = none := by
  by_cases plain : Plain thread
  · exact h.blank plain
  · exact stored_of_not_plain single plain ""

/-- Under an id that no message may have, nothing is read as a message. -/
theorem not_readFrom (h : k.Labelled t) (single : (k.contents t).Single) (hi : ¬ IsMessage id)
    (x : Message) : ¬ x.ReadFrom (k.stored t thread id) := by
  intro hx
  by_cases plain : Plain thread
  · by_cases blank : id = ""
    · exact hx.ne_none (blank ▸ h.blank plain)
    · have reserved : id = orderField := Decidable.byContradiction fun e => hi ⟨blank, e⟩
      refine Message.not_readFrom_of_readable ?_ (reserved ▸ hx)
      have order := single.orders thread
      rwa [Contents.index_contents plain] at order
  · exact hx.ne_none (stored_of_not_plain single plain id)

end Labelled

end Keyspace

theorem Tables.Single.labelled {k : Keyspace} {t : Tables} (h : t.Single k) : k.Labelled t where
  label {thread id x} hx := by
    by_cases hid : id = Keyspace.orderField
    · exact absurd (hid ▸ hx) (Message.not_readFrom_of_readable (h.orders thread))
    · rw [(h.told hid hx).2]
      exact (h.valid hid hx.ne_none).2.isMessage.1
  blank {thread} _ := by
    refine Decidable.byContradiction fun stored => ?_
    exact (h.valid (by decide) stored).2.isMessage.1 rfl

/-! ## What is written -/

namespace Action

variable {k : Keyspace} {t : Tables} {thread id key code : String} {context : ErrorContext}

theorem alike_putMessage (hid : id ≠ "") {v : Json}
    (hv : ∀ x : Message, x.ReadFrom (some v) → x.id ≠ "") :
    Alike k.Labelled t (ask (.put .messages (k.message thread id) v) code context)
      (ask (.put .messages (k.message thread id) v) code context) :=
  alike_ask (show Table.messages ≠ .messageThreads by decide) fun _ h => h.put hid hv

theorem alike_putAside {table : Table} {v : Json} (hne : table ≠ .messageThreads)
    (aside : table ≠ .messages) : Alike k.Labelled t (ask (.put table key v) code context)
      (ask (.put table key v) code context) :=
  alike_ask hne fun _ h => h.putAside aside key v

theorem alike_delete {table : Table} (hne : table ≠ .messageThreads) :
    Alike k.Labelled t (ask (.delete table key) code context)
      (ask (.delete table key) code context) :=
  alike_ask hne fun _ h => h.delete table key

end Action

namespace OrderIndex

open Action

variable {I : Tables → Prop} {k : Keyspace} {t : Tables} {thread : String}

theorem alike_snapshot : Alike I t (snapshot k thread) (snapshot k thread) := by
  refine (alike_get (by decide)).bind fun stored _ _ => ?_
  cases OrderEntry.ofStored stored with
  | ok _ => exact alike_pure
  | error _ => exact alike_fail

theorem alike_merge {change : OrderSnapshot → Option OrderSnapshot} :
    Alike k.Labelled t (merge k thread change) (merge k thread change) := by
  refine Alike.exclusively (alike_snapshot.bind fun order _ _ => ?_)
  cases change order with
  | none => exact alike_pure
  | some order =>
    refine alike_putMessage (by decide) fun x hx => ?_
    exact absurd hx (Message.not_readFrom_of_readable ⟨_, StoredOrder.ofStored_toJson order⟩)

theorem alike_add {entries : List OrderEntry} :
    Alike k.Labelled t (add k thread entries) (add k thread entries) :=
  alike_ite (fun _ => alike_pure) fun _ => alike_merge

theorem alike_remove {ids : List String} :
    Alike k.Labelled t (remove k thread ids) (remove k thread ids) :=
  alike_ite (fun _ => alike_pure) fun _ => alike_merge

theorem alike_clear : Alike k.Labelled t (clear k thread) (clear k thread) :=
  Alike.exclusively (alike_delete (by decide))

end OrderIndex

end ChatMemory
