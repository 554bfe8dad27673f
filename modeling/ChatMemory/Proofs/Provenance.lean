import ChatMemory.Proofs.Rules
import ChatMemory.Proofs.Steps

/-!
# Where records come from

Records are written for messages that are saved, changed or moved, and for no others: a repair lists
messages and deletes records, but leaves those alone that it keeps. So if the messages that an operation
saves are of some kind, and its changes keep messages of that kind (`Operation.Makes`), then all that
it writes is of that kind, wherever it is stopped (`View.Renewed`).

## Main statements

* `Stored.renewed`, `Updated.renewed`, … — the records that one message gets.
* `Step.renewed` — the records that an operation leaves of a message.
* `Step.made` — what all records have in common stays so.
-/

namespace ChatMemory

/-- The messages that an operation saves are of some kind, and its changes keep that kind. -/
def Operation.Makes (kind : Message → Prop) : Operation → Prop
  | .saveMessages ms => ∀ v ∈ ms, kind v
  | .updateMessages us => ∀ u ∈ us, ∀ x, kind x → kind (x.apply u)
  | _ => True

/-- A message of some kind stays so wherever it moves. -/
def Message.Movable (kind : Message → Prop) : Prop := ∀ x thread, kind x → kind (x.into thread)

namespace View

variable {kind : Message → Prop} {has : String → Prop} {w w₁ w' : View} {tracking : Bool}
  {now : Instant} {active : Prop} {x y v before after : Message} {u : MessageUpdate} {position : Nat}
  {thread origin destination : String}

/-- What is read of the message is of some kind. -/
def Reads (kind : Message → Prop) (w : View) : Prop := ∀ thread x, w.IsRecord thread x → kind x

/-- Every record of the message is as it was, or it was written for a version of some kind. -/
def Renewed (kind : Message → Prop) (w w' : View) : Prop :=
  ∀ thread r, w'.record thread = some r → w.record thread = some r ∨ ∃ x, kind x ∧ x.Writes r

theorem Renewed.refl (kind : Message → Prop) (w : View) : w.Renewed kind w := fun _ _ hr => Or.inl hr

theorem Renewed.trans (h : w.Renewed kind w₁) (h' : w₁.Renewed kind w') : w.Renewed kind w' :=
  fun thread r hr => (h' thread r hr).elim (h thread r) Or.inr

/-- What is read afterwards is of the kind, too. -/
theorem Renewed.reads (h : w.Renewed kind w') (reads : w.Reads kind) : w'.Reads kind := by
  rintro thread x ⟨r, hr, hx⟩
  rcases h thread r hr with old | ⟨y, hy, writes⟩
  · exact reads thread x ⟨r, old, hx⟩
  · rw [writes.eq hx]
    exact hy

theorem Renewed.of_record (e : w'.record = w₁.record) (h : w.Renewed kind w₁) :
    w.Renewed kind w' := fun thread r hr => h thread r (by rwa [← e])

theorem Renewed.erase (h : w.Renewed kind w₁) (thread : String) :
    w.Renewed kind (w₁.setRecord thread none) := by
  intro other r hr
  rw [record_setRecord] at hr
  split at hr
  · exact absurd hr (by simp)
  · exact h other r hr

theorem Renewed.write (h : w.Renewed kind w₁) (hx : kind x) {r : Json} (writes : x.Writes r) :
    w.Renewed kind (w₁.setRecord thread (some r)) := by
  intro other r' hr
  rw [record_setRecord] at hr
  split at hr
  · obtain rfl := Option.some.inj hr
    exact Or.inr ⟨x, hx, writes⟩
  · exact h other r' hr

/-! ## Moving -/

theorem renewed_copied (hx : kind x) : w.Renewed kind (w.copied x origin) :=
  (Renewed.refl kind w).write hx (Or.inr ⟨origin, rfl⟩)

theorem renewed_erased (hx : kind x) : w.Renewed kind (w.erased x origin) :=
  ((renewed_copied hx).of_record rfl : w.Renewed kind (w.unlisted x origin)).erase origin

theorem renewed_moved (hx : kind x) : w.Renewed kind (w.moved tracking now x origin) :=
  (renewed_erased hx).of_record record_noted

theorem Halfway.renewed (h : w.Halfway now x origin w') (hx : kind x) : w.Renewed kind w' := by
  rcases h with rfl | rfl | rfl | rfl
  · exact renewed_copied hx
  · exact (renewed_copied hx).of_record rfl
  · exact renewed_erased hx
  · exact (renewed_erased hx).of_record rfl

theorem Underway.renewed (h : w.Underway tracking now x origin active w') (hx : kind x) :
    w.Renewed kind w' := by
  rcases h with ⟨_, halfway⟩ | rfl
  · exact halfway.renewed hx
  · exact renewed_moved hx

/-! ## Saving -/

section Saving

variable (movable : Message.Movable kind) (reads : w.Reads kind)
include movable reads

theorem Homed.renewed (h : w.Homed tracking now has destination w') : w.Renewed kind w' := by
  rcases h with ⟨_, rfl⟩ | ⟨_, rfl⟩ | ⟨origin, before, _, leaves, rfl⟩
  · exact .refl kind _
  · exact .refl kind _
  · exact renewed_moved (movable _ _ (reads _ _ leaves.record))

theorem Homing.renewed (h : w.Homing tracking now has destination active w') :
    w.Renewed kind w' := by
  rcases h with rfl | ⟨origin, before, _, leaves, underway⟩
  · exact .refl kind _
  · exact underway.renewed (movable _ _ (reads _ _ leaves.record))

omit movable reads in
theorem Saving.renewed (h : w.Saving tracking v position active w') (hv : kind v) :
    w.Renewed kind w' := by
  have recorded : w.Renewed kind (w.recorded v position) :=
    (Renewed.refl kind w).write hv (Or.inl ⟨position, rfl⟩)
  rcases h with rfl | rfl | ⟨_, rfl | rfl⟩
  · exact .refl kind _
  · exact recorded.of_record record_noted
  · exact recorded
  · exact recorded.of_record record_noted

theorem Stored.renewed (h : w.Stored tracking v position now has w') (hv : kind v) :
    w.Renewed kind w' := by
  obtain ⟨w₁, homed, e⟩ := h
  have saving : w₁.Saving tracking v position False w' := Or.inr (Or.inl e)
  exact (homed.renewed movable reads).trans (saving.renewed hv)

theorem Storing.renewed (h : w.Storing tracking v position now has active w') (hv : kind v) :
    w.Renewed kind w' := by
  rcases h with homing | ⟨w₁, homed, saving⟩
  · exact homing.renewed movable reads
  · exact (homed.renewed movable reads).trans (saving.renewed hv)

end Saving

/-! ## Changing -/

theorem renewed_revised (hx : kind after) : w.Renewed kind (w.revised after) :=
  (Renewed.refl kind w).write hx (Or.inl ⟨0, rfl⟩)

theorem renewed_replaced (hx : kind after) : w.Renewed kind (w.replaced before after) := by
  unfold replaced
  split
  · exact renewed_revised hx
  · exact (renewed_revised hx).of_record rfl

theorem Replacing.renewed (h : w.Replacing before after active w') (hx : kind after) :
    w.Renewed kind w' := by
  rcases h with rfl | rfl | ⟨_, rfl | ⟨rfl, _⟩⟩
  · exact .refl kind _
  · exact renewed_replaced hx
  · exact renewed_revised hx
  · exact (renewed_revised hx).of_record rfl

section Changing

variable (movable : Message.Movable kind) (reads : w.Reads kind)
  (applies : ∀ x, kind x → kind (x.apply u))
include movable reads applies

theorem Updated.renewed (h : w.Updated tracking now has u y w') : w.Renewed kind w' := by
  obtain ⟨current, before, _, record, ⟨_, rfl, rfl⟩ | ⟨destination, _, _, rfl, rfl⟩⟩ := h
  · exact renewed_replaced (applies _ (reads _ _ record))
  · exact renewed_moved (movable _ _ (applies _ (reads _ _ record)))

theorem Updating.renewed (h : w.Updating tracking now has u active w') : w.Renewed kind w' := by
  rcases h with rfl | ⟨current, before, _, record, ⟨_, replacing⟩ | ⟨destination, _, _, underway⟩⟩
  · exact .refl kind _
  · exact replacing.renewed (applies _ (reads _ _ record))
  · exact underway.renewed (movable _ _ (applies _ (reads _ _ record)))

end Changing

/-! ## Deleting and reconciling -/

theorem Forgot.renewed (h : w₁.Forgot tracking thread w') (renewed : w.Renewed kind w₁) :
    w.Renewed kind w' := renewed.of_record h.record

theorem Reconciling.renewed (h : w.Reconciling tracking thread w') : w.Renewed kind w' := by
  have rest : w.Renewed kind w := .refl kind w
  rcases h with rfl | (⟨_, rfl⟩ | ⟨_, _, rfl⟩ | ⟨_, _, rfl⟩ | ⟨_, _, forgot⟩) | ⟨_, _, rfl⟩ |
    ⟨_, _, rfl⟩
  · exact rest
  · exact rest.of_record rfl
  · exact rest
  · exact rest.of_record record_noted
  · exact forgot.renewed (rest.erase _)
  · exact rest.of_record rfl
  · exact rest.erase _

end View

namespace Contents

variable {R : RecordRule} {tracking : Bool} {now : Instant} {active : Prop} {c c₁ c' : Contents}
  {kind : Message → Prop} {names : String → Prop} {thread id : String} {us : List MessageUpdate}
  {ys : List Message}

theorem Follows.renewed (f : Follows R names c c')
    (change : names id → (c.view id).Renewed kind (c'.view id)) :
    (c.view id).Renewed kind (c'.view id) := by
  by_cases hid : names id
  · exact change hid
  · rw [f.within.view id hid]
    exact .refl kind _

theorem Emptying.renewed (h : Emptying R tracking thread c c₁) :
    (c.view id).Renewed kind (c₁.view id) := by
  have rest : (c.view id).Renewed kind (c.view id) := .refl kind _
  refine h.follows.renewed fun hid => ?_
  rcases h.view id hid with e | e | forgot
  · exact e ▸ rest
  · exact e ▸ rest.erase thread
  · exact forgot.renewed (rest.erase thread)

section Changes

variable (movable : Message.Movable kind)
include movable

/-- One change renews the message that it is about, and leaves all others. -/
theorem Follows.renewed_updated {u : MessageUpdate} {y : Message}
    (f : Follows R (· = u.id) c c₁)
    (updated : (c.view u.id).Updated tracking now c.HasThread u y (c₁.view u.id))
    (makes : ∀ x, kind x → kind (x.apply u)) (reads : (c.view id).Reads kind) :
    (c.view id).Renewed kind (c₁.view id) := by
  refine f.renewed ?_
  rintro rfl
  exact updated.renewed movable reads makes

theorem Updates.renewed (h : Updates R tracking now us ys c c')
    (makes : ∀ u ∈ us, ∀ x, kind x → kind (x.apply u)) (reads : (c.view id).Reads kind) :
    (c.view id).Renewed kind (c'.view id) := by
  induction h with
  | nil _ => exact .refl kind _
  | cons f updated _ ih =>
    have first := f.renewed_updated movable updated (makes _ List.mem_cons_self) reads
    exact first.trans (ih (fun u' hu' => makes u' (List.mem_cons_of_mem _ hu')) (first.reads reads))

theorem Interrupted.renewed (h : Interrupted R tracking now active us c c')
    (makes : ∀ u ∈ us, ∀ x, kind x → kind (x.apply u)) (reads : (c.view id).Reads kind) :
    (c.view id).Renewed kind (c'.view id) := by
  induction h with
  | @here u us c c' f updating =>
    refine f.renewed ?_
    rintro rfl
    exact updating.renewed movable reads (makes u List.mem_cons_self)
  | later f updated _ ih =>
    have first := f.renewed_updated movable updated (makes _ List.mem_cons_self) reads
    exact first.trans (ih (fun u' hu' => makes u' (List.mem_cons_of_mem _ hu')) (first.reads reads))

/-- The records that an operation leaves of a message, whether it comes to its end or is stopped. -/
theorem Step.renewed {op : Operation} (step : Step R tracking now active c c' op)
    (makes : op.Makes kind) (reads : (c.view id).Reads kind) :
    (c.view id).Renewed kind (c'.view id) := by
  have rest : (c.view id).Renewed kind (c.view id) := .refl kind _
  cases step with
  | same e | created _ e | changed _ e => exact e ▸ rest
  | saved _ f view =>
    refine f.renewed ?_
    rintro ⟨v, hv, rfl⟩
    obtain ⟨position, stored⟩ := view v hv
    exact stored.renewed movable reads (makes v hv)
  | saving _ f view =>
    refine f.renewed ?_
    rintro ⟨v, hv, rfl⟩
    obtain ⟨position, storing⟩ := view v hv
    exact storing.renewed movable reads (makes v hv)
  | updated updates => exact updates.renewed movable makes reads
  | updating interrupted => exact interrupted.renewed movable makes reads
  | moved f leaves underway =>
    refine f.renewed ?_
    rintro rfl
    exact underway.renewed (movable _ _ (reads _ _ leaves.record))
  | deleted _ emptied e =>
    rw [e, view_closed]
    exact emptied.emptying.renewed.of_record rfl
  | deleting _ _ emptying e =>
    rcases e with rfl | ⟨_, rfl⟩
    · exact emptying.renewed
    · exact emptying.renewed.of_record rfl
  | reconciled _ h =>
    cases h with
    | existing _ _ view => exact (View.Reconciling.finished (view id)).renewed
    | gone _ e =>
      rcases e with rfl | rfl
      · exact rest
      · exact rest.of_record rfl
  | reconciling _ _ h =>
    cases h with
    | existing _ _ view => exact (view id).renewed
    | gone _ e => exact e ▸ rest.of_record rfl

/-- Every record was written for a message of some kind. -/
def Made (kind : Message → Prop) (c : Contents) : Prop :=
  ∀ thread id r, c.record thread id = some r → ∃ x, kind x ∧ x.Writes r

omit movable in
theorem Made.reads (h : c.Made kind) (id : String) : (c.view id).Reads kind := by
  rintro thread y ⟨r, hr, hy⟩
  obtain ⟨x, hx, writes⟩ := h thread id r hr
  rw [writes.eq hy]
  exact hx

/-- An operation that makes messages of some kind leaves records of that kind. -/
theorem Step.made {op : Operation} (step : Step R tracking now active c c' op)
    (makes : op.Makes kind) (h : c.Made kind) : c'.Made kind := by
  intro thread id r hr
  rcases step.renewed movable makes (h.reads id) thread r hr with old | new
  · exact h thread id r old
  · exact new

end Changes

end Contents

end ChatMemory
