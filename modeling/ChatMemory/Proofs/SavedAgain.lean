import ChatMemory.Proofs.Answers
import ChatMemory.Proofs.Provenance
import ChatMemory.Proofs.Rejected

/-!
# What is listed can be saved again

The messages of a batch are checked: their identifiers keep the rules, and each has a resource and
content (`Message.Complete`). A change is checked for the id of its message and for its thread alone. It
may give a message a resource whose identifier breaks the rules, or take away all content. Such a message
is listed, but cannot be saved again. Changes that do no such thing are *careful*.

## Main statements

* `careful_iff` — the careful changes are those that keep messages complete.
* `performAll_made` — what a history makes of messages.
* `saved_again` — which of the messages that are listed can be saved again.
-/

namespace ChatMemory

/-! ## Careful changes -/

/-- A change of content that gives parts or text, or leaves both as they are. -/
def MessageContentUpdate.Careful (u : MessageContentUpdate) : Prop :=
  (u.parts = none ∧ u.content = none) ∨ (∃ parts, u.parts = some parts ∧ parts ≠ []) ∨
    ∃ text, u.content = some text ∧ text ≠ ""

/-- A change to a resource whose identifier keeps the rules, if to any, and to content that is some. -/
structure MessageUpdate.Careful (u : MessageUpdate) : Prop where
  resource : ∀ id, u.resourceId = some id → Identifier.Valid id
  content : ∀ change, u.content = some change → change.Careful

/-- All changes that the operation makes are careful. -/
def Operation.Careful : Operation → Prop
  | .updateMessages us => ∀ u ∈ us, u.Careful
  | _ => True

theorem MessageContent.isEmpty_eq_false {c : MessageContent} :
    c.isEmpty = false ↔ c.parts ≠ [] ∨ c.content.getD "" ≠ "" := by
  simp only [isEmpty, Bool.and_eq_false_iff, ne_eq]
  refine or_congr ?_ ?_
  · cases c.parts <;> simp
  · rw [← Bool.not_eq_true, String.isEmpty_iff]

/-- The careful changes of content are those that leave no content empty that was not. -/
theorem MessageContentUpdate.careful_iff {u : MessageContentUpdate} :
    u.Careful ↔ ∀ c : MessageContent, c.isEmpty = false → (c.merge u).isEmpty = false := by
  simp only [MessageContent.isEmpty_eq_false, MessageContent.merge]
  constructor
  · rintro (⟨hp, hc⟩ | ⟨parts, hp, hne⟩ | ⟨text, hc, hne⟩) c full
    · rw [hp, hc]
      exact full
    · rw [hp]
      exact Or.inl hne
    · rw [hc]
      exact Or.inr hne
  intro h
  -- Content that has only a text, and content that has only a part.
  have text := h ⟨0, [], some "text", none⟩ (Or.inr (by simp))
  have part := h ⟨0, [.null], none, none⟩ (Or.inl (by simp))
  cases hp : u.parts with
  | none =>
    cases hc : u.content with
    | none => exact Or.inl ⟨hp, hc⟩
    | some given =>
      rw [hp, hc] at text
      exact Or.inr (Or.inr ⟨given, hc, text.resolve_left fun e => e rfl⟩)
  | some parts =>
    by_cases hne : parts = []
    · cases hc : u.content with
      | none => exact absurd part (by simp [hp, hc, hne])
      | some given =>
        rw [hp, hc, hne] at text
        exact Or.inr (Or.inr ⟨given, hc, text.resolve_left fun e => e rfl⟩)
    · exact Or.inr (Or.inl ⟨parts, hp, hne⟩)

theorem MessageUpdate.Careful.apply {u : MessageUpdate} (h : u.Careful) {x : Message}
    (complete : x.Complete) : (x.apply u).Complete where
  resource := by
    cases hu : u.resourceId with
    | none =>
      obtain ⟨id, hx, valid⟩ := complete.resource
      exact ⟨id, by simp [Message.apply, hu, hx], valid⟩
    | some id => exact ⟨id, by simp [Message.apply, hu], h.resource id hu⟩
  content := by
    cases hu : u.content with
    | none => simpa [Message.apply, hu] using complete.content
    | some change =>
      have full := MessageContentUpdate.careful_iff.mp (h.content change hu) _ complete.content
      simpa [Message.apply, hu] using full

/-- The careful changes are those that keep messages complete. -/
theorem MessageUpdate.careful_iff {u : MessageUpdate} :
    u.Careful ↔ ∀ x : Message, x.Complete → (x.apply u).Complete := by
  refine ⟨fun h x => h.apply, fun h => ⟨fun id hu => ?_, fun change hu => ?_⟩⟩
  · have plain : (Message.user (.ofNanos 0) "" "" "r" "text").Complete :=
      ⟨⟨"r", rfl, by decide⟩, by decide⟩
    obtain ⟨other, e, valid⟩ := (h _ plain).resource
    have e : some id = some other := by simpa [Message.apply, hu] using e
    exact Option.some.inj e ▸ valid
  · refine MessageContentUpdate.careful_iff.mpr fun c full => ?_
    have plain : (Message.create (.ofNanos 0) "" "" "r" .user c).Complete :=
      ⟨⟨"r", rfl, by decide⟩, full⟩
    simpa [Message.apply, Message.create, hu] using (h _ plain).content

/-- What changes leave of a message: it has a resource, and if they were careful it is complete. -/
structure Message.Kept (careful : Prop) (x : Message) : Prop where
  resource : x.resourceId ≠ none
  complete : careful → x.Complete

theorem Message.Complete.kept {x : Message} (h : x.Complete) (careful : Prop) : x.Kept careful where
  resource := by
    obtain ⟨id, hr, _⟩ := h.resource
    rw [hr]
    exact Option.some_ne_none id
  complete _ := h

theorem Message.movable_kept (careful : Prop) : Movable (Kept careful) := fun _ _ h =>
  ⟨h.resource, fun hc => ⟨(h.complete hc).resource, (h.complete hc).content⟩⟩

/-- What an operation makes of messages whose arguments keep the rules. -/
theorem Operation.makes_kept {op : Operation} (checked : op.violations = []) {careful : Prop}
    (h : careful → op.Careful) : op.Makes (Message.Kept careful) := by
  cases op with
  | saveMessages ms =>
    exact fun v hv => ((Store.batchViolations_eq_nil.mp checked).1 v hv).2.2.1.kept careful
  | updateMessages us =>
    refine fun u hu x kept => ⟨?_, fun hc => (h hc u hu).apply (kept.complete hc)⟩
    cases given : u.resourceId with
    | none => simpa [Message.apply, given] using kept.resource
    | some id => simp [Message.apply, given]
  | _ => trivial

namespace Store

open Action Contents

variable {s : Store} {faults : Faults} {kind : Message → Prop}

/-! ## Histories -/

/-- The records that a history leaves. An operation whose arguments break the rules makes none. -/
theorem performAll_made (s : Store) (faults : Faults) (movable : Message.Movable kind) :
    ∀ (history : List (Instant × Operation)) {w : World},
    (∀ e ∈ history, e.2.violations = [] → e.2.Makes kind) →
    Founded .written (s.keys.contents w.tables) → (s.keys.contents w.tables).Made kind →
    (s.keys.contents (s.performAll faults history w).2.tables).Made kind
  | [], _, _, _, made => made
  | (now, op) :: rest, w, makes, founded, made => by
    have step := s.step_perform now faults w founded.toOrderly op.dated_written
    rw [performAll_cons]
    refine performAll_made s faults movable rest (fun e he => makes e (List.mem_cons_of_mem _ he))
      (step.founded founded) ?_
    by_cases checked : op.violations = []
    · exact step.made movable (makes _ List.mem_cons_self checked) made
    · rw [s.perform_violated now checked, run_fail]
      exact made

/-- From empty tables on. -/
theorem made_of_history (s : Store) (history : List (Instant × Operation))
    (movable : Message.Movable kind)
    (makes : ∀ e ∈ history, e.2.violations = [] → e.2.Makes kind) :
    (s.keys.contents (s.performAll Faults.none history World.initial).2.tables).Made kind := by
  have start : s.keys.contents World.initial.tables = empty := contents_empty s.keys
  refine s.performAll_made Faults.none movable history makes (start ▸ founded_empty) ?_
  rw [start]
  exact fun _ _ _ hr => absurd hr (by simp [empty])

theorem labelled_of_history (s : Store) (history : List (Instant × Operation)) :
    (s.keys.contents (s.performAll Faults.none history World.initial).2.tables).Single ∧
      s.keys.Labelled (s.performAll Faults.none history World.initial).2.tables := by
  have start : Tables.empty.Single s.keys :=
    ⟨fun _ h => absurd (Tables.get?_empty ..) h, fun _ h => absurd (Tables.get?_empty ..) h,
      fun _ ⟨_, h, _⟩ => absurd ((Tables.get?_empty ..).symm.trans h) (by simp),
      fun _ h => absurd (Tables.get?_empty ..) h,
      fun _ => by rw [Keyspace.stored, Tables.get?_empty]; exact StoredOrder.sorted_none.readable⟩
  exact s.performAll_labelled history start.contents start.labelled

/-! ## Messages that are listed -/

/-- Some reading answers with the message. -/
def Lists (s : Store) (w : World) (x : Message) : Prop :=
  ∃ now op faults reply, op.Reading ∧ ((s.perform now op).run faults w).1 = .ok reply ∧
    x ∈ reply.messageList

/-- The message of a record has the identifiers under which the record stands, and they keep the
rules. -/
theorem identifiers_of_record {c : Contents} (h : Orderly .written c) {thread id : String} {r : Json}
    (hr : c.record thread id = some r) {x : Message} (writes : x.Writes r) :
    x.id = id ∧ x.threadId = thread ∧ Identifier.ValidMessage x.id ∧ Identifier.Valid x.threadId := by
  obtain ⟨_, valid, validMessage, y, rfl, rfl, hy⟩ := h.placed hr
  have hid : x.id = y.id := Json.str.inj (Option.some.inj (writes.field?.1.symm.trans hy.field?.1))
  have hthread : x.threadId = y.threadId :=
    Json.str.inj (Option.some.inj (writes.field?.2.symm.trans hy.field?.2))
  exact ⟨hid, hthread, hid ▸ validMessage, hthread ▸ valid⟩

/--
After a history without failures: every record of a message is written for one whose identifiers keep
the rules and which has a resource; it is complete if all changes were careful. Of the messages that
are listed, a batch is rejected for its arguments just if one of its messages is not complete, and that
does not happen if all changes were careful.
-/
theorem saved_again (s : Store) (history : List (Instant × Operation)) :
    let w := (s.performAll Faults.none history World.initial).2
    (∀ thread id r, id ≠ Keyspace.orderField →
      w.tables.get? .messages (s.keys.message thread id) = some r →
      ∃ x : Message, x.Writes r ∧ x.id = id ∧ x.threadId = thread ∧ Identifier.ValidMessage x.id ∧
        Identifier.Valid x.threadId ∧ x.resourceId ≠ none ∧
        ((∀ e ∈ history, e.2.Careful) → x.Complete)) ∧
    ∀ ms : List Message, (∀ x ∈ ms, s.Lists w x) → ms.Pairwise (·.id ≠ ·.id) →
      (∀ now faults, (∃ violations, ((s.perform now (.saveMessages ms)).run faults w).1
        = .error (.validation violations)) ↔ ∃ x ∈ ms, ¬ x.Complete) ∧
      ((∀ e ∈ history, e.2.Careful) → ∀ x ∈ ms, x.Complete) := by
  intro w
  have founded : Founded .written (s.keys.contents w.tables) :=
    performAll_founded s Faults.none fun e _ => e.2.dated_written
  obtain ⟨single, labelled⟩ := s.labelled_of_history history
  have made := s.made_of_history history (Message.movable_kept (∀ e ∈ history, e.2.Careful))
    fun e he checked => Operation.makes_kept checked fun careful => careful e he
  refine ⟨fun thread id r reserved hr => ?_, fun ms listed distinct => ?_⟩
  · have stored : s.keys.stored w.tables thread id = some r := hr
    have hi : IsMessage id := by
      refine ⟨?_, reserved⟩
      rintro rfl
      exact absurd (stored.symm.trans (labelled.stored_blank single thread)) (by simp)
    rw [← Keyspace.record_contents hi] at stored
    obtain ⟨x, kept, writes⟩ := made thread id r stored
    obtain ⟨hid, hthread, validMessage, valid⟩ :=
      identifiers_of_record founded.toOrderly stored writes
    exact ⟨x, writes, hid, hthread, validMessage, valid, kept.resource, kept.complete⟩
  · have record : ∀ x ∈ ms, ((s.keys.contents w.tables).view x.id).IsRecord x.threadId x := by
      intro x hx
      obtain ⟨now, op, faults, reply, reading, answer, mem⟩ := listed x hx
      exact isRecord_of_reads single labelled (reads_of_answer reading answer x mem)
    refine ⟨fun now faults => ?_, fun careful x hx =>
      (made.reads x.id _ _ (record x hx)).complete careful⟩
    have checked : (Operation.saveMessages ms).violations = [] ↔ ∀ x ∈ ms, x.Complete := by
      refine batchViolations_eq_nil.trans ⟨fun h x hx => (h.1 x hx).2.2.1, fun all => ⟨?_, distinct⟩⟩
      intro x hx
      obtain ⟨_, _, _, valid, there⟩ := founded.toOrderly.isRecord (record x hx)
      obtain ⟨r, hr, _⟩ := record x hx
      exact ⟨(founded.placed hr).2.2.1, valid, all x hx, List.not_mem_nil⟩
    refine ⟨fun ⟨violations, he⟩ => ?_, fun ⟨x, hx, incomplete⟩ => ?_⟩
    · refine Classical.byContradiction fun all => ?_
      have hc := checked.mpr fun x hx =>
        Classical.byContradiction fun incomplete => all ⟨x, hx, incomplete⟩
      have unobjecting := (s.accepted_perform now faults founded hc).1 _ he
      exact absurd unobjecting (by simp [MemoryError.isValidation])
    · have violated : (Operation.saveMessages ms).violations ≠ [] :=
        fun hc => incomplete (checked.mp hc x hx)
      exact ⟨_, by rw [s.perform_violated now violated, run_fail]⟩

end Store

/-! ## A sample -/

namespace Sample

/-- The message is changed, and then asked for. -/
def altered (u : MessageUpdate) : List (Instant × Operation) :=
  history "a" ++ [(now, .updateMessages [u])]

def alteredWorld (u : MessageUpdate) : World :=
  ((store false).performAll Faults.none (altered u) World.initial).2

def alteredReply (u : MessageUpdate) : Except MemoryError Reply :=
  (((store false).perform now (.listMessagesById ["m"])).run Faults.none (alteredWorld u)).1

/-- The resource gets an identifier with a colon. -/
def careless : MessageUpdate := { id := "m", resourceId := some "a:b" }

/-- The resource and the text change. -/
def careful : MessageUpdate := MessageUpdate.withText { id := "m", resourceId := some "q" } "other"

/-- Whether a reply is one message of some kind. -/
def isOne (p : Message → Bool) : Except MemoryError Reply → Bool
  | .ok (.messages [x]) => p x
  | _ => false

theorem exists_of_isOne {p : Message → Bool} {reply : Except MemoryError Reply}
    (h : isOne p reply = true) : ∃ x, reply = .ok (.messages [x]) ∧ p x = true := by
  unfold isOne at h
  split at h
  · next x => exact ⟨x, rfl, h⟩
  · exact absurd h (by simp)

end Sample

namespace Store

open Action Contents

/-- After a careless change the message is listed, and rejected when it is saved again. -/
theorem careless_change_rejected :
    ∃ x : Message, Sample.alteredReply Sample.careless = .ok (.messages [x]) ∧
      x.resourceId = some "a:b" ∧
      (((Sample.store false).perform Sample.now (.saveMessages [x])).run Faults.none
        (Sample.alteredWorld Sample.careless)).1
          = .error (.validation [.separator "messages[0]: resourceId" "a:b"]) := by
  have answer : Sample.isOne (fun x => decide (x.resourceId = some "a:b" ∧
      (Operation.saveMessages [x]).violations = [.separator "messages[0]: resourceId" "a:b"]))
      (Sample.alteredReply Sample.careless) = true := by decide +kernel
  obtain ⟨x, hx, h⟩ := Sample.exists_of_isOne answer
  obtain ⟨resource, violations⟩ := of_decide_eq_true h
  refine ⟨x, hx, resource, ?_⟩
  rw [perform_violated _ _ (by simp [violations]), run_fail, violations]

/-- After a careful change the message can be saved again, whatever calls fail. -/
theorem careful_change_accepted :
    ∃ x : Message, Sample.alteredReply Sample.careful = .ok (.messages [x]) ∧
      x.resourceId = some "q" ∧ ∀ now faults violations,
        (((Sample.store false).perform now (.saveMessages [x])).run faults
          (Sample.alteredWorld Sample.careful)).1 ≠ .error (.validation violations) := by
  have answer : Sample.isOne (fun x => decide (x.resourceId = some "q"))
      (Sample.alteredReply Sample.careful) = true := by decide +kernel
  obtain ⟨x, hx, h⟩ := Sample.exists_of_isOne answer
  have listed : ∀ y ∈ [x], (Sample.store false).Lists (Sample.alteredWorld Sample.careful) y := by
    intro y hy
    exact ⟨Sample.now, .listMessagesById ["m"], Faults.none, _, trivial, hx, hy⟩
  have careful : ∀ e ∈ Sample.altered Sample.careful, e.2.Careful := by
    simp only [Sample.altered, Sample.history, List.cons_append, List.nil_append,
      List.forall_mem_cons, Operation.Careful, List.not_mem_nil, false_implies, implies_true, and_true,
      true_and]
    refine ⟨fun id hid => ?_, fun change hc => ?_⟩
    · exact Option.some.inj hid ▸ by decide
    · exact Or.inr (Or.inr ⟨"other", by rw [← Option.some.inj hc], by decide⟩)
  obtain ⟨rejected, complete⟩ := (saved_again (Sample.store false) (Sample.altered Sample.careful)).2
    [x] listed (List.pairwise_singleton ..)
  refine ⟨x, hx, of_decide_eq_true h, fun now faults violations he => ?_⟩
  obtain ⟨y, hy, incomplete⟩ := (rejected now faults).mp ⟨violations, he⟩
  exact incomplete (complete careful y hy)

end Store

end ChatMemory
