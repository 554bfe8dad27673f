import ChatMemory.Proofs.Paging
import ChatMemory.Proofs.Tracking

/-!
# Where answers come from

The messages that a reading answers with are read from records (`Keyspace.Reads`), whatever calls fail
on the way. The ids under which it looks are those of the caller or of the orders, and no check may
have seen them, but in the tables that operations leave only ids of messages have records.

## Main statements

* `reads_of_answer` — the messages of an answer are read from records.
* `isRecord_of_reads` — the records are those of messages under their ids.
-/

namespace ChatMemory

open Action

/-- The message is read from a record of the tables. -/
def Keyspace.Reads (k : Keyspace) (t : Tables) (x : Message) : Prop :=
  ∃ thread id, x.ReadFrom (k.stored t thread id)

/-- The messages of a reply. -/
def Reply.messageList : Reply → List Message
  | .messages ms => ms
  | .page listing => listing.messages
  | _ => []

namespace Action

variable {α β : Type} {p : Action α} {t : Tables} {P : α → Prop} {Q : β → Prop}

/-! ## Values -/

/-- If the action goes well on these tables its value is of some kind. -/
def Gives (p : Action α) (t : Tables) (P : α → Prop) : Prop := ∀ a t', p.Yields t a t' → P a

theorem gives_pure {a : α} (h : P a) : (pure a : Action α).Gives t P := by
  intro b t' hy
  rw [(yields_pure.mp hy).1]
  exact h

/-- The rule for an action that begins with a reading. -/
theorem gives_bind {f : α → Action β} (reads : p.Reads)
    (hf : ∀ a, p.Yields t a t → (f a).Gives t Q) : (p >>= f).Gives t Q := by
  intro b t'' hy
  obtain ⟨a, t', hp, ha⟩ := yields_bind.mp hy
  obtain rfl := reads.yields hp
  exact hf a hp b t'' ha

theorem gives_map {f : α → β} (h : p.Gives t fun a => Q (f a)) : (f <$> p).Gives t Q := by
  intro b t'' hy
  rw [← bind_pure_comp] at hy
  obtain ⟨a, t', hp, ha⟩ := yields_bind.mp hy
  rw [(yields_pure.mp ha).1]
  exact h a t' hp

theorem Yields.orEmpty {a : α} {t' : Tables} {empty : α} (h : p.Yields t a t') :
    (p.orEmpty empty).Yields t a t' := by
  rw [Yields, Action.orEmpty, outcome_recover, show p.outcome t = (.ok a, t') from h]

theorem gives_orEmpty {empty : α} (h : p.Gives t P) (he : P empty) : (p.orEmpty empty).Gives t P := by
  intro a t' hy
  rw [Yields, orEmpty, outcome_recover] at hy
  split at hy
  · next value t₁ hp =>
    obtain ⟨e, _⟩ := Prod.mk.inj hy
    exact Except.ok.inj e ▸ h value t₁ hp
  · next error t₁ hp =>
    split at hy
    · exact absurd hy not_yields_fail
    · rw [(yields_done.mp hy).1]
      exact he

end Action

namespace Store

variable {s : Store} {t : Tables} {x : Message} {now : Instant} {op : Operation}

theorem mem_of_mem_arrange {orders : Orders} {direction : SortDirection} {ms : List Message}
    (h : x ∈ arrange orders direction ms) : x ∈ ms :=
  (distinctBy_sublist _ _).subset (Sorting.mem_sort.mp h)

/-! ## Messages that are read -/

theorem gives_fetchMany (targets : List (String × String)) :
    (s.fetchMany targets).Gives t fun ms => ∀ x ∈ ms, s.keys.Reads t x := by
  intro ms t' h
  have found := (s.yields_fetchMany t targets).symm.trans h
  obtain rfl := Except.ok.inj (Prod.mk.inj found).1
  intro x hx
  obtain ⟨target, _, hx⟩ := List.mem_filterMap.mp hx
  exact ⟨target.1, target.2, Keyspace.message?_eq_some_iff.mp hx⟩

theorem gives_indexedWindow (q : MessageQuery) (thread : String) (limit : Nat) :
    (s.indexedWindow q thread limit).Gives t fun opened =>
      ∀ x ∈ opened.1.messages, s.keys.Reads t x := by
  refine gives_bind (s.reads_snapshot thread) fun order _ => ?_
  refine gives_bind (s.reads_fetchMany _) fun ms fetched => gives_pure ?_
  exact gives_fetchMany _ ms t fetched

theorem gives_filteredWindow (q : MessageQuery) :
    (s.filteredWindow q).Gives t fun opened => ∀ x ∈ opened.1.messages, s.keys.Reads t x := by
  refine gives_bind (s.reads_loadTargets q.threadIds []) fun found _ => ?_
  refine gives_bind (s.reads_fetchMany _) fun ms fetched => gives_pure fun x hx => ?_
  have mem := mem_of_mem_arrange ((q.perPage.slice_sublist q.page _).subset hx)
  exact gives_fetchMany _ ms t fetched x (List.mem_filter.mp mem).1

theorem gives_window (q : MessageQuery) :
    (s.window q).Gives t fun opened => ∀ x ∈ opened.1.messages, s.keys.Reads t x := by
  unfold window
  split
  · split
    · exact gives_filteredWindow q
    · exact gives_indexedWindow q _ _
  · exact gives_filteredWindow q

theorem gives_collectPage (q : MessageQuery) :
    (s.collectPage q).Gives t fun page => ∀ x ∈ page.messages, s.keys.Reads t x := by
  refine gives_bind (s.reads_window q) fun opened window => ?_
  refine gives_bind (s.reads_includeTargets q q.includes opened.2) fun found _ => ?_
  refine gives_bind (s.reads_fetchMany _) fun included fetched => gives_pure fun x hx => ?_
  rcases List.mem_append.mp (mem_of_mem_arrange hx) with hx | hx
  · exact gives_window q opened t window x hx
  · exact gives_fetchMany _ included t fetched x hx

/-! ## Answers -/

/-- The messages that a reading gives are read from records. -/
theorem gives_perform (reading : op.Reading) :
    (s.perform now op).Gives t fun reply => ∀ x ∈ reply.messageList, s.keys.Reads t x := by
  have nothing : ∀ x ∈ ([] : List Message), s.keys.Reads t x :=
    fun _ hx => absurd hx List.not_mem_nil
  cases op with
  | listMessagesById ids =>
    refine gives_map ?_
    unfold listMessagesById
    split
    · exact gives_pure nothing
    · refine gives_orEmpty ?_ nothing
      refine gives_bind (s.reads_locateMany ids) fun located _ => ?_
      refine gives_bind (s.reads_fetchMany _) fun ms fetched => gives_pure fun x hx => ?_
      exact gives_fetchMany _ ms t fetched x (Sorting.mem_sort.mp hx)
  | listMessages q =>
    refine gives_map (gives_bind (reads_check _) fun _ _ => gives_bind (reads_check _) fun _ _ => ?_)
    exact gives_orEmpty (gives_collectPage q) nothing
  | listRecent thread n =>
    refine gives_map (gives_bind (reads_check _) fun _ _ => gives_orEmpty ?_ nothing)
    exact gives_bind (s.reads_snapshot thread) fun order _ => gives_fetchMany _
  | getThread _ | listThreads _ | getResource _ => exact gives_map fun _ _ _ => nothing
  | _ => exact reading.elim

theorem messages_fallback {empty : Reply} (h : op.fallback? = some empty) : empty.messageList = [] := by
  cases op with
  | getThread _ | listThreads _ | listMessagesById _ | listMessages _ | listRecent _ _
  | getResource _ =>
    obtain rfl := Option.some.inj h
    rfl
  | _ => exact absurd h (by simp [Operation.fallback?])

/-- Whatever calls fail, the messages that a reading answers with are read from records. -/
theorem reads_of_answer {faults : Faults} {w : World} {reply : Reply} (reading : op.Reading)
    (h : ((s.perform now op).run faults w).1 = .ok reply) :
    ∀ x ∈ reply.messageList, s.keys.Reads w.tables x := by
  obtain ⟨empty, fallback⟩ := Option.ne_none_iff_exists'.mp (Operation.reading_iff.mp reading)
  rcases (s.fallsBack_perform now fallback faults w).1 with same | fell
  · have yields : (s.perform now op).Yields w.tables reply
        ((s.perform now op).run Faults.none w).2.tables := by
      rw [Yields, outcome_eq_run, ← same, h]
    exact gives_perform reading _ _ yields
  · rw [Except.ok.inj (h.symm.trans fell), messages_fallback fallback]
    exact fun _ hx => absurd hx List.not_mem_nil

/-! ## Records of messages -/

/-- What is read is the record of the message under its own thread and id. -/
theorem isRecord_of_reads (single : (s.keys.contents t).Single) (labelled : s.keys.Labelled t)
    (h : s.keys.Reads t x) : ((s.keys.contents t).view x.id).IsRecord x.threadId x := by
  obtain ⟨thread, id, hx⟩ := h
  have hi : IsMessage id := Decidable.byContradiction fun hi => labelled.not_readFrom single hi x hx
  obtain ⟨r, hr, hx⟩ := hx
  have record : ((s.keys.contents t).view id).IsRecord thread x :=
    ⟨r, (Keyspace.record_contents hi).trans hr, hx⟩
  obtain ⟨rfl, rfl, _⟩ := single.toOrderly.isRecord record
  exact record

/-- What operations do without failures leaves nothing under an id that no message may have. -/
theorem perform_labelled (s : Store) (now : Instant) (op : Operation) {w : World}
    (single : (s.keys.contents w.tables).Single) (labelled : s.keys.Labelled w.tables) :
    (s.keys.contents ((s.perform now op).run Faults.none w).2.tables).Single ∧
      s.keys.Labelled ((s.perform now op).run Faults.none w).2.tables := by
  obtain ⟨_, main, single', labelled'⟩ := s.perform_tracked single labelled rfl now op
  obtain ⟨keys, config⟩ := s
  obtain ⟨⟨⟩⟩ := config
  · exact ⟨single'.of_main main, labelled'.of_main main⟩
  · exact ⟨single', labelled'⟩

theorem performAll_labelled (s : Store) : ∀ (history : List (Instant × Operation)) {w : World},
    (s.keys.contents w.tables).Single → s.keys.Labelled w.tables →
    (s.keys.contents (s.performAll Faults.none history w).2.tables).Single ∧
      s.keys.Labelled (s.performAll Faults.none history w).2.tables
  | [], _, single, labelled => ⟨single, labelled⟩
  | (now, op) :: rest, _, single, labelled => by
    obtain ⟨single', labelled'⟩ := s.perform_labelled now op single labelled
    rw [performAll_cons]
    exact performAll_labelled s rest single' labelled'

end Store

end ChatMemory
