import ChatMemory.Proofs.Consistency
import ChatMemory.Proofs.Renewal
import Mathlib.Data.List.Induction

/-!
# A thread through a history

What becomes of the record of a thread in a history without failures, from an operation that saves
or deletes the thread to the next. The record is that of one thread all along, whose date of change
is never moved back, whatever the clock says. It is moved on by every operation that goes well and
that changes the thread or a message in it. The threads of an operation are those that it names
(`Renewal`) and those that had one of its messages before. Where a message is does not change before
the operation comes to it, so it is enough to know where it was in the beginning.

Title and metadata are changed by the change of a thread alone. So the metadata are those of the
beginning, with all patches merged into them in the order of the calls.

## Main statements

* `ends_fetchHomes_held`, `ends_eachUpdate_held` — a thread that has a message is renewed when the
  message leaves it or is changed.
* `threadStep_perform` — what one operation does to the record of a thread.
* `exists_written` — every record of a thread was written for that thread.
* `exists_threadLine`, `ThreadLine.metadata_eq` — what a window of operations does to it.
* `thread_history` — the record of a thread through a history.
-/

namespace ChatMemory

namespace Operation

/-- The operation saves or deletes the thread as a whole. -/
def Replaces (thread : String) : Operation → Prop
  | .saveThread t => t.id = thread
  | .deleteThread id => id = thread
  | _ => False

/-- The operation changes the thread, or a message that goes to the thread or has been in it. -/
def Touches (c : Contents) (thread : String) : Operation → Prop
  | .updateThread id _ _ => id = thread
  | .saveMessages ms => ∃ v ∈ ms, v.threadId = thread ∨ c.Holds thread v.id
  | .updateMessages us => ∃ u ∈ us, u.threadId = some thread ∨ c.Holds thread u.id
  | .migrateMessage _ origin destination =>
    origin ≠ destination ∧ (origin = thread ∨ destination = thread)
  | _ => False

/-- The metadata that the operation merges into those of the thread. -/
def patch? (thread : String) : Operation → Option Object
  | .updateThread id _ patch => if id = thread then some patch else none
  | _ => none

end Operation

namespace Store

open Action Contents

variable {s : Store} {faults : Faults} {R : RecordRule} {c : Contents} {now : Instant}
  {thread id : String}

/-! ## Threads that have a message -/

/-- A thread that alone has a message is where the message is found. -/
theorem ends_findMessage_held (h : Orderly R c) (hi : IsMessage id)
    (held : ∀ other, c.Holds other id ↔ other = thread) :
    Ends s.keys faults (s.findMessage id) c (fun found c' => c' = c ∧ found = some thread)
      (fun _ _ => True) := by
  refine (ends_findMessage h hi).mono (fun found c' => ?_) fun _ _ _ => trivial
  rintro ⟨rfl, hnone, hsome⟩
  refine ⟨rfl, ?_⟩
  cases found with
  | none => exact absurd ((held thread).mpr rfl) (hnone rfl thread)
  | some current => rw [(held current).mp (hsome current rfl).holds]

theorem ends_fetchHome_held (h : Orderly R c) {v : Message} (hi : IsMessage v.id)
    (held : ∀ other, c.Holds other v.id ↔ other = thread) (apart : thread ≠ v.threadId) :
    Ends s.keys faults (s.fetchHome now v) c (fun _ c' => Renewed c c' thread) fun _ _ => True := by
  refine (ends_findMessage_held h hi held).andThen (fun _ _ _ => trivial) fun found c' => ?_
  rintro ⟨rfl, rfl⟩
  refine ends_ite (fun e => absurd e apart) fun _ => ?_
  exact ((renews_migrateMessage v.id thread v.threadId).bind fun _ => renews_pure).ends
    (Or.inl ⟨apart, Or.inl rfl⟩) c'

/-- A thread that a message of a batch leaves is renewed. -/
theorem ends_fetchHomes_held {v : Message} (apart : thread ≠ v.threadId) :
    ∀ {ms : List Message} {c : Contents}, Orderly R c → ms.Pairwise (·.id ≠ ·.id) →
      (∀ m ∈ ms, Identifier.ValidMessage m.id) → v ∈ ms →
      (∀ other, c.Holds other v.id ↔ other = thread) →
      Ends s.keys faults (Action.forAll (s.fetchHome now) ms) c (fun _ c' => Renewed c c' thread)
        fun _ _ => True
  | m :: rest, c, h, distinct, valid, hv, held => by
    obtain ⟨first, distinct⟩ := List.pairwise_cons.mp distinct
    have hi := valid m List.mem_cons_self
    rcases List.mem_cons.mp hv with rfl | hv
    · refine (ends_fetchHome_held h hi.isMessage held apart).andThen (fun _ _ _ => trivial)
        fun _ c₁ renewed => ?_
      exact (renews_forAll renews_fetchHome rest).keeps renewed
    · -- Another message is brought home first. The one of the thread stays where it is.
      have stays : (s.fetchHome now m).Renews s.keys faults thread False := renews_fetchHome m
      refine ((ends_fetchHome h hi).and (stays c)).andThen
        (fun _ _ _ => trivial) fun _ c₁ ⟨⟨follows, _⟩, renews⟩ => ?_
      have held₁ : ∀ other, c₁.Holds other v.id ↔ other = thread := fun other =>
        (follows.within.holds_iff (fun e => first v hv e.symm) other).trans (held other)
      refine (ends_fetchHomes_held apart follows.orderly distinct
        (fun m hm => valid m (List.mem_cons_of_mem _ hm)) hv held₁).mono
        (fun _ _ => renews.then_renewed) fun _ _ _ => trivial

/-- A thread that a message of a batch names or leaves is renewed. -/
theorem ends_saveMessages_touched (h : Orderly R c)
    (whole : ∀ id, (c.view id).Whole c.HasThread) {ms : List Message}
    (touched : ∃ v ∈ ms, v.threadId = thread ∨ c.Holds thread v.id) :
    Ends s.keys faults (s.saveMessages now ms) c (fun _ c' => Renewed c c' thread)
      fun _ _ => True := by
  by_cases named : ∃ v ∈ ms, v.threadId = thread
  · exact (renews_saveMessages ms).ends named c
  obtain ⟨v, hv, e | hh⟩ := touched
  · exact absurd ⟨v, hv, e⟩ named
  refine (ends_check _).andThen (fun _ _ _ => trivial) fun _ c' hc => ?_
  obtain ⟨rfl, checked⟩ := hc
  obtain ⟨valid, distinct⟩ := batchViolations_eq_nil.mp checked
  refine ends_ite (fun empty => absurd hv (by simp [List.isEmpty_iff.mp empty])) fun _ => ?_
  refine (Reads.ends (only_forAll s.reads_requireThread _)).andThen (fun _ _ _ => trivial)
    fun _ c₁ e => ?_
  subst e
  refine (ends_fetchHomes_held (fun e => named ⟨v, hv, e.symm⟩) h distinct
    (fun m hm => (valid m hm).1) hv ((whole v.id).at_of_holds hh).holds).andThen
    (fun _ _ _ => trivial) fun _ c₂ renewed => ?_
  exact ((renews_forAll (fun other => renews_saveInto ms other) _).bind fun _ => renews_pure).keeps renewed

/-- A thread that has a message is renewed when the message is changed. -/
theorem ends_updateMessage_held (h : Orderly R c) {u : MessageUpdate} (hi : IsMessage u.id)
    (held : ∀ other, c.Holds other u.id ↔ other = thread) :
    Ends s.keys faults (s.updateMessage now u) c (fun _ c' => Renewed c c' thread)
      fun _ _ => True := by
  refine (ends_findMessage_held h hi held).andThen (fun _ _ _ => trivial) fun found c' => ?_
  rintro ⟨rfl, rfl⟩
  refine Renews.ends (.after (s.reads_fetchMessage thread u.id) fun found => ?_) trivial c'
  cases found with
  | none => exact renews_fail
  | some before =>
    dsimp only
    split
    · exact (renews_updateAndMove thread _ _).mono fun _ => Or.inl rfl
    · exact (renews_updateInPlace thread before _).mono fun _ => rfl

theorem ends_eachUpdate_held {v : MessageUpdate} : ∀ {us : List MessageUpdate} {c : Contents},
    Orderly R c → (∀ u ∈ us, (Identifier.ValidMessage u.id ∧
      ∀ destination, u.threadId = some destination → Identifier.Valid destination) ∧
      ∀ date, u.createdAt = some date → R.dates date) → v ∈ us →
    (∀ other, c.Holds other v.id ↔ other = thread) →
    Ends s.keys faults (Action.each (s.updateMessage now) us) c (fun _ c' => Renewed c c' thread)
      fun _ _ => True
  | u :: rest, c, h, valid, hv, held => by
    obtain ⟨⟨hi, ht⟩, hd⟩ := valid u List.mem_cons_self
    by_cases same : u.id = v.id
    · refine (ends_updateMessage_held h hi.isMessage (same ▸ held)).andThen (fun _ _ _ => trivial)
        fun y c₁ renewed => ?_
      exact ((renews_eachUpdate rest).bind fun _ => renews_pure).keeps renewed
    · have hv := (List.mem_cons.mp hv).resolve_left fun e => same (e ▸ rfl)
      -- Another message is changed first. The one of the thread stays where it is.
      have stays : (s.updateMessage now u).Renews s.keys faults thread False :=
        (renews_updateMessage u).mono False.elim
      refine ((ends_updateMessage h hi ht hd).and (stays c)).andThen (fun _ _ _ => trivial)
        fun y c₁ ⟨⟨follows, _⟩, renews⟩ => ?_
      have held₁ : ∀ other, c₁.Holds other v.id ↔ other = thread := fun other =>
        (follows.within.holds_iff (fun e => same e.symm) other).trans (held other)
      refine (ends_eachUpdate_held follows.orderly
        (fun u' hu' => valid u' (List.mem_cons_of_mem _ hu')) hv held₁).andThen
          (fun _ _ _ => trivial) fun _ _ renewed => ends_pure (renews.then_renewed renewed)

/-- A thread that a change names or has the message of is renewed. -/
theorem ends_updateMessages_touched (h : Orderly R c)
    (whole : ∀ id, (c.view id).Whole c.HasThread) {us : List MessageUpdate}
    (dated : ∀ u ∈ us, ∀ date, u.createdAt = some date → R.dates date)
    (touched : ∃ u ∈ us, u.threadId = some thread ∨ c.Holds thread u.id) :
    Ends s.keys faults (s.updateMessages now us) c (fun _ c' => Renewed c c' thread)
      fun _ _ => True := by
  obtain ⟨u, hu, named | hh⟩ := touched
  · exact (renews_updateMessages us).ends ⟨u, hu, named⟩ c
  refine (ends_check _).andThen (fun _ _ _ => trivial) fun _ c' hc => ?_
  obtain ⟨rfl, checked⟩ := hc
  have valid := valid_of_updateViolations checked
  exact ends_eachUpdate_held h (fun u hu => ⟨valid u hu, dated u hu⟩) hu
    ((whole u.id).at_of_holds hh).holds

/-! ## One operation -/

theorem each_append {α β : Type} (f : α → Action β) : ∀ as as' : List α,
    Action.each f (as ++ as') = (do
      let bs ← Action.each f as
      let bs' ← Action.each f as'
      return bs ++ bs')
  | [], as' => by
    show Action.each f as' = (do let bs' ← Action.each f as'; return [] ++ bs')
    simp
  | a :: rest, as' => by
    rw [List.cons_append, Action.each, Action.each, each_append f rest as']
    simp

/-- An operation that neither changes the thread itself nor replaces it renews its record or leaves
it as it is. -/
theorem ends_perform_renews (h : Orderly R c) {op : Operation} (stays : ¬ op.Replaces thread)
    (other : ∀ title patch, op ≠ .updateThread thread title patch) :
    Ends s.keys faults (s.perform now op) c (fun _ c' => Contents.Renews c c' thread False)
      (fun _ c' => Contents.Renews c c' thread False) := by
  have of_leaves {α : Type} {p : Action α} {f : α → Reply} (leaves : p.Leaves s.keys thread) :
      Ends s.keys faults (f <$> p) c (fun _ c' => Contents.Renews c c' thread False)
        (fun _ c' => Contents.Renews c c' thread False) := leaves.renews.map f c
  have of_aside {α : Type} {p : Action α} {f : α → Reply} (aside : p.Aside) :
      Ends s.keys faults (f <$> p) c (fun _ c' => Contents.Renews c c' thread False)
        (fun _ c' => Contents.Renews c c' thread False) :=
    (Aside.ends (only_map aside)).mono (fun _ _ e => e ▸ .refl c thread) fun _ _ e =>
      e ▸ .refl c thread
  have reading : op.Reading → Ends s.keys faults (s.perform now op) c
      (fun _ c' => Contents.Renews c c' thread False)
      (fun _ c' => Contents.Renews c c' thread False) :=
    fun reads => (s.reads_perform now reads).renews c
  cases op with
  | saveThread t => exact of_leaves (leaves_saveThread stays)
  | updateThread id title patch =>
    have apart : id ≠ thread := fun e => other title patch (by rw [e])
    exact of_leaves (leaves_updateThread apart title patch)
  | deleteThread id => exact of_leaves (leaves_deleteThread stays)
  | saveMessages ms => exact ((renews_saveMessages ms).mono False.elim).map _ c
  | updateMessages us => exact ((renews_updateMessages us).mono False.elim).map _ c
  | migrateMessage id origin destination =>
    exact ((renews_migrateMessage id origin destination).mono False.elim).map _ c
  | reconcileThread id =>
    refine Ends.map ((ends_reconcileThread h id).mono (fun _ c' hc => ?_) fun _ c' hc => ?_)
    · exact Or.inr ⟨False.elim, congrFun hc.2.1 thread⟩
    · rcases hc with ⟨e, _⟩ | ⟨_, _, same, _⟩
      · exact e ▸ .refl c thread
      · exact Or.inr ⟨False.elim, congrFun same thread⟩
  | saveResource r => exact of_aside (aside_saveResource s r)
  | updateResource id memory patch => exact of_aside (aside_updateResource s id memory patch)
  | _ => exact reading trivial

section Step

variable {tracking : Bool} {w w' : World} {op : Operation}

/-- An operation that goes well renews the threads that it touches. -/
theorem renewed_of_touches (consistent : (s.keys.contents w.tables).Consistent tracking)
    {reply : Reply} (run : (s.perform now op).run faults w = (.ok reply, w'))
    (other : ∀ title patch, op ≠ .updateThread thread title patch)
    (touches : op.Touches (s.keys.contents w.tables) thread) :
    Renewed (s.keys.contents w.tables) (s.keys.contents w'.tables) thread := by
  have orderly := consistent.toOrderly
  have whole (id : String) := (consistent.fine id).whole
  have ends : Ends s.keys faults (s.perform now op) (s.keys.contents w.tables)
      (fun _ c' => Renewed (s.keys.contents w.tables) c' thread) fun _ _ => True := by
    cases op with
    | updateThread id title patch =>
      obtain rfl : id = thread := touches
      exact absurd rfl (other title patch)
    | saveMessages ms => exact Ends.map (ends_saveMessages_touched orderly whole touches)
    | updateMessages us =>
      exact Ends.map (ends_updateMessages_touched orderly whole (fun _ _ _ _ => trivial) touches)
    | migrateMessage id origin destination =>
      exact Ends.map ((renews_migrateMessage id origin destination).ends touches _)
    | _ => exact touches.elim
  exact ends.ok rfl run

/-- Changes that go well one after the other have been applied when a later one fails. -/
theorem renewed_of_first (consistent : (s.keys.contents w.tables).Consistent tracking)
    {first rest : List MessageUpdate} (valid : updateViolations 0 (first ++ rest) = [])
    {ys : List Message} {w₁ : World}
    (run : (s.updateMessages now first).run faults w = (.ok ys, w₁))
    (touches : (Operation.updateMessages first).Touches (s.keys.contents w.tables) thread) :
    Renewed (s.keys.contents w.tables)
      (s.keys.contents ((s.perform now (.updateMessages (first ++ rest))).run faults w).2.tables)
      thread := by
  have renewed : Renewed (s.keys.contents w.tables) (s.keys.contents w₁.tables) thread :=
    (ends_updateMessages_touched consistent.toOrderly (fun id => (consistent.fine id).whole)
      (fun _ _ _ _ => trivial) touches).ok rfl run
  have passed : updateViolations 0 first = [] := by
    refine Classical.byContradiction fun violated => ?_
    rw [updateMessages, check_violated violated] at run
    exact absurd (show Except.error _ = Except.ok ys from congrArg Prod.fst run) (by simp)
  rw [updateMessages, check_nil passed, pure_bind] at run
  let others (ys : List Message) : Action Reply :=
    Action.each (s.updateMessage now) rest >>= fun zs => pure (.messages (ys ++ zs))
  have parts : s.perform now (.updateMessages (first ++ rest))
      = (Action.each (s.updateMessage now) first).bind others := by
    rw [perform, updateMessages, check_nil valid, pure_bind, each_append]
    simp only [map_bind, map_pure]
    rfl
  have later : (others ys).Renews s.keys faults thread False :=
    ((renews_eachUpdate rest).bind fun _ => renews_pure).mono False.elim
  rw [parts, Action.run_bind, run]
  exact renewed.then ((later _).always (w := w₁) rfl)

end Step

end Store

/--
What one operation, performed at a time in a world, does to a thread `x`, of which it makes `x'`.
-/
structure ThreadStep (s : Store) (now : Instant) (op : Operation) (thread : String) (w : World)
    (x x' : Thread) : Prop where
  id : x'.id = x.id
  resourceId : x'.resourceId = x.resourceId
  createdAt : x'.createdAt = x.createdAt
  /-- The date of change is never moved back. -/
  le : x.updatedAt ≤ x'.updatedAt
  /-- It is moved on if the operation goes well and touches the thread. -/
  lt : ((s.perform now op).run Faults.none w).1.isOk = true →
    op.Touches (s.keys.contents w.tables) thread → x.updatedAt < x'.updatedAt
  /-- Of changes of messages it is enough that the first ones go well, up to one that fails. -/
  lt_first : ∀ first rest, op = .updateMessages (first ++ rest) →
    Store.updateViolations 0 (first ++ rest) = [] →
    ((s.updateMessages now first).run Faults.none w).1.isOk = true →
    (Operation.updateMessages first).Touches (s.keys.contents w.tables) thread →
    x.updatedAt < x'.updatedAt
  /-- A change of the thread that goes well replaces the title and merges its patch. -/
  changed : ((s.perform now op).run Faults.none w).1.isOk = true → ∀ title patch,
    op = .updateThread thread title patch →
    x'.title = some title ∧ x'.metadata = x.metadata.merge patch
  /-- Nothing else changes them. -/
  kept : (((s.perform now op).run Faults.none w).1.isOk = true → ∀ title patch,
    op ≠ .updateThread thread title patch) → x'.title = x.title ∧ x'.metadata = x.metadata

namespace Store

open Action Contents

variable {s : Store} {faults : Faults} {R : RecordRule} {c : Contents} {now : Instant}
  {thread : String} {tracking : Bool} {w : World} {op : Operation} {x : Thread}

/-- A thread that is renewed if it must be. -/
theorem threadStep_of_renews {w' : World}
    (record : (s.keys.contents w.tables).thread thread = some x.toJson)
    (renews : Contents.Renews (s.keys.contents w.tables) (s.keys.contents w'.tables) thread False)
    (lt : ((s.perform now op).run Faults.none w).1.isOk = true →
      op.Touches (s.keys.contents w.tables) thread →
      Renewed (s.keys.contents w.tables) (s.keys.contents w'.tables) thread)
    (lt_first : ∀ first rest, op = .updateMessages (first ++ rest) →
      updateViolations 0 (first ++ rest) = [] →
      ((s.updateMessages now first).run Faults.none w).1.isOk = true →
      (Operation.updateMessages first).Touches (s.keys.contents w.tables) thread →
      Renewed (s.keys.contents w.tables) (s.keys.contents w'.tables) thread)
    (other : ((s.perform now op).run Faults.none w).1.isOk = true → ∀ title patch,
      op ≠ .updateThread thread title patch) :
    ∃ x', (s.keys.contents w'.tables).thread thread = some x'.toJson ∧
      ThreadStep s now op thread w x x' := by
  by_cases renewed : Renewed (s.keys.contents w.tables) (s.keys.contents w'.tables) thread
  · obtain ⟨t, date, ⟨r, hr, hd⟩, later, written⟩ := renewed
    obtain rfl := Option.some.inj (hr.symm.trans record)
    obtain rfl := eq_of_ofJson_toJson hd
    exact ⟨_, written, rfl, rfl, rfl, Instant.le_of_lt later, fun _ _ => later,
      fun _ _ _ _ _ _ => later, fun ok title patch e => absurd e (other ok title patch),
      fun _ => ⟨rfl, rfl⟩⟩
  · have same := (renews.resolve_left renewed).2
    exact ⟨x, same.trans record, rfl, rfl, rfl, Instant.le_refl _,
      fun ok touches => absurd (lt ok touches) renewed,
      fun first rest e valid ok touches => absurd (lt_first first rest e valid ok touches) renewed,
      fun ok title patch e => absurd e (other ok title patch), fun _ => ⟨rfl, rfl⟩⟩

/-- A change of a thread gives it the title and merges the patch, or it fails and changes nothing. -/
theorem ends_perform_updateThread (record : c.thread thread = some x.toJson) (title : String)
    (patch : Object) : Ends s.keys faults (s.perform now (.updateThread thread title patch)) c
      (fun _ c' => c'.thread thread = some ((x.revise title patch).touch now).toJson)
      (fun _ c' => c' = c) := by
  refine Ends.map ((ends_modifyThread thread _).mono (fun _ c' h => ?_) fun _ _ h => h.1)
  obtain ⟨t, ⟨r, hr, hd⟩, _, rfl⟩ := h
  obtain rfl := Option.some.inj (hr.symm.trans record)
  obtain rfl := eq_of_ofJson_toJson hd
  exact if_pos rfl

theorem threadStep_updateThread (now : Instant)
    (record : (s.keys.contents w.tables).thread thread = some x.toJson) (title : String)
    (patch : Object) :
    ∃ x', (s.keys.contents ((s.perform now (.updateThread thread title patch)).run
        Faults.none w).2.tables).thread thread = some x'.toJson ∧
      ThreadStep s now (.updateThread thread title patch) thread w x x' := by
  have ends : Ends s.keys Faults.none (s.perform now (.updateThread thread title patch)) _ _ _ :=
    ends_perform_updateThread record title patch
  have ending := ends w rfl
  split at ending
  · next reply w' run =>
    have moved : x.updatedAt < ((x.revise title patch).touch now).updatedAt :=
      Instant.lt_advance now x.updatedAt
    rw [run]
    refine ⟨_, ending, rfl, rfl, rfl, Instant.le_of_lt moved, fun _ _ => moved,
      fun _ _ _ _ _ _ => moved, fun _ title' patch' e => ?_, fun other => ?_⟩
    · obtain ⟨_, rfl, rfl⟩ := Operation.updateThread.inj e
      exact ⟨rfl, rfl⟩
    · exact absurd rfl (other (by rw [run]; rfl) title patch)
  · next error w' run =>
    have failed : ((s.perform now (.updateThread thread title patch)).run Faults.none w).1.isOk
        ≠ true := by rw [run]; simp [Except.isOk, Except.toBool]
    rw [run]
    exact threadStep_of_renews record (ending ▸ .refl _ thread) (fun ok => absurd ok failed)
      (fun _ _ e => absurd e (by simp)) fun ok => absurd ok failed

/-- What one operation does to the record of a thread. -/
theorem threadStep_perform (now : Instant)
    (consistent : (s.keys.contents w.tables).Consistent tracking)
    (record : (s.keys.contents w.tables).thread thread = some x.toJson)
    (stays : ¬ op.Replaces thread) :
    ∃ x', (s.keys.contents ((s.perform now op).run Faults.none w).2.tables).thread thread
        = some x'.toJson ∧ ThreadStep s now op thread w x x' := by
  by_cases revision : ∃ title patch, op = .updateThread thread title patch
  · obtain ⟨title, patch, rfl⟩ := revision
    exact threadStep_updateThread now record title patch
  have other : ∀ title patch, op ≠ .updateThread thread title patch :=
    fun title patch e => revision ⟨title, patch, e⟩
  refine threadStep_of_renews record
    ((ends_perform_renews consistent.toOrderly stays other).always rfl) (fun ok touches => ?_)
    (fun first rest e valid ok touches => ?_) fun _ => other
  · obtain ⟨reply, run⟩ := exists_ok ok
    exact renewed_of_touches consistent run other touches
  · subst e
    obtain ⟨ys, run⟩ := exists_ok ok
    exact renewed_of_first consistent valid run touches

/-! ## Histories -/

/-- The world after a history without failures. -/
def after (s : Store) (history : List (Instant × Operation)) : World :=
  (s.performAll Faults.none history World.initial).2

theorem after_concat (s : Store) (history : List (Instant × Operation)) (now : Instant)
    (op : Operation) :
    s.after (history ++ [(now, op)]) = ((s.perform now op).run Faults.none (s.after history)).2 :=
  s.performAll_append Faults.none history [(now, op)] World.initial

/-- A thread that is saved as a whole has that record, and one that is deleted has none. -/
theorem ends_perform_replaced (h : Orderly R c) {op : Operation} (replaces : op.Replaces thread) :
    Ends s.keys faults (s.perform now op) c
      (fun _ c' => ∀ r, c'.thread thread = some r → ∃ t : Thread, t.id = thread ∧ r = t.toJson)
      (fun _ c' => c' = c ∨ faults.Active) := by
  cases op with
  | saveThread t =>
    obtain rfl : t.id = thread := replaces
    refine Ends.map ((ends_saveThread t).mono (fun _ c' hc r hr => ?_) fun _ _ he => Or.inl he.1)
    have written : c'.thread t.id = some t.toJson := hc.2 ▸ if_pos rfl
    exact ⟨t, rfl, Option.some.inj (hr.symm.trans written)⟩
  | deleteThread id =>
    obtain rfl : id = thread := replaces
    refine Ends.map ((ends_deleteWholeThread h id).mono (fun _ c' hc r hr => ?_) fun _ c' he => ?_)
    · obtain ⟨_, c₁, _, rfl⟩ := hc
      exact absurd hr (by simp [closed, setThread])
    · exact he.imp (fun e => e) And.left
  | _ => exact replaces.elim

/-- A thread that has no record gets one only when it is saved. -/
theorem ends_perform_absent (h : Orderly R c) {op : Operation} (stays : ¬ op.Replaces thread)
    (absent : c.thread thread = none) :
    Ends s.keys faults (s.perform now op) c (fun _ c' => c'.thread thread = none)
      (fun _ c' => c'.thread thread = none) := by
  by_cases revision : ∃ title patch, op = .updateThread thread title patch
  · obtain ⟨title, patch, rfl⟩ := revision
    exact Ends.map ((ends_updateThread thread title patch).mono (fun _ _ hc => absurd absent hc.1)
      fun _ _ e => e ▸ absent)
  · have renewing (c' : Contents) (renews : Contents.Renews c c' thread False) :
        c'.thread thread = none := by
      rcases renews with ⟨t, date, ⟨r, hr, _⟩, _⟩ | ⟨_, same⟩
      · exact absurd (hr.symm.trans absent) (by simp)
      · exact same.trans absent
    exact (ends_perform_renews h stays fun title patch e => revision ⟨title, patch, e⟩).mono
      (fun _ => renewing) fun _ => renewing

/-- Every record of a thread was written for that thread. -/
theorem exists_written (s : Store) (history : List (Instant × Operation)) {thread : String}
    {r : Json} (record : (s.keys.contents (s.after history).tables).thread thread = some r) :
    ∃ t : Thread, t.id = thread ∧ r = t.toJson := by
  induction history using List.reverseRecOn generalizing r with
  | nil =>
    rw [show s.after [] = World.initial from rfl,
      show World.initial.tables = Tables.empty from rfl, contents_empty] at record
    exact absurd record (by simp [empty])
  | append_singleton history e ih =>
    obtain ⟨now, op⟩ := e
    have consistent := s.contents_consistent history
    rw [s.after_concat] at record
    by_cases replaces : op.Replaces thread
    · have ends : Ends s.keys Faults.none (s.perform now op) _ _ _ :=
        ends_perform_replaced consistent.toOrderly replaces
      have ending := ends (s.after history) rfl
      split at ending
      · next run =>
        rw [run] at record
        exact ending r record
      · next run =>
        rw [run] at record
        exact ih ((ending.resolve_right Faults.not_active_none) ▸ record)
    · cases before : (s.keys.contents (s.after history).tables).thread thread with
      | none =>
        have ends : Ends s.keys Faults.none (s.perform now op) _ _ _ :=
          ends_perform_absent consistent.toOrderly replaces before
        exact absurd (record.symm.trans (ends.always rfl)) (by simp)
      | some r₀ =>
        obtain ⟨x, named, rfl⟩ := ih before
        obtain ⟨x', written, step⟩ := threadStep_perform now consistent before replaces
        exact ⟨x', step.id.trans named, Option.some.inj (record.symm.trans written)⟩

/-- The patch that an operation merges into the metadata of a thread if it goes well. -/
def merged (s : Store) (thread : String) (now : Instant) (op : Operation) (w : World) :
    List Object :=
  if ((s.perform now op).run Faults.none w).1.isOk then (op.patch? thread).toList else []

/-- The patches that are merged into the metadata of a thread, in the order of the calls. -/
def patches (s : Store) (thread : String) : List (Instant × Operation) → World → List Object
  | [], _ => []
  | (now, op) :: rest, w =>
    s.merged thread now op w ++ patches s thread rest ((s.perform now op).run Faults.none w).2

theorem patches_concat (s : Store) (thread : String) (now : Instant) (op : Operation) :
    ∀ (history : List (Instant × Operation)) (w : World),
      s.patches thread (history ++ [(now, op)]) w = s.patches thread history w ++
        s.merged thread now op (s.performAll Faults.none history w).2
  | [], w => by simp [patches, performAll]
  | (now', op') :: rest, w => by
    rw [List.cons_append, patches, patches, patches_concat s thread now op rest, performAll_cons,
      List.append_assoc]

/-- Merging patches one after the other overwrites key by key. -/
theorem lookup_foldl_merge (key : String) : ∀ (patches : List Object) (base : Object),
    (patches.foldl Object.merge base).lookup key
      = (patches.flatten.reverse.lookup key).or (base.lookup key)
  | [], base => by simp
  | patch :: rest, base => by
    rw [List.foldl_cons, lookup_foldl_merge key rest, Object.lookup_merge, List.flatten_cons,
      List.reverse_append, List.lookup_append, Option.or_assoc]

end Store

theorem ThreadStep.metadata_eq {s : Store} {now : Instant} {thread : String} {w : World}
    {op : Operation} {x x' : Thread} (step : ThreadStep s now op thread w x x') :
    x'.metadata = (s.merged thread now op w).foldl Object.merge x.metadata := by
  unfold Store.merged
  split
  · next ok =>
    by_cases revision : ∃ title patch, op = .updateThread thread title patch
    · obtain ⟨title, patch, rfl⟩ := revision
      rw [(step.changed ok title patch rfl).2]
      simp [Operation.patch?]
    · rw [(step.kept fun _ title patch e => revision ⟨title, patch, e⟩).2]
      cases op with
      | updateThread id title patch =>
        have apart : id ≠ thread := fun e => revision ⟨title, patch, by rw [e]⟩
        simp [Operation.patch?, apart]
      | _ => rfl
  · next failed => exact (step.kept fun ok => absurd ok failed).2

/-- What the record of a thread, that of `line 0` in the beginning, is after each operation. -/
structure ThreadLine (s : Store) (before window : List (Instant × Operation)) (thread : String)
    (line : Nat → Thread) : Prop where
  written : ∀ i ≤ window.length,
    (s.keys.contents (s.after (before ++ window.take i)).tables).thread thread
      = some (line i).toJson
  step : ∀ i now op, window[i]? = some (now, op) →
    ThreadStep s now op thread (s.after (before ++ window.take i)) (line i) (line (i + 1))

namespace ThreadLine

variable {s : Store} {before window : List (Instant × Operation)} {thread : String}
  {line : Nat → Thread}

/-- The record can be read as long as the dates have years of four digits. -/
theorem isThread (h : ThreadLine s before window thread line) {i : Nat} (hi : i ≤ window.length)
    (created : (line i).createdAt.FourDigit) (updated : (line i).updatedAt.FourDigit) :
    (s.keys.contents (s.after (before ++ window.take i)).tables).IsThread thread (line i) :=
  ⟨_, h.written i hi, Thread.ofJson_toJson_of_fourDigit created updated⟩

/-- The fields that nothing changes. -/
theorem frame (h : ThreadLine s before window thread line) : ∀ i ≤ window.length,
    (line i).id = (line 0).id ∧ (line i).resourceId = (line 0).resourceId ∧
      (line i).createdAt = (line 0).createdAt
  | 0, _ => ⟨rfl, rfl, rfl⟩
  | i + 1, hi => by
    have step := h.step i window[i].1 window[i].2 (List.getElem?_eq_getElem hi)
    obtain ⟨named, owned, created⟩ := h.frame i (Nat.le_of_succ_le hi)
    exact ⟨step.id.trans named, step.resourceId.trans owned, step.createdAt.trans created⟩

/-- The metadata are those of the beginning with the patches of all changes merged in. -/
theorem metadata_eq (h : ThreadLine s before window thread line) : ∀ i ≤ window.length,
    (line i).metadata = (s.patches thread (window.take i) (s.after before)).foldl Object.merge
      (line 0).metadata
  | 0, _ => by simp [Store.patches]
  | i + 1, hi => by
    have step := h.step i window[i].1 window[i].2 (List.getElem?_eq_getElem hi)
    have here : s.after (before ++ window.take i)
        = (s.performAll Faults.none (window.take i) (s.after before)).2 :=
      s.performAll_append Faults.none before (window.take i) World.initial
    rw [step.metadata_eq, h.metadata_eq i (Nat.le_of_succ_le hi),
      List.take_succ_eq_append_getElem hi, s.patches_concat, List.foldl_append, here]

end ThreadLine

namespace Store

open Contents

theorem exists_threadLine (s : Store) (before window : List (Instant × Operation)) (thread : String)
    {t : Thread} (record : (s.keys.contents (s.after before).tables).thread thread = some t.toJson)
    (stays : ∀ e ∈ window, ¬ e.2.Replaces thread) :
    ∃ line : Nat → Thread, line 0 = t ∧ ThreadLine s before window thread line := by
  induction window generalizing before t with
  | nil =>
    refine ⟨fun _ => t, rfl, fun i _ => ?_, by simp⟩
    rw [List.take_nil, List.append_nil]
    exact record
  | cons e rest ih =>
    obtain ⟨now, op⟩ := e
    obtain ⟨x, record', step⟩ := threadStep_perform now (w := s.after before)
      (s.contents_consistent before) record (stays (now, op) List.mem_cons_self)
    rw [← s.after_concat] at record'
    obtain ⟨line, start, tail⟩ := ih (before ++ [(now, op)]) record'
      fun e he => stays e (List.mem_cons_of_mem _ he)
    have here (i : Nat) : before ++ ((now, op) :: rest).take (i + 1)
        = (before ++ [(now, op)]) ++ rest.take i := by simp
    refine ⟨Nat.rec t fun i _ => line i, rfl, ?_, ?_⟩
    · rintro (_ | i) hi
      · rw [List.take_zero, List.append_nil]
        exact record
      · rw [here]
        exact tail.written i (Nat.le_of_succ_le_succ hi)
    · rintro (_ | i) now' op' he
      · obtain ⟨rfl, rfl⟩ := Prod.mk.inj (Option.some.inj he)
        rw [List.take_zero, List.append_nil]
        subst start
        exact step
      · rw [here]
        exact tail.step i now' op' he

/--
Take a thread that has a record after a history without failures, and go on with operations that
neither save nor delete it. Its record stays that of a thread of this id, which can be read as long
as its dates have years of four digits. Each operation does to it what `ThreadStep` says: the date
of change is never earlier, and later after an operation that goes well and changes the thread or a
message that comes to it or has been in it, however the clock goes; the other fields stay, but for
title and metadata under a change of the thread. So the metadata are those of the beginning with the
patches of all changes merged in, and each key has the value that was given to it last.
-/
theorem thread_history (s : Store) (before window : List (Instant × Operation)) (thread : String)
    (there : (s.keys.contents (s.after before).tables).HasThread thread)
    (stays : ∀ e ∈ window, ¬ e.2.Replaces thread) :
    ∃ line : Nat → Thread,
      (∀ i ≤ window.length,
        let c := s.keys.contents (s.after (before ++ window.take i)).tables
        let patches := s.patches thread (window.take i) (s.after before)
        c.thread thread = some (line i).toJson ∧
        ((line i).createdAt.FourDigit → (line i).updatedAt.FourDigit → c.IsThread thread (line i)) ∧
        ((line i).id = thread ∧ (line i).resourceId = (line 0).resourceId ∧
          (line i).createdAt = (line 0).createdAt) ∧
        (line i).metadata = patches.foldl Object.merge (line 0).metadata ∧
        ∀ key, (line i).metadata.lookup key
          = (patches.flatten.reverse.lookup key).or ((line 0).metadata.lookup key)) ∧
      ∀ i now op, window[i]? = some (now, op) →
        ThreadStep s now op thread (s.after (before ++ window.take i)) (line i) (line (i + 1)) := by
  obtain ⟨r, record⟩ := Option.ne_none_iff_exists'.mp there.2
  obtain ⟨t, named, rfl⟩ := s.exists_written before record
  obtain ⟨line, rfl, h⟩ := s.exists_threadLine before window thread record stays
  refine ⟨line, fun i hi => ?_, h.step⟩
  obtain ⟨same, frame⟩ := h.frame i hi
  have metadata := h.metadata_eq i hi
  exact ⟨h.written i hi, h.isThread hi, ⟨same.trans named, frame⟩, metadata,
    fun key => metadata ▸ lookup_foldl_merge key _ _⟩

end Store

namespace Sample

/-- The message is saved once more, at a time at which the clock stands still. Then the clock is set
back, and the thread is changed and loses its message. -/
def backwards : List (Instant × Operation) :=
  [(now, .saveMessages [message "a"]),
    (.ofNanos (-1), .updateThread "a" "title" [("colour", .str "red")]),
    (.ofNanos (-2), .migrateMessage "m" "a" "b")]

end Sample

namespace Store

open Sample

theorem renewed_with_clock_back : ∃ t t₁ t₂ t₃ : Thread,
    ((store false).keys.contents (world false "a").tables).thread "a" = some t.toJson ∧
    t.updatedAt < t₁.updatedAt ∧ t₁.updatedAt < t₂.updatedAt ∧ t₂.updatedAt < t₃.updatedAt ∧
    ((store false).keys.contents ((store false).after (history "a" ++ backwards)).tables).thread "a"
      = some t₃.toJson ∧
    t₃.title = some "title" ∧ t₃.metadata.lookup "colour" = some (.str "red") := by
  obtain ⟨line, states, steps⟩ := (store false).thread_history (history "a") backwards "a"
    ⟨by decide, Option.isSome_iff_ne_none.mp (by decide +kernel)⟩ (by simp [backwards,
      Operation.Replaces])
  have saved := steps 0 _ _ rfl
  have changed := steps 1 _ _ rfl
  have moved := steps 2 _ _ rfl
  obtain ⟨titled, merged⟩ := changed.changed (by decide +kernel) _ _ rfl
  obtain ⟨titled', merged'⟩ := moved.kept fun _ _ _ => by simp
  refine ⟨line 0, line 1, line 2, line 3, (states 0 (by decide)).1, ?_, ?_, ?_,
    (states 3 (by decide)).1, titled'.trans titled, ?_⟩
  · exact saved.lt (by decide +kernel) ⟨message "a", by simp, Or.inl rfl⟩
  · exact changed.lt (by decide +kernel) rfl
  · exact moved.lt (by decide +kernel) ⟨by decide, Or.inl rfl⟩
  · rw [merged', merged, Object.lookup_merge]
    rfl

end Store

end ChatMemory
