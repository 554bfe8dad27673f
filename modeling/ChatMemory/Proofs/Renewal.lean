import ChatMemory.Proofs.Rejected

/-!
# Threads under operations on messages

The record of a thread is renewed if its date of change is moved on and nothing else in it is changed.
An operation on messages renews the record of each thread that is concerned, at least once, and leaves
those of all others alone. A date is moved on from the one that is read, so it is strictly later,
whatever the clock says; and what stands in a record is only replaced by what was read from it.

A judgement (`Action.Renews`) follows one thread through an action: whether the thread must have been
renewed if the action goes well, and that nothing else has become of its record however it ends.

## Main statements

* `Contents.Renews.trans` — dates that are moved on one after the other.
* `renews_migrateMessage`, `renews_saveMessages`, `renews_updateMessages` — the threads that an
  operation names.
-/

namespace ChatMemory

namespace Contents

variable {c c' c'' : Contents} {thread : String} {must must' : Prop}

/-- The date of change of a thread is moved on, and the rest of its record is as it was. -/
def Renewed (c c' : Contents) (thread : String) : Prop :=
  ∃ t date, c.IsThread thread t ∧ t.updatedAt < date ∧
    c'.thread thread = some ({ t with updatedAt := date } : Thread).toJson

/-- A thread is renewed or its record is as it was, and the latter only if it need not be renewed. -/
def Renews (c c' : Contents) (thread : String) (must : Prop) : Prop :=
  Renewed c c' thread ∨ ¬ must ∧ c'.thread thread = c.thread thread

/-- A record that has been written for a thread is read as that thread, if at all. -/
theorem eq_of_ofJson_toJson {t t' : Thread} (h : Thread.ofJson t.toJson = .ok t') : t' = t := by
  rw [Thread.ofJson_toJson] at h
  split at h
  · exact (Except.ok.inj h).symm
  · exact absurd h (by simp)

theorem Renewed.trans (h : Renewed c c' thread) (h' : Renewed c' c'' thread) :
    Renewed c c'' thread := by
  obtain ⟨t, date, there, later, written⟩ := h
  obtain ⟨t', date', ⟨r, hr, hd⟩, later', written'⟩ := h'
  obtain rfl := Option.some.inj (hr.symm.trans written)
  obtain rfl := eq_of_ofJson_toJson hd
  exact ⟨t, date', there, Instant.lt_of_lt_of_le later (Instant.le_of_lt later'), written'⟩

theorem Renews.refl (c : Contents) (thread : String) : Renews c c thread False := Or.inr ⟨id, rfl⟩

theorem Renews.renewed (h : Renews c c' thread must) (hm : must) : Renewed c c' thread :=
  h.resolve_right fun same => same.1 hm

theorem Renews.mono (h : Renews c c' thread must) (le : must' → must) : Renews c c' thread must' :=
  h.imp_right fun same => ⟨fun hm => same.1 (le hm), same.2⟩

/-- A thread that must be renewed in one of two parts is renewed in the whole. -/
theorem Renews.trans (h : Renews c c' thread must) (h' : Renews c' c'' thread must') :
    Renews c c'' thread (must ∨ must') := by
  rcases h with renewed | ⟨free, same⟩ <;> rcases h' with renewed' | ⟨free', same'⟩
  · exact Or.inl (renewed.trans renewed')
  · obtain ⟨t, date, there, later, written⟩ := renewed
    exact Or.inl ⟨t, date, there, later, same'.trans written⟩
  · obtain ⟨t, date, ⟨r, hr, hd⟩, later, written⟩ := renewed'
    exact Or.inl ⟨t, date, ⟨r, same ▸ hr, hd⟩, later, written⟩
  · exact Or.inr ⟨fun hm => hm.elim free free', same'.trans same⟩

theorem Renewed.then (h : Renewed c c' thread) (h' : Renews c' c'' thread must) :
    Renewed c c'' thread :=
  ((show Renews c c' thread True from Or.inl h).trans h').renewed (Or.inl trivial)

theorem Renews.then_renewed (h : Renews c c' thread must) (h' : Renewed c' c'' thread) :
    Renewed c c'' thread :=
  (h.trans (show Renews c' c'' thread True from Or.inl h')).renewed (Or.inr trivial)

theorem Touched.renews {now : Instant} {other : String} (h : Touched now other c c') :
    Renews c c' thread (other = thread) := by
  obtain ⟨t, there, rfl⟩ := h
  by_cases e : other = thread
  · subst e
    refine Or.inl ⟨t, Instant.advance now t.updatedAt, there, Instant.lt_advance .., ?_⟩
    exact if_pos rfl
  · exact Or.inr ⟨e, if_neg fun e' => e e'.symm⟩

end Contents

namespace Action

open Contents

variable {α β : Type} {k : Keyspace} {faults : Faults} {thread : String} {must must' : Prop}

/--
The action moves on the date of change of the thread or leaves its record as it is, however it ends.
If it must renew the thread and goes well, it does so.
-/
def Renews (k : Keyspace) (faults : Faults) (p : Action α) (thread : String) (must : Prop) : Prop :=
  ∀ c, Ends k faults p c (fun _ c' => Contents.Renews c c' thread must)
    (fun _ c' => Contents.Renews c c' thread False)

/-- An action that makes no calls that could change the record of a thread. -/
abbrev Leaves (k : Keyspace) (p : Action α) (thread : String) : Prop :=
  p.Only fun r => ∀ t, (k.contents (r.effect t)).thread thread = (k.contents t).thread thread

theorem Spares.leaves {p : Action α} (h : p.Spares) : p.Leaves k thread :=
  Only.mono (fun _ hr t => hr t (k.thread thread)) h

theorem leaves_put {id : String} (apart : id ≠ thread) {value : Json} {code : String}
    {context : ErrorContext} : (ask (.put .threads (k.thread id) value) code context).Leaves k thread :=
  only_ask fun t => (t.get?_put ..).trans
    (if_neg fun e => apart (Keyspace.thread_inj.mp e.2).symm)

theorem leaves_delete {id : String} (apart : id ≠ thread) {code : String} {context : ErrorContext} :
    (ask (.delete .threads (k.thread id)) code context).Leaves k thread :=
  only_ask fun t => (t.get?_delete ..).trans
    (if_neg fun e => apart (Keyspace.thread_inj.mp e.2).symm)

theorem Leaves.renews {p : Action α} (h : p.Leaves k thread) : p.Renews k faults thread False :=
  fun _ => (Only.ends (·.thread thread) (fun _ hr => hr) h).mono
    (fun _ _ same => Or.inr ⟨id, same⟩) fun _ _ same => Or.inr ⟨id, same⟩

theorem Spares.renews {p : Action α} (h : p.Spares) : p.Renews k faults thread False :=
  h.leaves.renews

theorem Reads.leaves {p : Action α} (h : p.Reads) : p.Leaves k thread := h.spares.leaves

theorem Reads.renews {p : Action α} (h : p.Reads) : p.Renews k faults thread False := h.spares.renews

theorem Renews.mono {p : Action α} (h : p.Renews k faults thread must) (le : must' → must) :
    p.Renews k faults thread must' := fun c =>
  (h c).mono (fun _ _ renews => renews.mono le) fun _ _ renews => renews

/-- What must be renewed is renewed. -/
theorem Renews.ends {p : Action α} (h : p.Renews k faults thread must) (hm : must) (c : Contents) :
    Ends k faults p c (fun _ c' => Renewed c c' thread) fun _ _ => True :=
  (h c).mono (fun _ _ renews => renews.renewed hm) fun _ _ _ => trivial

/-- What is renewed stays so. -/
theorem Renews.keeps {p : Action α} {c c' : Contents} (h : p.Renews k faults thread must)
    (renewed : Renewed c c' thread) :
    Ends k faults p c' (fun _ c'' => Renewed c c'' thread) fun _ _ => True :=
  (h c').mono (fun _ _ => renewed.then) fun _ _ _ => trivial

theorem Renews.bind {p : Action α} {f : α → Action β} (h : p.Renews k faults thread must)
    (hf : ∀ a, (f a).Renews k faults thread must') :
    (p >>= f).Renews k faults thread (must ∨ must') := fun c =>
  (h c).andThen (fun _ _ renews => renews) fun a c' renews =>
    (hf a c').mono (fun _ _ => renews.trans) fun _ _ renews' =>
      (renews.trans renews').mono fun h => Or.inr h

/-- What only reads in front of an action does not count. -/
theorem Renews.after {p : Action α} {f : α → Action β} (h : p.Reads)
    (hf : ∀ a, (f a).Renews k faults thread must) : (p >>= f).Renews k faults thread must :=
  (Renews.bind h.renews hf).mono Or.inr

theorem Renews.map {p : Action α} (h : p.Renews k faults thread must) (f : α → β) :
    (f <$> p).Renews k faults thread must := fun c => Ends.map (h c)

theorem renews_pure {a : α} : (pure a : Action α).Renews k faults thread False := fun c =>
  ends_pure (.refl c thread)

theorem renews_fail {error : MemoryError} :
    (.fail error : Action α).Renews k faults thread must := fun c => ends_fail (.refl c thread)

theorem renews_ite {p : Prop} [Decidable p] {x y : Action α}
    (hx : p → x.Renews k faults thread must) (hy : ¬ p → y.Renews k faults thread must) :
    (if p then x else y).Renews k faults thread must := by
  split
  · next h => exact hx h
  · next h => exact hy h

theorem renews_forAll {f : α → Action Unit} {musts : α → Prop}
    (h : ∀ a, (f a).Renews k faults thread (musts a)) :
    ∀ l : List α, (forAll f l).Renews k faults thread (∃ a ∈ l, musts a)
  | [] => renews_pure.mono (by simp)
  | a :: rest => ((h a).bind fun _ => renews_forAll h rest).mono (by simp)

theorem renews_each {f : α → Action β} {musts : α → Prop}
    (h : ∀ a, (f a).Renews k faults thread (musts a)) :
    ∀ l : List α, (each f l).Renews k faults thread (∃ a ∈ l, musts a)
  | [] => renews_pure.mono (by simp)
  | a :: rest => by
    refine ((h a).bind fun _ => (renews_each h rest).bind fun _ => renews_pure).mono ?_
    simp

end Action

namespace Store

open Action

variable {s : Store} {faults : Faults} {now : Instant} {thread : String}

/-! ## Moves -/

theorem renews_touchThread (other : String) :
    (s.touchThread now other).Renews s.keys faults thread (other = thread) := fun c =>
  (ends_touchThread now other).mono (fun _ _ => Contents.Touched.renews)
    fun _ _ h => h.1 ▸ .refl c thread

/-- Both threads of a move are touched. -/
theorem renews_relocateAndTouch (x : Message) (origin destination : String) :
    (do
      s.relocate now x origin
      s.touchThread now origin
      s.touchThread now destination
      return x).Renews s.keys faults thread (origin = thread ∨ destination = thread) := by
  refine ((s.spares_relocate now x origin).renews.bind fun _ => (renews_touchThread origin).bind
    fun _ => (renews_touchThread destination).bind fun _ => renews_pure).mono ?_
  exact fun h => Or.inr (h.imp_right Or.inl)

theorem renews_migrateMessage (id origin destination : String) :
    (s.migrateMessage now id origin destination).Renews s.keys faults thread
      (origin ≠ destination ∧ (origin = thread ∨ destination = thread)) := by
  refine .after (reads_check _) fun _ => .after (s.reads_fetchMessage _ _) fun found => ?_
  cases found with
  | none => exact renews_fail
  | some x =>
    refine renews_ite (fun e => renews_pure.mono fun h => h.1 e) fun _ => ?_
    refine .after (s.reads_threadExists _) fun _ => renews_ite (fun _ => ?_) fun _ => renews_fail
    exact (renews_relocateAndTouch _ origin destination).mono And.right

/-! ## Batches -/

theorem renews_fetchHome (v : Message) :
    (s.fetchHome now v).Renews s.keys faults thread False := by
  refine .after (s.reads_findMessage _) fun found => ?_
  cases found with
  | none => exact renews_pure
  | some current =>
    refine renews_ite (fun _ => renews_pure) fun _ => ?_
    exact ((renews_migrateMessage v.id current v.threadId).bind fun _ => renews_pure).mono False.elim

theorem spares_writeOfBatch (s : Store) (e : Message × Nat) : (s.writeOfBatch e).Spares :=
  only_bind (spares_put (by decide)) fun _ => s.spares_notePointer _ _

theorem spares_add (s : Store) (thread : String) (entries : List OrderEntry) :
    (OrderIndex.add s.keys thread entries).Spares := only_ite trivial (s.spares_merge _ _)

theorem renews_saveInto (messages : List Message) (other : String) :
    (s.saveInto now messages other).Renews s.keys faults thread (other = thread) := by
  have written : (forAll s.writeOfBatch (batchOf messages other)).Spares :=
    only_forAll s.spares_writeOfBatch _
  rw [saveInto_inOrder]
  refine (written.renews.bind fun _ => (s.spares_add other _).renews.bind fun _ =>
    renews_touchThread other).mono ?_
  exact fun h => Or.inr (Or.inr h)

/-- A batch renews the threads that it names. -/
theorem renews_saveMessages (messages : List Message) :
    (s.saveMessages now messages).Renews s.keys faults thread
      (∃ v ∈ messages, v.threadId = thread) := by
  refine .after (reads_check _) fun _ => renews_ite (fun empty => ?_) fun _ => ?_
  · exact renews_pure.mono (by simp [List.isEmpty_iff.mp empty])
  refine .after (only_forAll s.reads_requireThread _) fun _ => ?_
  refine ((renews_forAll (fun v => renews_fetchHome v) messages).bind fun _ =>
    (renews_forAll (fun other => renews_saveInto messages other) _).bind fun _ => renews_pure).mono ?_
  rintro ⟨v, hv, rfl⟩
  exact Or.inr (Or.inl ⟨v.threadId, mem_batchThreads.mpr ⟨v, hv, rfl⟩, rfl⟩)

/-! ## Changes -/

theorem spares_rescore (s : Store) (x : Message) : (s.rescore x).Spares :=
  only_bind (only_ite trivial (s.spares_merge _ _)) fun _ => s.spares_add _ _

theorem renews_updateInPlace (current : String) (before after : Message) :
    (s.updateInPlace now current before after).Renews s.keys faults thread (current = thread) := by
  have written : (s.writeMessage after (after.toRecord 0)).Spares := spares_put (by decide)
  have touched : (do s.touchThread now current; return after).Renews s.keys faults thread
      (current = thread) := ((renews_touchThread current).bind fun _ => renews_pure).mono Or.inl
  refine Action.Renews.mono (?_ : Action.Renews _ _ _ _ (False ∨ current = thread)) Or.inr
  refine written.renews.bind fun _ => ?_
  exact renews_ite (fun _ => touched) fun _ =>
    ((s.spares_rescore after).renews.bind fun _ => touched).mono Or.inr

theorem renews_updateAndMove (current destination : String) (after : Message) :
    (s.updateAndMove now current destination after).Renews s.keys faults thread
      (current = thread ∨ destination = thread) :=
  .after (s.reads_requireThread destination) fun _ => renews_relocateAndTouch _ current destination

/-- A change renews the thread that it names. -/
theorem renews_updateMessage (u : MessageUpdate) :
    (s.updateMessage now u).Renews s.keys faults thread (u.threadId = some thread) := by
  refine .after (s.reads_findMessage _) fun found => ?_
  cases found with
  | none => exact renews_fail
  | some current =>
    refine .after (s.reads_fetchMessage _ _) fun found => ?_
    cases found with
    | none => exact renews_fail
    | some before =>
      dsimp only
      cases moves : u.threadId.filter (· ≠ current) with
      | some destination =>
        have named := (Option.filter_eq_some_iff.mp moves).1
        refine (renews_updateAndMove current destination _).mono fun h => Or.inr ?_
        exact Option.some.inj (named.symm.trans h)
      | none =>
        refine (renews_updateInPlace current before _).mono fun h => ?_
        have stays : thread = current := by simpa [h] using moves
        exact stays.symm

theorem renews_eachUpdate (us : List MessageUpdate) :
    (Action.each (s.updateMessage now) us).Renews s.keys faults thread
      (∃ u ∈ us, u.threadId = some thread) := renews_each renews_updateMessage us

theorem renews_updateMessages (us : List MessageUpdate) :
    (s.updateMessages now us).Renews s.keys faults thread (∃ u ∈ us, u.threadId = some thread) :=
  .after (reads_check _) fun _ => renews_eachUpdate us

/-! ## Other threads -/

theorem leaves_saveThread {t : Thread} (apart : t.id ≠ thread) :
    (s.saveThread t).Leaves s.keys thread :=
  only_bind (reads_check _).leaves fun _ =>
    only_bind (only_exclusively (leaves_put apart)) fun _ => trivial

theorem leaves_updateThread {id : String} (apart : id ≠ thread) (title : String) (patch : Object) :
    (s.updateThread now id title patch).Leaves s.keys thread := by
  refine only_exclusively (only_bind (s.reads_fetchThread id).leaves fun found => ?_)
  cases found with
  | none => trivial
  | some t => exact only_bind (leaves_put apart) fun _ => trivial

theorem leaves_deleteThread {id : String} (apart : id ≠ thread) :
    (s.deleteThread id).Leaves s.keys thread := by
  have message (m : String) : (s.purgeMessage id m).Leaves s.keys thread :=
    only_bind (spares_delete (by decide)).leaves fun _ => (s.spares_forgetPointer m id).leaves
  have order : (OrderIndex.clear s.keys id).Leaves s.keys thread :=
    only_exclusively (spares_delete (by decide)).leaves
  refine only_bind (reads_check _).leaves fun _ => only_bind (s.reads_threadExists id).leaves
    fun _ => only_ite (only_bind (s.reads_messageIds id).leaves fun ids => ?_) trivial
  rw [purge_inOrder]
  exact only_bind (only_forAll message ids) fun _ => only_bind order fun _ => leaves_delete apart

end Store

end ChatMemory
