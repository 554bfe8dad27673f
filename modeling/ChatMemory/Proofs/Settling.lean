import ChatMemory.Proofs.Outcomes

/-!
# Settling a damaged thread

What reconciling does to a thread when nothing is known about the tables but that the records of the
thread carry the ids under which they stand: they may name other threads, stand in several threads or
not decode at all, and the order may list anything.

Each record meets its fate by itself (`Fate`), and all that reconciling changes besides are the order
of the thread and pointers (`Keyspace.Confined`). The order then lists the records that were kept, and
those that do not decode if it listed them before (`Settlement`).

## Main statements

* `yields_keepCopy_false` — a copy only goes if another thread has the message, and either lists it or
  says that it came from here.
* `yields_settleCopies` — the fates of all records.
* `settlement_of_yields` — what reconciling a thread with a record does.
* `Settlement.score_present`, `Settlement.score_unreadable`, `Settlement.score_gone` — what the order
  lists then, and with which score.
-/

namespace ChatMemory

/-! ## Records and keys -/

/-- A stored value that is read as a message. -/
def Message.ReadFrom (x : Message) (stored : Option Json) : Prop :=
  ∃ r, stored = some r ∧ Message.ofRecord r = .ok x

namespace Message

variable {x y : Message} {stored : Option Json}

theorem ReadFrom.unique (h : x.ReadFrom stored) (h' : y.ReadFrom stored) : x = y := by
  obtain ⟨r, rfl, hx⟩ := h
  obtain ⟨_, e, hy⟩ := h'
  obtain rfl := Option.some.inj e
  exact Except.ok.inj (hx.symm.trans hy)

theorem ReadFrom.ne_none (h : x.ReadFrom stored) : stored ≠ none := by
  obtain ⟨r, rfl, _⟩ := h
  exact Option.some_ne_none r

/-- A list that is read as a message begins with a text. -/
theorem head_of_ofRecord {items : List Json} (h : ofRecord (.arr items) = .ok x) :
    ∃ id rest, items = .str id :: rest := by
  have plain : ofRecord (.arr items) = ((PlainMessage.ofJson (.arr items)).map .plain).map
      StoredMessage.message := rfl
  rw [plain, PlainMessage.ofJson, Record.decode] at h
  -- A list gives the fields in their order, and the first one is the id, which has to be a text.
  cases items with
  | nil => exact absurd h (by simp [PlainMessage.record, Record.constructor, Record.and,
      Record.required, Record.optional, Field.fileList, Except.map, bind, Except.bind])
  | cons v rest =>
    cases v with
    | str id => exact ⟨id, rest, rfl⟩
    | _ => exact absurd h (by simp [PlainMessage.record, Record.constructor, Record.and,
        Record.required, Record.optional, Field.fileList, Except.map, bind, Except.bind,
        Decoder.text])

/-- An order is no message. -/
theorem not_readFrom_of_readable (h : StoredOrder.Readable stored) : ¬ x.ReadFrom stored := by
  rintro ⟨r, rfl, hx⟩
  obtain ⟨entries, he⟩ := h
  cases r with
  | arr items =>
    obtain ⟨id, rest, rfl⟩ := head_of_ofRecord hx
    exact absurd he (by simp [OrderEntry.ofStored, Decoder.list, Decoder.items, OrderEntry.ofJson,
      Record.decode, bind, Except.bind])
  | obj fields => exact absurd he (by simp [OrderEntry.ofStored, Decoder.list])
  | _ => exact absurd hx (by simp [ofRecord, StoredMessage.ofJson, StoredMessage.isCurrent,
      Json.field?, PlainMessage.ofJson, Record.decode, Except.map])

theorem ReadFrom.of_toRecord {position : Nat} (h : x.ReadFrom (some (y.toRecord position))) :
    x = y := by
  obtain ⟨_, e, hx⟩ := h
  obtain rfl := Option.some.inj e
  exact eq_of_ofRecord_toRecord hx

end Message

/-- The message, made to name a thread. -/
def Message.under (x : Message) (thread : String) : Message := { x with threadId := thread }

/-- Every message record of a thread that decodes carries the id that its key names. -/
def Keyspace.Named (k : Keyspace) (t : Tables) (thread : String) : Prop :=
  ∀ id, IsMessage id → ∀ x : Message, x.ReadFrom (k.stored t thread id) → x.id = id

namespace Keyspace

variable {k : Keyspace} {thread other id : String} {t t' t'' : Tables}

theorem message_inj {a b : String} (h : k.message thread a = k.message thread b) : a = b := by
  have h' := congrArg String.toList h
  rw [toList_message, toList_message, List.append_cancel_left_eq, List.cons.injEq,
    List.append_cancel_left_eq, List.cons.injEq] at h'
  exact String.toList_inj.mp h'.2.2

/--
All that differs between two tables are pointers, the order of a thread, and records of the thread
that decoded.
-/
def Confined (k : Keyspace) (thread : String) (t t' : Tables) : Prop :=
  ∀ table key, t'.get? table key ≠ t.get? table key → table = .messageThreads ∨
    table = .messages ∧ (key = k.order thread ∨
      ∃ id, ∃ x : Message, IsMessage id ∧ key = k.message thread id ∧
        x.ReadFrom (k.stored t thread id))

theorem Confined.refl (k : Keyspace) (thread : String) (t : Tables) : k.Confined thread t t :=
  fun _ _ h => absurd rfl h

/-- A record that decodes in the second tables decoded in the first. -/
theorem Confined.readFrom (h : k.Confined thread t t') (hi : IsMessage id) {x : Message}
    (hx : x.ReadFrom (k.stored t' thread id)) : ∃ y, Message.ReadFrom y (k.stored t thread id) := by
  by_cases same : k.stored t' thread id = k.stored t thread id
  · exact ⟨x, same ▸ hx⟩
  rcases h .messages _ same with e | ⟨_, e | ⟨id', y, _, e, hy⟩⟩
  · exact absurd e (by decide)
  · exact absurd (message_inj (k.order_eq_message thread ▸ e)) hi.2
  · exact ⟨y, message_inj e ▸ hy⟩

theorem Confined.trans (h : k.Confined thread t t') (h' : k.Confined thread t' t'') :
    k.Confined thread t t'' := by
  intro table key hne
  by_cases same : t'.get? table key = t.get? table key
  · rcases h' table key (same ▸ hne) with e | ⟨e, e' | ⟨id, x, hi, e', hx⟩⟩
    · exact Or.inl e
    · exact Or.inr ⟨e, Or.inl e'⟩
    · obtain ⟨y, hy⟩ := h.readFrom hi hx
      exact Or.inr ⟨e, Or.inr ⟨id, y, hi, e', hy⟩⟩
  · exact h table key same

theorem confined_order {v : Option Json} (h : t.ChangedAt t' .messages (k.order thread) v) :
    k.Confined thread t t' := by
  intro table key hne
  by_cases e : table = .messages ∧ key = k.order thread
  · exact Or.inr ⟨e.1, Or.inl e.2⟩
  · exact absurd ((h table key).trans (if_neg e)) hne

theorem confined_record {v : Option Json} {x : Message} (hi : IsMessage id)
    (h : t.ChangedAt t' .messages (k.message thread id) v)
    (hx : x.ReadFrom (k.stored t thread id)) : k.Confined thread t t' := by
  intro table key hne
  by_cases e : table = .messages ∧ key = k.message thread id
  · exact Or.inr ⟨e.1, Or.inr ⟨id, x, hi, e.2, hx⟩⟩
  · exact absurd ((h table key).trans (if_neg e)) hne

theorem confined_pointers (h : ∀ table key, table ≠ .messageThreads →
    t'.get? table key = t.get? table key) : k.Confined thread t t' := by
  intro table key hne
  by_cases e : table = .messageThreads
  · exact Or.inl e
  · exact absurd (h table key e) hne

/-- One record of a thread changed, and pointers. -/
theorem confined_changed {v : Option Json} {x : Message} (hi : IsMessage id)
    (hx : x.ReadFrom (k.stored t thread id))
    (changed : t.ChangedAt t' .messages (k.message thread id) v) (main : t''.main = t'.main) :
    k.Confined thread t t'' ∧
      (∀ other, other ≠ id → k.stored t'' thread other = k.stored t thread other) ∧
      k.stored t'' thread id = v := by
  have same : ∀ other, k.stored t'' thread other = k.stored t' thread other := fun other =>
    Tables.get?_eq_of_main main (by decide) _
  refine ⟨?_, fun other hne => (same other).trans ?_, (same id).trans ?_⟩
  · exact (confined_record hi changed hx).trans
      (confined_pointers fun _ key hne => Tables.get?_eq_of_main main hne key)
  · exact (changed ..).trans (if_neg fun e => hne (message_inj e.2))
  · exact (changed ..).trans (if_pos ⟨rfl, rfl⟩)

theorem Confined.threads (h : k.Confined thread t t') : t'.threads = t.threads := by
  refine Rows.ext fun key => Classical.byContradiction fun hne => ?_
  rcases h .threads key hne with e | ⟨e, _⟩ <;> exact absurd e (by decide)

theorem Confined.resources (h : k.Confined thread t t') : t'.resources = t.resources := by
  refine Rows.ext fun key => Classical.byContradiction fun hne => ?_
  rcases h .resources key hne with e | ⟨e, _⟩ <;> exact absurd e (by decide)

end Keyspace

namespace Store

open Action

variable {s : Store} {thread id : String} {t t' : Tables} {order : OrderSnapshot}

/-! ## The decision about a copy -/

theorem yields_loadCopy {found : Option StoredCopy} (h : (s.loadCopy thread id).Yields t found t') :
    t' = t ∧ (found = none → ∀ x, ¬ Message.ReadFrom x (s.keys.stored t thread id)) ∧
      ∀ copy, found = some copy → copy.message.ReadFrom (s.keys.stored t thread id) ∧
        copy.origin = (s.keys.stored t thread id).bind Message.origin? := by
  refine ⟨(s.reads_loadCopy thread id).yields h, ?_⟩
  obtain ⟨stored, _, h₁, h₂⟩ := yields_bind.mp h
  have e : s.keys.stored t thread id = stored := (yields_ask.mp h₁).1.symm
  rw [e]
  cases stored with
  | none =>
    obtain ⟨rfl, _⟩ := yields_pure.mp h₂
    exact ⟨fun _ x hx => hx.ne_none rfl, by simp⟩
  | some r =>
    dsimp only at h₂
    split at h₂
    · next m hm =>
      obtain ⟨rfl, _⟩ := yields_pure.mp h₂
      refine ⟨by simp, fun copy hc => ?_⟩
      obtain rfl := Option.some.inj hc
      exact ⟨⟨r, rfl, hm⟩, rfl⟩
    · next hm =>
      obtain ⟨rfl, _⟩ := yields_pure.mp h₂
      refine ⟨fun _ x hx => ?_, by simp⟩
      obtain ⟨_, e, hx⟩ := hx
      obtain rfl := Option.some.inj e
      exact absurd (hm.symm.trans hx) (by simp)

theorem reads_otherHolders (s : Store) (id thread : String) : (s.otherHolders id thread).Reads :=
  only_bind s.reads_threadIds fun _ => s.reads_holdersAmong _ _

theorem yields_otherHolders {holders : List String} (hi : IsMessage id)
    (h : (s.otherHolders id thread).Yields t holders t') : ∀ other, other ∈ holders ↔
      other ≠ thread ∧ (s.keys.contents t).HasThread other ∧ s.keys.stored t other id ≠ none := by
  intro other
  rw [((ends_otherHolders hi).yields h).2 other, Contents.Holds, Keyspace.record_contents hi]
  exact and_left_comm

theorem yields_indexedAmong : ∀ {threads : List String} {t t' : Tables},
    (s.indexedAmong id threads).Yields t true t' →
      ∃ other ∈ threads, StoredOrder.Lists (s.keys.stored t other Keyspace.orderField) id
  | [], _, _, h => absurd (yields_pure.mp h).1 (by simp)
  | other :: rest, t, t', h => by
    obtain ⟨order, _, h₁, h₂⟩ := yields_bind.mp h
    obtain ⟨rfl, entries, he, rfl⟩ := OrderIndex.yields_snapshot.mp h₁
    split at h₂
    · next hc => exact ⟨other, List.mem_cons_self, (StoredOrder.lists_iff_contains he).mpr hc⟩
    · obtain ⟨another, ho, hl⟩ := yields_indexedAmong h₂
      exact ⟨another, List.mem_cons_of_mem _ ho, hl⟩

/-- A copy decodes and says that its message came from a thread. -/
def CameFrom (stored : Option Json) (origin : String) : Prop :=
  (∃ x, Message.ReadFrom x stored) ∧ stored.bind Message.origin? = some origin

theorem yields_movedFrom : ∀ {threads : List String} {t t' : Tables},
    (s.movedFrom thread id threads).Yields t true t' →
      ∃ other ∈ threads, CameFrom (s.keys.stored t other id) thread
  | [], _, _, h => absurd (yields_pure.mp h).1 (by simp)
  | other :: rest, t, t', h => by
    obtain ⟨found, _, h₁, h₂⟩ := yields_bind.mp h
    obtain ⟨rfl, _, hsome⟩ := yields_loadCopy h₁
    split at h₂
    · next hc =>
      obtain ⟨copy, rfl, ho⟩ := Option.bind_eq_some_iff.mp hc
      obtain ⟨hx, e⟩ := hsome copy rfl
      exact ⟨other, List.mem_cons_self, ⟨_, hx⟩, e.symm.trans ho⟩
    · obtain ⟨another, ho, hl⟩ := yields_movedFrom h₂
      exact ⟨another, List.mem_cons_of_mem _ ho, hl⟩

/-- Another thread has the message, and either lists it or says that it came from this thread. -/
def Superseded (k : Keyspace) (t : Tables) (thread id : String) : Prop :=
  ∃ other, other ≠ thread ∧ (k.contents t).HasThread other ∧ k.stored t other id ≠ none ∧
    (StoredOrder.Lists (k.stored t other Keyspace.orderField) id ∨
      CameFrom (k.stored t other id) thread)

/-- A copy only goes if it is superseded. -/
theorem yields_keepCopy_false {copy : StoredCopy} (hi : IsMessage copy.message.id)
    (h : (s.keepCopy thread copy order).Yields t false t') :
    Superseded s.keys t thread copy.message.id := by
  obtain ⟨holders, t₁, h₁, h₂⟩ := yields_bind.mp h
  have mem := yields_otherHolders hi h₁
  obtain rfl := (s.reads_otherHolders _ _).yields h₁
  split at h₂
  · exact absurd (yields_pure.mp h₂).1 (by simp)
  obtain ⟨indexed, t₂, h₃, h₄⟩ := yields_bind.mp h₂
  obtain rfl := (s.reads_indexedAmong _ holders).yields h₃
  split at h₄
  · next hl =>
    obtain ⟨other, ho, hlists⟩ := yields_indexedAmong (hl ▸ h₃)
    obtain ⟨hne, hthread, hstored⟩ := (mem other).mp ho
    exact ⟨other, hne, hthread, hstored, Or.inl hlists⟩
  split at h₄
  · exact absurd (yields_pure.mp h₄).1 (by simp)
  split at h₄
  · exact absurd (yields_pure.mp h₄).1 (by simp)
  -- No other thread lists the message, so the answer rests on where the copies say they are from.
  obtain ⟨gone, t₃, h₅, h₆⟩ := yields_bind.mp h₄
  obtain ⟨hg, _⟩ := yields_pure.mp h₆
  obtain rfl : gone = true := by simpa using hg.symm
  obtain ⟨other, ho, hmoved⟩ := yields_movedFrom h₅
  obtain ⟨hne, hthread, hstored⟩ := (mem other).mp ho
  exact ⟨other, hne, hthread, hstored, Or.inr hmoved⟩

/-! ## The fate of a record -/

/-- What becomes of the record under an id; `why` is the reason if it goes. -/
inductive Fate (thread id : String) (why : Prop) (before : Option Json) (fate : CopyFate)
    (after : Option Json) : Prop where
  | unreadable (damaged : ∀ x : Message, ¬ x.ReadFrom before) (f : fate = .unreadable id)
    (e : after = before)
  | kept {x : Message} (h : x.ReadFrom before) (here : x.threadId = thread) (f : fate = .kept x)
    (e : after = before)
  | adopted {x : Message} (h : x.ReadFrom before) (away : x.threadId ≠ thread)
    (f : fate = .adopted (x.under thread)) (e : after = some ((x.under thread).toRecord 0))
  | removed {x : Message} (h : x.ReadFrom before) (reason : why) (f : fate = .removed id)
    (e : after = none)

namespace Fate

variable {why why' : Prop} {before after : Option Json} {fate : CopyFate} {x : Message}

theorem mono (h : Fate thread id why before fate after) (weaker : why → why') :
    Fate thread id why' before fate after := by
  cases h with
  | unreadable damaged f e => exact .unreadable damaged f e
  | kept h here f e => exact .kept h here f e
  | adopted h away f e => exact .adopted h away f e
  | removed h reason f e => exact .removed h (weaker reason) f e

/-- A record keeps its id. -/
theorem named (h : Fate thread id why before fate after)
    (named : ∀ x : Message, x.ReadFrom before → x.id = id) (hx : x.ReadFrom after) : x.id = id := by
  cases h with
  | unreadable _ _ e => exact named x (e ▸ hx)
  | kept _ _ _ e => exact named x (e ▸ hx)
  | @adopted y hy _ _ e =>
    subst e
    rw [hx.of_toRecord]
    exact named y hy
  | removed _ _ _ e => exact absurd e hx.ne_none

end Fate

theorem yields_rewriteCopy {x : Message} {u : Unit} (h : (s.rewriteCopy x).Yields t u t') :
    t.ChangedAt t' .messages (s.keys.message x.threadId x.id) (some (x.toRecord 0)) := by
  obtain ⟨_, rfl⟩ := yields_ask.mp h
  exact t.changedAt_put _ _ _

/-- A record deleted and the pointer of its message forgotten. -/
theorem yields_deleteAndForget {code : String} {context : ErrorContext} {u : Unit}
    (h : (do
      let _ ← ask (.delete .messages (s.keys.message thread id)) code context
      s.forgetPointer id thread).Yields t u t') :
    ∃ t₁, t.ChangedAt t₁ .messages (s.keys.message thread id) none ∧ t'.main = t₁.main := by
  obtain ⟨_, t₁, h₁, h₂⟩ := yields_bind.mp h
  obtain ⟨_, rfl⟩ := yields_ask.mp h₁
  exact ⟨_, t.changedAt_delete _ _, (s.notes_forgetPointer id thread).yields h₂⟩

theorem yields_settleCopy {fate : CopyFate} (hi : IsMessage id) (named : s.keys.Named t thread)
    (h : (s.settleCopy thread order id).Yields t fate t') :
    s.keys.Confined thread t t' ∧
      (∀ other, other ≠ id → s.keys.stored t' thread other = s.keys.stored t thread other) ∧
      Fate thread id (Superseded s.keys t thread id) (s.keys.stored t thread id) fate
        (s.keys.stored t' thread id) := by
  obtain ⟨found, t₁, h₁, h₂⟩ := yields_bind.mp h
  obtain ⟨e, hnone, hsome⟩ := yields_loadCopy h₁
  subst e
  cases found with
  | none =>
    obtain ⟨rfl, rfl⟩ := yields_pure.mp h₂
    exact ⟨.refl _ _ _, fun _ _ => rfl, .unreadable (hnone rfl) rfl rfl⟩
  | some copy =>
    have hx := (hsome copy rfl).1
    obtain rfl := named id hi copy.message hx
    dsimp only at h₂
    split at h₂
    · next hc =>
      obtain ⟨rfl, rfl⟩ := yields_pure.mp h₂
      refine ⟨.refl _ _ _, fun _ _ => rfl, .kept hx ?_ rfl rfl⟩
      exact of_decide_eq_true (Bool.and_eq_true_iff.mp hc).2
    obtain ⟨stays, t₂, h₃, h₄⟩ := yields_bind.mp h₂
    have e := (s.reads_keepCopy thread copy order).yields h₃
    subst e
    split at h₄
    · split at h₄
      · next here =>
        obtain ⟨rfl, rfl⟩ := yields_pure.mp h₄
        exact ⟨.refl _ _ _, fun _ _ => rfl, .kept hx here rfl rfl⟩
      · next away =>
        obtain ⟨_, t₃, h₅, h₆⟩ := yields_bind.mp h₄
        obtain ⟨rfl, rfl⟩ := yields_pure.mp h₆
        have changed : t₂.ChangedAt t' .messages (s.keys.message thread copy.message.id)
            (some ((copy.message.under thread).toRecord 0)) :=
          yields_rewriteCopy (x := copy.message.under thread) h₅
        obtain ⟨confined, same, written⟩ := Keyspace.confined_changed hi hx changed rfl
        exact ⟨confined, same, .adopted hx away rfl written⟩
    · next gone =>
      obtain ⟨_, t₃, h₅, h₆⟩ := yields_bind.mp h₄
      obtain ⟨rfl, rfl⟩ := yields_pure.mp h₆
      obtain ⟨t₄, changed, main⟩ := yields_deleteAndForget h₅
      obtain ⟨confined, same, deleted⟩ := Keyspace.confined_changed hi hx changed main
      obtain rfl : stays = false := by simpa using gone
      exact ⟨confined, same, .removed hx (yields_keepCopy_false hi h₃) rfl deleted⟩

/-- The reason for which a copy goes, found at some point of the reconciliation of its thread. -/
def SupersededLater (k : Keyspace) (t : Tables) (thread id : String) : Prop :=
  ∃ t₁, k.Confined thread t t₁ ∧ Superseded k t₁ thread id

/-- The fates of the records under some ids, each by itself. -/
theorem yields_settleCopies : ∀ {ids : List String} {t t' : Tables} {fates : List CopyFate},
    ids.Nodup → (∀ id ∈ ids, IsMessage id) → s.keys.Named t thread →
    (Action.each (s.settleCopy thread order) ids).Yields t fates t' →
    s.keys.Confined thread t t' ∧
      (∀ id, id ∉ ids → s.keys.stored t' thread id = s.keys.stored t thread id) ∧
      ∃ fate : String → CopyFate, fates = ids.map fate ∧ ∀ id ∈ ids,
        Fate thread id (SupersededLater s.keys t thread id) (s.keys.stored t thread id) (fate id)
          (s.keys.stored t' thread id)
  | [], t, t', fates, _, _, _, h => by
    obtain ⟨rfl, rfl⟩ := yields_pure.mp h
    exact ⟨.refl _ _ _, fun _ _ => rfl, fun id => .unreadable id, rfl, by simp⟩
  | a :: rest, t, t', fates, nodup, messages, named, h => by
    obtain ⟨fate, t₁, h₁, h₂⟩ := yields_bind.mp h
    obtain ⟨fates', t₂, h₂, h₃⟩ := yields_bind.mp h₂
    obtain ⟨rfl, rfl⟩ := yields_pure.mp h₃
    obtain ⟨fresh, nodup⟩ := List.nodup_cons.mp nodup
    obtain ⟨confined, same, hfate⟩ := yields_settleCopy (messages a List.mem_cons_self) named h₁
    -- What the first record became is not touched again, as no later one has its id. The reason for
    -- which a later one goes is found in tables that the first one may have changed.
    have named₁ : s.keys.Named t₁ thread := by
      intro id hi x hx
      by_cases e : id = a
      · subst e
        exact hfate.named (named id hi) hx
      · exact named id hi x (same id e ▸ hx)
    obtain ⟨confined', same', fateOf, rfl, hfates⟩ := yields_settleCopies nodup
      (fun id hid => messages id (List.mem_cons_of_mem _ hid)) named₁ h₂
    refine ⟨confined.trans confined', fun id hid => ?_, fun id => if id = a then fate else fateOf id,
      ?_, fun id hid => ?_⟩
    · refine (same' id fun h => hid (List.mem_cons_of_mem _ h)).trans (same id ?_)
      rintro rfl
      exact hid List.mem_cons_self
    · rw [List.map_cons, if_pos rfl]
      refine congrArg (fate :: ·) (List.map_congr_left fun id hid => (if_neg ?_).symm)
      rintro rfl
      exact fresh hid
    · dsimp only
      split
      · next e =>
        subst e
        rw [same' id fresh]
        exact hfate.mono fun why => ⟨t, .refl _ _ _, why⟩
      · next hne =>
        rw [← same id hne]
        refine (hfates id ((List.mem_cons.mp hid).resolve_left hne)).mono ?_
        rintro ⟨t₂, confined₂, why⟩
        exact ⟨t₂, confined.trans confined₂, why⟩

/-! ## The whole thread -/

/-- The messages that stay, after the fates of all records. -/
def presentOf (fates : List CopyFate) : List Message := fates.filterMap CopyFate.present?

/-- The ids that the order loses. -/
def staleOf (order : OrderSnapshot) (fates : List CopyFate) : List String :=
  order.ids.filter fun id =>
    !((presentOf fates).any (·.id = id)) && !(fates.filterMap CopyFate.unreadable?).contains id

/-- The messages that the order gains. -/
def unlistedOf (order : OrderSnapshot) (fates : List CopyFate) : List Message :=
  (presentOf fates).filter fun x => !order.contains x.id

/-- The report on the fates of all records. -/
def reportOf (thread : String) (order : OrderSnapshot) (fates : List CopyFate) : ReconcileReport where
  threadId := thread
  unindexed := (unlistedOf order fates).map (·.id)
  dropped := staleOf order fates
  removed := fates.filterMap CopyFate.removed?
  adopted := fates.filterMap CopyFate.adopted?

/-- The records of a thread are those of some ids, and each meets its fate. -/
structure Fates (s : Store) (thread : String) (t t' : Tables) (ids : List String)
    (fate : String → CopyFate) (order : OrderSnapshot) : Prop where
  named : s.keys.Named t thread
  mem : ∀ id, id ∈ ids ↔ IsMessage id ∧ s.keys.stored t thread id ≠ none
  read : ∃ entries, OrderEntry.ofStored (s.keys.stored t thread Keyspace.orderField) = .ok entries ∧
    order = .ofEntries entries
  fates : ∀ id ∈ ids, Fate thread id (SupersededLater s.keys t thread id)
    (s.keys.stored t thread id) (fate id) (s.keys.stored t' thread id)

/-- What reconciling a thread that has a record does besides. -/
structure Settlement (s : Store) (thread : String) (t t' : Tables) (ids : List String)
    (fate : String → CopyFate) (order : OrderSnapshot) : Prop
    extends Fates s thread t t' ids fate order where
  confined : s.keys.Confined thread t t'
  absent : ∀ id, IsMessage id → id ∉ ids → s.keys.stored t' thread id = none
  index : s.keys.stored t' thread Keyspace.orderField = StoredOrder.added
    (StoredOrder.removed (s.keys.stored t thread Keyspace.orderField) (staleOf order (ids.map fate)))
    ((unlistedOf order (ids.map fate)).map fun x => ⟨x.id, scoreFor x.createdAt 0⟩)
  noted : s.config.trackMessageThreads = true → ∀ x ∈ presentOf (ids.map fate),
    t'.get? .messageThreads (s.keys.pointer x.id) = some (.str thread)

theorem yields_notePointer {u : Unit} (h : (s.notePointer id thread).Yields t u t') :
    t' = if s.config.trackMessageThreads then
      t.put .messageThreads (s.keys.pointer id) (.str thread) else t := by
  rcases yields_ite.mp h with ⟨on, h⟩ | ⟨off, h⟩
  · rw [if_pos on]
    exact (yields_ask.mp h).2
  · rw [if_neg off]
    exact (yields_pure.mp h).2

/-- Noting some messages changes pointers only, and all of them are noted then. -/
theorem yields_noteAll {present : List Message} {u : Unit}
    (h : (Action.forAll (fun x : Message => s.notePointer x.id thread) present).Yields t u t') :
    t'.main = t.main ∧ (s.config.trackMessageThreads = true → ∀ x ∈ present,
      t'.get? .messageThreads (s.keys.pointer x.id) = some (.str thread)) := by
  have notes : (Action.forAll (fun x : Message => s.notePointer x.id thread) present).Notes :=
    only_forAll (fun x : Message => s.notes_notePointer x.id thread) present
  refine ⟨notes.yields h, fun on x hx => ?_⟩
  refine (Yields.forAll (I := fun rest t => x ∈ rest ∨
    t.get? .messageThreads (s.keys.pointer x.id) = some (.str thread)) ?_ (Or.inl hx) h).resolve_left
    List.not_mem_nil
  intro y rest t₁ t₂ hy hn
  rw [yields_notePointer hn, if_pos on, Tables.get?_put]
  split
  · exact Or.inr rfl
  · next hne =>
    refine hy.imp (fun hy => (List.mem_cons.mp hy).resolve_left ?_) id
    rintro rfl
    exact hne ⟨rfl, rfl⟩

/-- What reconciling a thread with a record does, and what it reports. -/
theorem settlement_of_yields {ids : List String} {report : ReconcileReport}
    (named : s.keys.Named t thread) (nodup : ids.Nodup)
    (mem : ∀ id, id ∈ ids ↔ IsMessage id ∧ s.keys.stored t thread id ≠ none)
    (h : (s.reconcileExisting thread ids).Yields t report t') :
    ∃ fate order, Settlement s thread t t' ids fate order ∧
      report = reportOf thread order (ids.map fate) := by
  obtain ⟨order, _, h₀, after₀⟩ := yields_bind.mp h
  obtain ⟨rfl, read⟩ := OrderIndex.yields_snapshot.mp h₀
  obtain ⟨fates, t₁, h₁, after₁⟩ := yields_bind.mp after₀
  obtain ⟨confined₁, same, fate, rfl, hfate⟩ :=
    yields_settleCopies nodup (fun id hid => ((mem id).mp hid).1) named h₁
  obtain ⟨_, t₂, h₂, after₂⟩ := yields_bind.mp after₁
  have removed := OrderIndex.yields_remove h₂
  obtain ⟨_, t₃, h₃, after₃⟩ := yields_bind.mp after₂
  have added := OrderIndex.yields_add h₃
  obtain ⟨_, t₄, h₄, after₄⟩ := yields_bind.mp after₃
  obtain ⟨main, noted⟩ := yields_noteAll h₄
  obtain ⟨rfl, rfl⟩ := yields_pure.mp after₄
  -- The messages that stay do not change any more, and the order no more by the pointers.
  have record : ∀ id, IsMessage id → s.keys.stored t' thread id = s.keys.stored t₁ thread id := by
    intro id hi
    have hne : s.keys.message thread id ≠ s.keys.order thread := fun e =>
      hi.2 (Keyspace.message_inj (e.trans (s.keys.order_eq_message thread)))
    calc s.keys.stored t' thread id = s.keys.stored t₃ thread id :=
          Tables.get?_eq_of_main main (by decide) _
      _ = s.keys.stored t₂ thread id := (added ..).trans (if_neg fun e => hne e.2)
      _ = s.keys.stored t₁ thread id := (removed ..).trans (if_neg fun e => hne e.2)
  have index : s.keys.stored t' thread Keyspace.orderField = _ :=
    (Tables.get?_eq_of_main main (by decide) _).trans ((added ..).trans (if_pos ⟨rfl, rfl⟩))
  rw [show s.keys.stored t₂ thread Keyspace.orderField = _ from
    (removed ..).trans (if_pos ⟨rfl, rfl⟩), same _ fun h => ((mem _).mp h).1.2 rfl] at index
  refine ⟨fate, order, ⟨⟨named, mem, read, fun id hid => ?_⟩, ?_, fun id hi hid => ?_, index,
    noted⟩, rfl⟩
  · rw [record id ((mem id).mp hid).1]
    exact hfate id hid
  · exact confined₁.trans ((Keyspace.confined_order removed).trans
      ((Keyspace.confined_order added).trans (Keyspace.confined_pointers
        fun _ key hne => Tables.get?_eq_of_main main hne key)))
  · rw [record id hi, same id hid]
    exact Classical.byContradiction fun h => hid ((mem id).mpr ⟨hi, h⟩)

/-! ## What a settlement comes to -/

section Outcome

variable {ids : List String} {fate : String → CopyFate} {x : Message}

namespace Fates

theorem id_of_present (h : Fates s thread t t' ids fate order) (hid : id ∈ ids)
    (hx : (fate id).present? = some x) : x.id = id := by
  have hi := ((h.mem id).mp hid).1
  cases h.fates id hid with
  | unreadable _ f _ => exact absurd (f ▸ hx) (by simp [CopyFate.present?])
  | removed _ _ f _ => exact absurd (f ▸ hx) (by simp [CopyFate.present?])
  | kept hy _ f _ =>
    obtain rfl := Option.some.inj (f ▸ hx : (CopyFate.kept _).present? = some x)
    exact h.named id hi _ hy
  | @adopted y hy _ f _ =>
    obtain rfl := Option.some.inj (f ▸ hx : (CopyFate.adopted _).present? = some x)
    exact h.named id hi y hy

theorem mem_present (h : Fates s thread t t' ids fate order) :
    x ∈ presentOf (ids.map fate) ↔ x.id ∈ ids ∧ (fate x.id).present? = some x := by
  rw [presentOf, List.filterMap_map, List.mem_filterMap]
  constructor
  · rintro ⟨id, hid, hx⟩
    obtain rfl := h.id_of_present hid hx
    exact ⟨hid, hx⟩
  · rintro ⟨hid, hx⟩
    exact ⟨x.id, hid, hx⟩

theorem mem_unreadable (h : Fates s thread t t' ids fate order) :
    id ∈ (ids.map fate).filterMap CopyFate.unreadable? ↔ id ∈ ids ∧ fate id = .unreadable id := by
  rw [List.filterMap_map, List.mem_filterMap]
  constructor
  · rintro ⟨a, ha, hu⟩
    rw [Function.comp_apply] at hu
    cases h.fates a ha with
    | unreadable _ f _ =>
      obtain rfl := Option.some.inj (f ▸ hu : (CopyFate.unreadable a).unreadable? = some id)
      exact ⟨ha, f⟩
    | kept _ _ f _ => exact absurd (f ▸ hu) (by simp [CopyFate.unreadable?])
    | adopted _ _ f _ => exact absurd (f ▸ hu) (by simp [CopyFate.unreadable?])
    | removed _ _ f _ => exact absurd (f ▸ hu) (by simp [CopyFate.unreadable?])
  · rintro ⟨hid, e⟩
    exact ⟨id, hid, by rw [Function.comp_apply, e]; rfl⟩

theorem contains_iff (h : Fates s thread t t' ids fate order) : order.contains id = true ↔
    StoredOrder.Lists (s.keys.stored t thread Keyspace.orderField) id := by
  obtain ⟨entries, he, rfl⟩ := h.read
  exact (StoredOrder.lists_iff_contains he).symm

theorem mem_stale (h : Fates s thread t t' ids fate order) : id ∈ staleOf order (ids.map fate) ↔
    StoredOrder.Lists (s.keys.stored t thread Keyspace.orderField) id ∧
      (∀ x ∈ presentOf (ids.map fate), x.id ≠ id) ∧ ¬ (id ∈ ids ∧ fate id = .unreadable id) := by
  rw [staleOf, List.mem_filter, OrderSnapshot.ids_eq_map, List.mem_map, ← h.contains_iff,
    ← h.mem_unreadable, OrderSnapshot.contains_iff]
  simp

end Fates

namespace Settlement

/-- A text that is no id of a message names what it named before, but for the order. -/
theorem stored_eq (h : Settlement s thread t t' ids fate order) (hne : id ≠ Keyspace.orderField)
    (hi : ¬ IsMessage id) : s.keys.stored t' thread id = s.keys.stored t thread id := by
  refine Classical.byContradiction fun changed => ?_
  rcases h.confined .messages _ changed with e | ⟨_, e | ⟨id', _, hi', e, _⟩⟩
  · exact absurd e (by decide)
  · exact hne (Keyspace.message_inj e)
  · exact hi (Keyspace.message_inj e ▸ hi')

theorem readable_removed (h : Settlement s thread t t' ids fate order) : StoredOrder.Readable
    (StoredOrder.removed (s.keys.stored t thread Keyspace.orderField)
      (staleOf order (ids.map fate))) := by
  obtain ⟨entries, he, _⟩ := h.read
  exact StoredOrder.readable_changed ⟨entries, he⟩

theorem readable (h : Settlement s thread t t' ids fate order) :
    StoredOrder.Readable (s.keys.stored t' thread Keyspace.orderField) := by
  rw [h.index]
  exact StoredOrder.readable_changed h.readable_removed

/-- What was listed keeps its score, and what is listed newly has that of its date. -/
theorem score_present (h : Settlement s thread t t' ids fate order) (hid : id ∈ ids)
    (hx : (fate id).present? = some x) :
    StoredOrder.score? (s.keys.stored t' thread Keyspace.orderField) id
      = (StoredOrder.score? (s.keys.stored t thread Keyspace.orderField) id).or
          (some (scoreFor x.createdAt 0)) := by
  obtain rfl := h.id_of_present hid hx
  have present : x ∈ presentOf (ids.map fate) := h.mem_present.mpr ⟨hid, hx⟩
  have only : ∀ y ∈ presentOf (ids.map fate), y.id = x.id → y = x := fun y hy e =>
    Option.some.inj (((h.mem_present.mp hy).2.symm.trans (by rw [e])).trans hx)
  have fresh : x.id ∉ staleOf order (ids.map fate) := fun hs => (h.mem_stale.mp hs).2.1 x present rfl
  rw [h.index, StoredOrder.score?_added h.readable_removed, StoredOrder.score?_removed, if_neg fresh]
  cases hl : StoredOrder.score? (s.keys.stored t thread Keyspace.orderField) x.id with
  | some y => rfl
  | none =>
    have unlisted : order.contains x.id = false := by
      rw [← Bool.not_eq_true, h.contains_iff]
      exact fun hl' => hl' hl
    exact entryScore_unindexed present only unlisted

/-- Nothing that does not stay is added to the order. -/
theorem score_away (h : Settlement s thread t t' ids fate order)
    (away : ∀ x ∈ presentOf (ids.map fate), x.id ≠ id) :
    StoredOrder.score? (s.keys.stored t' thread Keyspace.orderField) id
      = if id ∈ staleOf order (ids.map fate) then none
        else StoredOrder.score? (s.keys.stored t thread Keyspace.orderField) id := by
  have unscored : Contents.entryScore (((presentOf (ids.map fate)).filter fun m => !order.contains m.id).map
      fun m => ⟨m.id, scoreFor m.createdAt 0⟩) id = none := entryScore_away away
  rw [Contents.entryScore] at unscored
  rw [h.index, StoredOrder.score?_added h.readable_removed, unlistedOf, unscored, Option.or_none,
    StoredOrder.score?_removed]

theorem score_unreadable (h : Settlement s thread t t' ids fate order) (hid : id ∈ ids)
    (f : fate id = .unreadable id) :
    StoredOrder.score? (s.keys.stored t' thread Keyspace.orderField) id
      = StoredOrder.score? (s.keys.stored t thread Keyspace.orderField) id := by
  rw [h.score_away, if_neg fun hs => (h.mem_stale.mp hs).2.2 ⟨hid, f⟩]
  rintro x hx rfl
  exact absurd (f ▸ (h.mem_present.mp hx).2) (by simp [CopyFate.present?])

/-- The order lists nothing that the thread does not have. -/
theorem score_gone (h : Settlement s thread t t' ids fate order)
    (gone : id ∈ ids → fate id = .removed id) :
    StoredOrder.score? (s.keys.stored t' thread Keyspace.orderField) id = none := by
  have away : ∀ x ∈ presentOf (ids.map fate), x.id ≠ id := by
    rintro x hx rfl
    obtain ⟨hid, hx⟩ := h.mem_present.mp hx
    exact absurd (gone hid ▸ hx) (by simp [CopyFate.present?])
  rw [h.score_away away]
  split
  · rfl
  · next fresh =>
    refine Classical.byContradiction fun hl => fresh (h.mem_stale.mpr ⟨hl, away, ?_⟩)
    rintro ⟨hid, f⟩
    exact absurd ((gone hid).symm.trans f) (by simp)

end Settlement

end Outcome

/-! ## The operation -/

/-- A reconciliation that goes well, up to the point where it is known if the thread is there. -/
theorem yields_reconcileThread {report : ReconcileReport}
    (h : (s.reconcileThread thread).Yields t report t') : Identifier.Valid thread ∧
      ∃ ids : List String, ids.Nodup ∧
        (∀ id, id ∈ ids ↔ IsMessage id ∧ s.keys.stored t thread id ≠ none) ∧
        ((s.threadExists thread).Yields t true t ∧
            (s.reconcileExisting thread ids).Yields t report t' ∨
          t.get? .threads (s.keys.thread thread) = none ∧
            (s.reconcileGone thread ids).Yields t report t') := by
  obtain ⟨_, _, h₁, after₁⟩ := yields_bind.mp h
  obtain ⟨checked, rfl⟩ := yields_check.mp h₁
  obtain ⟨ids, _, h₂, after₂⟩ := yields_bind.mp after₁
  obtain ⟨rfl, sorted, mem⟩ := yields_messageIds h₂
  obtain ⟨found, _, h₃, after₃⟩ := yields_bind.mp after₂
  obtain ⟨e, there⟩ := yields_threadExists h₃
  subst e
  refine ⟨Identifier.violations_eq_nil.mp checked, ids, ?_, mem, ?_⟩
  · exact sorted.imp String.ne_of_lt
  · rcases yields_ite.mp after₃ with ⟨found, existing⟩ | ⟨missing, gone⟩
    · exact Or.inl ⟨found ▸ h₃, existing⟩
    · exact Or.inr ⟨Classical.byContradiction fun hne => missing (there.mpr hne), gone⟩

end Store

end ChatMemory
