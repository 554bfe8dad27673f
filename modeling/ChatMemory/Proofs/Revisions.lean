import ChatMemory.Proofs.Errors
import ChatMemory.Proofs.Exact
import ChatMemory.Proofs.Failures

/-!
# Revisions

A list of changes is applied one after the other, so each change finds its message as the changes in
front of it left it: as the last version of it that was handed back, or as it was stored when there is
none. It is moved, put in its place by its new date, or left in its place, and in exact contents each
of these houses the new version and touches no other message. So in the end the last version of each
message is what is stored.

A change that asks for another thread and nothing else does what a move does.

## Main statements

* `becomes_apply` — what a change does to a message, field by field.
* `Exact.revised` — what one change does to exact contents.
* `revised_in_turn` — what a list of changes does, and what a move does.
-/

namespace ChatMemory

/-! ## What a change asks for -/

/-- The given parts and the given text replace the old ones, and metadata is merged key by key. The
last value that the change gives a key counts. -/
structure MessageContent.Becomes (before : MessageContent) (u : MessageContentUpdate)
    (after : MessageContent) : Prop where
  format : after.format = before.format
  parts : after.parts = u.parts.getD before.parts
  content : after.content = u.content.or before.content
  metadata : ∀ patch, u.metadata = some patch → ∃ merged, after.metadata = some merged ∧
    ∀ key, merged.lookup key = (patch.reverse.lookup key).or ((before.metadata.getD []).lookup key)
  bare : u.metadata = none → after.metadata = before.metadata

/-- The given fields replace the old ones, and so does the given thread. -/
structure Message.Becomes (before : Message) (u : MessageUpdate) (after : Message) : Prop where
  id : after.id = before.id
  threadId : after.threadId = u.threadId.getD before.threadId
  resourceId : after.resourceId = u.resourceId.or before.resourceId
  role : after.role = u.role.getD before.role
  kind : after.kind = u.kind.getD before.kind
  createdAt : after.createdAt = u.createdAt.getD before.createdAt
  content : ∀ change, u.content = some change → before.content.Becomes change after.content
  same : u.content = none → after.content = before.content

theorem MessageContent.becomes_merge (before : MessageContent) (u : MessageContentUpdate) :
    before.Becomes u (before.merge u) where
  format := rfl
  parts := rfl
  content := rfl
  metadata patch h := by
    refine ⟨(before.metadata.getD []).merge patch, by rw [merge, h], fun key => ?_⟩
    exact Object.lookup_merge key patch _
  bare h := by rw [merge, h]

theorem Message.becomes_apply (before : Message) {u : MessageUpdate} {thread : String}
    (h : thread = u.threadId.getD before.threadId) :
    before.Becomes u ((before.apply u).into thread) where
  id := rfl
  threadId := h
  resourceId := rfl
  role := rfl
  kind := rfl
  createdAt := rfl
  content change hu := by
    have content : ((before.apply u).into thread).content = before.content.merge change := by
      rw [into, apply, hu]
    rw [content]
    exact before.content.becomes_merge change
  same hu := by rw [into, apply, hu]

/-- The last version of a message among some. -/
def lastVersion (ys : List Message) (id : String) : Option Message :=
  (ys.filter (·.id = id)).getLast?

theorem lastVersion_concat (ys : List Message) (y : Message) (id : String) :
    lastVersion (ys ++ [y]) id = if y.id = id then some y else lastVersion ys id := by
  rw [lastVersion, List.filter_append]
  split
  · next h => rw [List.filter_cons_of_pos (by simpa using h), List.filter_nil, List.getLast?_concat]
  · next h => rw [List.filter_cons_of_neg (by simpa using h), List.filter_nil, List.append_nil, lastVersion]

theorem id_of_lastVersion {ys : List Message} {y : Message} {id : String}
    (h : lastVersion ys id = some y) : y.id = id := by
  have hy := (List.mem_filter.mp (List.mem_of_getLast? h)).2
  simpa using hy

namespace Contents

variable {R : RecordRule} {c c' : Contents} {tracking : Bool} {now : Instant} {u : MessageUpdate}
  {x y : Message} {ys : List Message}

/-- The message is left by some versions: it is the last of them with its id, or is stored if none
has its id. -/
def LeftBy (c : Contents) (ys : List Message) (x : Message) : Prop :=
  lastVersion ys x.id = some x ∨ lastVersion ys x.id = none ∧ c.Houses x

/-- A change of a message: what becomes of it, and what becomes of its place in the order. -/
structure Revised (now : Instant) (u : MessageUpdate) (x y : Message) (c c' : Contents) : Prop where
  named : x.id = u.id
  before : c.Houses x
  becomes : x.Becomes u y
  after : c'.Houses y
  moved : y.threadId ≠ x.threadId → (c'.view y.id).score y.threadId = some (freshScore now)
  dated : y.threadId = x.threadId → y.createdAt ≠ x.createdAt →
    (c'.view y.id).score y.threadId = some (scoreFor y.createdAt 0)
  placed : y.threadId = x.threadId → y.createdAt = x.createdAt →
    (c'.view y.id).score = (c.view y.id).score
  others : ∀ id, id ≠ y.id → c'.view id = c.view id

/-- What one change does to exact contents. -/
theorem Exact.revised (h : c.Exact) (f : Follows R (· = u.id) c c')
    (updated : (c.view u.id).Updated tracking now c.HasThread u y (c'.view u.id))
    (dated : y.createdAt.FourDigit) : c'.Exact ∧ ∃ x, Revised now u x y c c' := by
  have record := (updated.fresh dated).record
  have named : ∀ thread x, (c.view u.id).IsRecord thread x → x.threadId = thread :=
    fun _ _ hx => (h.houses hx).2.2
  have at_ := ((h.aligned.whole u.id).updated named updated).1
  obtain ⟨current, x, finds, hx, changed⟩ := updated
  obtain ⟨before, hid, rfl⟩ := h.houses hx
  have becomes : x.Becomes u y := by
    rcases changed with ⟨stays, rfl, _⟩ | ⟨destination, hu, _, rfl, _⟩
    · have thread : x.threadId = u.threadId.getD x.threadId := by
        cases hu : u.threadId with
        | none => rfl
        | some destination => exact (stays destination hu).symm
      exact x.becomes_apply thread
    · exact x.becomes_apply (by rw [hu]; rfl)
  have same : y.id = u.id := becomes.id.trans hid
  rw [← same] at record at_ changed f
  have after : c'.Houses y := h.houses_of_at f at_ record
  refine ⟨h.follows f fun _ e => ⟨y, after, e.symm⟩, x, ?_⟩
  constructor
  case named => exact hid
  case before => exact before
  case becomes => exact becomes
  case after => exact after
  case moved =>
    intro apart
    rcases changed with ⟨_, rfl, _⟩ | ⟨destination, _, leaves, _, hv⟩
    · exact absurd rfl apart
    · have unlisted : (c.view y.id).score y.threadId = none := by
        refine Classical.not_not.mp fun listed => apart ?_
        exact (before.lists y.threadId).mp (becomes.id ▸ listed)
      rw [hv, View.score_moved (Ne.symm apart), unlisted, Option.none_or]
  case dated =>
    intro stays redated
    rcases changed with ⟨_, _, hv⟩ | ⟨_, _, leaves, rfl, _⟩
    · rw [hv, View.replaced, if_neg redated, View.score_reranked]
    · exact absurd stays.symm leaves.apart
  case placed =>
    intro stays undated
    rcases changed with ⟨_, _, hv⟩ | ⟨_, _, leaves, rfl, _⟩
    · rw [hv, View.replaced, if_pos undated]
      rfl
    · exact absurd stays.symm leaves.apart
  case others => exact f.within.view

/-- The versions that are left by one more are this one and those of other messages. -/
theorem LeftBy.concat (h : c.LeftBy (ys ++ [y]) x) : x = y ∨ x.id ≠ y.id ∧ c.LeftBy ys x := by
  unfold LeftBy at h
  rw [lastVersion_concat] at h
  split at h
  · exact Or.inl (h.elim (fun e => (Option.some.inj e).symm) fun e => absurd e.1 (by simp))
  · next other => exact Or.inr ⟨Ne.symm other, h⟩

/-- Contents in which the last versions are stored, and everything else is as it was. -/
structure Reflects (c : Contents) (ys : List Message) (c' : Contents) : Prop where
  exact_ : c'.Exact
  houses : ∀ {x}, c.LeftBy ys x → c'.Houses x
  others : ∀ {id}, lastVersion ys id = none → c'.view id = c.view id

theorem Exact.reflects (h : c.Exact) : c.Reflects [] c :=
  ⟨h, fun left => left.elim (fun e => absurd e (by simp [lastVersion])) (·.2), fun _ => rfl⟩

/-- One more change brings one more version. -/
theorem Reflects.concat {c'' : Contents} (h : c.Reflects ys c') (exact_ : c''.Exact)
    (revised : Revised now u x y c' c'') : c.Reflects (ys ++ [y]) c'' where
  exact_ := exact_
  houses {z} left := by
    obtain rfl | ⟨other, left⟩ := left.concat
    · exact revised.after
    · exact (h.houses left).congr (revised.others z.id other)
  others {id} none := by
    rw [lastVersion_concat] at none
    split at none
    · exact absurd none (by simp)
    · next other => exact (revised.others id (Ne.symm other)).trans (h.others none)

/-- What is stored then is what the versions left. -/
theorem Reflects.leftBy (h : c.Reflects ys c') (hx : c'.Houses x) : c.LeftBy ys x := by
  cases last : lastVersion ys x.id with
  | none => exact Or.inr ⟨last, hx.congr (h.others last).symm⟩
  | some z =>
    have same := id_of_lastVersion last
    have left : c.LeftBy ys z := Or.inl (same ▸ last)
    exact Or.inl ((h.houses left).unique hx same ▸ last)

end Contents

/-! ## One change after the other -/

/-- Actions of a list pass through worlds, one in front of each and one at the end. -/
theorem Action.exists_worlds {α β : Type} {faults : Faults} {f : α → Action β} :
    ∀ {l : List α} {bs : List β} {w w' : World}, (Action.each f l).run faults w = (.ok bs, w') →
      bs.length = l.length ∧ ∃ at_ : Nat → World, at_ 0 = w ∧ at_ l.length = w' ∧
        ∀ k a, l[k]? = some a → ∃ b, bs[k]? = some b ∧ (f a).run faults (at_ k) = (.ok b, at_ (k + 1))
  | [], bs, w, w', run => by
    obtain ⟨e, rfl⟩ := Prod.mk.inj run
    obtain rfl := Except.ok.inj e
    exact ⟨rfl, fun _ => w, rfl, rfl, by simp⟩
  | a :: rest, bs, w, w', run => by
    obtain ⟨b, w₁, first, run⟩ := run_bind_eq_ok run
    obtain ⟨bs', w₂, others, run⟩ := run_bind_eq_ok run
    obtain ⟨e, rfl⟩ := Prod.mk.inj run
    obtain rfl := Except.ok.inj e
    obtain ⟨length, at_, rfl, finish, steps⟩ := exists_worlds others
    refine ⟨by simp [length], Nat.rec w fun k _ => at_ k, rfl, finish, ?_⟩
    rintro (_ | k) a' ha
    · obtain rfl := Option.some.inj ha
      exact ⟨b, rfl, first⟩
    · exact steps k a' ha

namespace Store

open Action Contents

variable {s : Store} {faults : Faults} {now : Instant} {us : List MessageUpdate} {ys : List Message}
  {w w' : World}

/-- A change whose identifiers are valid goes well and gives a version. -/
def Changes (s : Store) (faults : Faults) (now : Instant) (u : MessageUpdate) (y : Message)
    (w w' : World) : Prop :=
  (s.updateMessage now u).run faults w = (.ok y, w') ∧ Identifier.ValidMessage u.id ∧
    ∀ destination, u.threadId = some destination → Identifier.Valid destination

/-- Changes that go well are changes that go well one after the other. -/
theorem exists_worlds_updateMessages (run : (s.updateMessages now us).run faults w = (.ok ys, w')) :
    ys.length = us.length ∧ ∃ at_ : Nat → World, at_ 0 = w ∧ at_ us.length = w' ∧
      ∀ k u, us[k]? = some u → ∃ y, ys[k]? = some y ∧
        s.Changes faults now u y (at_ k) (at_ (k + 1)) := by
  obtain ⟨_, w₁, checked, run⟩ := run_bind_eq_ok run
  rw [check, Identifier.report] at checked
  split at checked
  · next valid =>
    obtain ⟨_, rfl⟩ := Prod.mk.inj checked
    obtain ⟨length, at_, start, finish, steps⟩ := exists_worlds run
    refine ⟨length, at_, start, finish, fun k u hu => ?_⟩
    obtain ⟨y, hy, step⟩ := steps k u hu
    have valid := List.isEmpty_iff.mp valid
    exact ⟨y, hy, step, valid_of_updateViolations valid u (List.mem_of_getElem? hu)⟩
  · exact absurd (congrArg Prod.fst checked) (by simp [Action.ofExcept])

/-- What one change does that goes well. -/
theorem Changes.revised {u : MessageUpdate} {y : Message} (h : s.Changes faults now u y w w')
    (exact_ : (s.keys.contents w.tables).Exact) (dated : y.createdAt.FourDigit) :
    (s.keys.contents w'.tables).Exact ∧
      ∃ x, Revised now u x y (s.keys.contents w.tables) (s.keys.contents w'.tables) := by
  obtain ⟨run, hi, ht⟩ := h
  obtain ⟨follows, updated⟩ :=
    (ends_updateMessage exact_.aligned.orderly hi ht fun _ _ => trivial).ok rfl run
  exact exact_.revised follows updated dated

/-- After each change the contents reflect the versions so far. -/
theorem reflects_updateMessages {at_ : Nat → World} (exact_ : (s.keys.contents (at_ 0).tables).Exact)
    (dated : ∀ y ∈ ys, y.createdAt.FourDigit)
    (steps : ∀ k u, us[k]? = some u → ∃ y, ys[k]? = some y ∧
      s.Changes faults now u y (at_ k) (at_ (k + 1))) :
    ∀ k ≤ us.length, (s.keys.contents (at_ 0).tables).Reflects (ys.take k)
      (s.keys.contents (at_ k).tables)
  | 0, _ => exact_.reflects
  | k + 1, hk => by
    have before := reflects_updateMessages exact_ dated steps k (by omega)
    obtain ⟨y, hy, step⟩ := steps k us[k] (List.getElem?_eq_getElem hk)
    obtain ⟨exact', x, revised⟩ := step.revised before.exact_ (dated y (List.mem_of_getElem? hy))
    rw [List.take_add_one, hy]
    exact before.concat exact' revised

/-! ## A change that is a move -/

/-- What a move and a change do with a message that is to go to another thread. -/
def carry (s : Store) (now : Instant) (x : Message) (origin destination : String) :
    Action Message := do
  s.requireThread destination
  let moved := x.into destination
  s.relocate now moved origin
  s.touchThread now origin
  s.touchThread now destination
  return moved

variable {t t' : Tables} {x y : Message} {id origin destination : String}

/-- What needs a thread can go on if the thread exists. -/
theorem requireThread_bind {α : Type} (s : Store) (thread : String) (p : Action α) :
    (s.requireThread thread >>= fun _ => p) =
      s.threadExists thread >>= fun found => if found then p else .fail (.threadNotFound thread) := by
  rw [requireThread, bind_assoc]
  refine congrArg (s.threadExists thread >>= ·) (funext fun found => ?_)
  cases found with
  | true => exact pure_bind ..
  | false => rfl

/-- A move carries the message that is found, if all identifiers are valid. -/
theorem yields_migrateMessage (apart : origin ≠ destination)
    (fetched : (s.fetchMessage origin id).Yields t (some x) t) :
    (s.migrateMessage now id origin destination).Yields t y t' ↔
      (Identifier.ValidMessage id ∧ Identifier.Valid origin ∧ Identifier.Valid destination) ∧
        (s.carry now x origin destination).Yields t y t' := by
  have checked : ∀ {u t₁}, (check (Identifier.messageViolations "messageId" id
      ++ Identifier.violations "fromThreadId" origin
      ++ Identifier.violations "toThreadId" destination)).Yields t u t₁ ↔
      (Identifier.ValidMessage id ∧ Identifier.Valid origin ∧ Identifier.Valid destination) ∧ t₁ = t := by
    simp only [yields_check, List.append_eq_nil_iff, Identifier.messageViolations_eq_nil,
      Identifier.violations_eq_nil, and_assoc, implies_true]
  rw [migrateMessage, yields_bind, carry, requireThread_bind]
  constructor
  · rintro ⟨_, _, hc, h⟩
    obtain ⟨valid, rfl⟩ := checked.mp hc
    rw [fetched.bind_iff] at h
    dsimp only at h
    rw [if_neg apart] at h
    exact ⟨valid, h⟩
  · rintro ⟨valid, h⟩
    refine ⟨(), t, checked.mpr ⟨valid, rfl⟩, ?_⟩
    rw [fetched.bind_iff]
    dsimp only
    rw [if_neg apart]
    exact h

/-- A change that asks for another thread and nothing else carries the message that is found, if the
identifiers that it gives are valid. -/
theorem yields_updateMessages_moveTo (apart : origin ≠ destination)
    (found : (s.findMessage id).Yields t (some origin) t)
    (fetched : (s.fetchMessage origin id).Yields t (some x) t) :
    (s.updateMessages now [MessageUpdate.moveTo { id } destination]).Yields t ys t' ↔
      (Identifier.ValidMessage id ∧ Identifier.Valid destination) ∧
        ∃ y, ys = [y] ∧ (s.carry now x origin destination).Yields t y t' := by
  have checked : ∀ {u t₁}, (check (updateViolations 0 [MessageUpdate.moveTo { id } destination])).Yields
      t u t₁ ↔ (Identifier.ValidMessage id ∧ Identifier.Valid destination) ∧ t₁ = t := by
    simp only [yields_check, updateViolations, MessageUpdate.moveTo, List.append_eq_nil_iff,
      Identifier.messageViolations_eq_nil, Identifier.violations_eq_nil, and_true, implies_true]
  have changed : ∀ {y}, (s.updateMessage now (MessageUpdate.moveTo { id } destination)).Yields t y t' ↔
      (s.carry now x origin destination).Yields t y t' := by
    intro y
    have filtered : (some destination).filter (· ≠ origin) = some destination := by
      rw [Option.filter_some, if_pos (by simpa using Ne.symm apart)]
    dsimp only [updateMessage, MessageUpdate.moveTo]
    rw [found.bind_iff]
    dsimp only
    rw [fetched.bind_iff]
    dsimp only
    rw [filtered]
    exact .rfl
  rw [updateMessages, yields_bind]
  constructor
  · rintro ⟨_, _, hc, h⟩
    obtain ⟨valid, rfl⟩ := checked.mp hc
    obtain ⟨y, t₁, hy, h⟩ := yields_bind.mp h
    obtain ⟨rest, t₂, hr, h⟩ := yields_bind.mp h
    obtain ⟨rfl, rfl⟩ := yields_done.mp hr
    obtain ⟨rfl, rfl⟩ := yields_pure.mp h
    exact ⟨valid, y, rfl, changed.mp hy⟩
  · rintro ⟨valid, y, rfl, h⟩
    refine ⟨(), t, checked.mpr ⟨valid, rfl⟩, yields_bind.mpr ⟨y, t', changed.mpr h, ?_⟩⟩
    exact yields_bind.mpr ⟨[], t', yields_done.mpr ⟨rfl, rfl⟩, yields_pure.mpr ⟨rfl, rfl⟩⟩

theorem strict_migrateMessage (s : Store) (now : Instant) (id origin destination : String) :
    (s.migrateMessage now id origin destination).Strict := by
  have reports : (s.migrateMessage now id origin destination).Reports s.keys fun _ => True :=
    s.reports_migrateMessage (fun _ _ => trivial) (fun _ => trivial) (fun _ => trivial) now id origin
      destination fun _ => trivial
  exact reports.strict

theorem strict_updateMessages (s : Store) (now : Instant) (us : List MessageUpdate) :
    (s.updateMessages now us).Strict := by
  have reports : (s.updateMessages now us).Reports s.keys fun _ => True :=
    reports_bind (s.reports_check fun _ => trivial) fun _ => reports_each
      (s.reports_updateMessage (fun _ _ => trivial) (fun _ => trivial) (fun _ => trivial) now) us
  exact reports.strict

/-- A message that a thread has is found there, and can be read. -/
theorem exists_fetched (exact_ : (s.keys.contents t).Exact)
    (held : (s.keys.contents t).Holds origin id) : (s.findMessage id).Yields t (some origin) t ∧
      ∃ x, (s.fetchMessage origin id).Yields t (some x) t := by
  obtain ⟨found, searched, finds⟩ := yields_findMessage (s := s) (isMessage_of_holds held)
    (fun _ hh => exact_.aligned.orderly.hasThread hh) fun _ _ hh ho => exact_.unique hh ho
  refine ⟨(finds origin).mpr held ▸ searched, ?_⟩
  obtain ⟨x, housed, rfl, rfl⟩ := exact_.exists_houses held
  obtain ⟨r, hr, hx⟩ := housed.record
  have stored : t.get? .messages (s.keys.message x.threadId x.id) = some r :=
    (record_contents (isMessage_of_holds held)).symm.trans hr
  refine ⟨x, ?_⟩
  rw [Yields, fetchMessage, outcome_bind, outcome_ask]
  dsimp only [Request.answer, Request.effect]
  rw [stored]
  dsimp only
  rw [hx]
  rfl

/-- What a move leaves is what a change leaves that asks for the same thread. -/
theorem yields_moveTo_iff (exact_ : (s.keys.contents t).Exact)
    (held : (s.keys.contents t).Holds origin id) (apart : origin ≠ destination) :
    (s.migrateMessage now id origin destination).Yields t y t' ↔ Identifier.Valid origin ∧
      (s.updateMessages now [MessageUpdate.moveTo { id } destination]).Yields t [y] t' := by
  obtain ⟨found, x, fetched⟩ := exists_fetched exact_ held
  rw [yields_migrateMessage apart fetched, yields_updateMessages_moveTo apart found fetched]
  grind

/-- A move that goes well is a change that goes well, and the other way around. -/
theorem run_moveTo (exact_ : (s.keys.contents w.tables).Exact)
    (held : (s.keys.contents w.tables).Holds origin id) (apart : origin ≠ destination) :
    (∀ y w₁, (s.migrateMessage now id origin destination).run faults w = (.ok y, w₁) →
      ∃ w₂, (s.updateMessages now [MessageUpdate.moveTo { id } destination]).run Faults.none w
        = (.ok [y], w₂) ∧ w₂.tables = w₁.tables) ∧
    (∀ ys w₂, Identifier.Valid origin →
      (s.updateMessages now [MessageUpdate.moveTo { id } destination]).run faults w = (.ok ys, w₂) →
        ∃ y w₁, ys = [y] ∧ (s.migrateMessage now id origin destination).run Faults.none w
          = (.ok y, w₁) ∧ w₁.tables = w₂.tables) := by
  refine ⟨fun y w₁ run => ?_, fun ys w₂ valid run => ?_⟩
  · have moved := yields_of_run (s.strict_migrateMessage now id origin destination) run
    obtain ⟨ok, tables⟩ := ((yields_moveTo_iff exact_ held apart).mp moved).2.run
    exact ⟨_, Prod.ext ok rfl, tables⟩
  · have changed := yields_of_run (s.strict_updateMessages now _) run
    obtain ⟨found, x, fetched⟩ := exists_fetched exact_ held
    obtain ⟨_, y, rfl, _⟩ := (yields_updateMessages_moveTo apart found fetched).mp changed
    obtain ⟨ok, tables⟩ := ((yields_moveTo_iff exact_ held apart).mpr ⟨valid, changed⟩).run
    exact ⟨y, _, rfl, Prod.ext ok rfl, tables⟩

/--
When a list of changes is applied to exact contents and that goes well, each change revises its message
as the changes in front of it left it, and the versions are handed back in turn. In the end the
contents are exact again, the last version of each message is housed and is what a client gets, and
messages that no change names stay as they are. A change that asks for another thread and nothing else
leaves what a move leaves.
-/
theorem revised_in_turn (s : Store) (faults : Faults) (now : Instant) {w w' : World}
    {us : List MessageUpdate} {ys : List Message} (exact_ : (s.keys.contents w.tables).Exact)
    (run : (s.updateMessages now us).run faults w = (.ok ys, w'))
    (dated : ∀ y ∈ ys, y.createdAt.FourDigit) :
    let c := s.keys.contents w.tables
    let c' := s.keys.contents w'.tables
    (ys.length = us.length ∧ ∃ at_ : Nat → World, at_ 0 = w ∧ at_ us.length = w' ∧
      ∀ k u, us[k]? = some u → ∃ x y, ys[k]? = some y ∧
        (s.updateMessage now u).run faults (at_ k) = (.ok y, at_ (k + 1)) ∧
        c.LeftBy (ys.take k) x ∧
        Revised now u x y (s.keys.contents (at_ k).tables) (s.keys.contents (at_ (k + 1)).tables)) ∧
    (c'.Exact ∧ (∀ x, c.LeftBy ys x → c'.Houses x ∧ s.Answers w' x) ∧
      ∀ id, (∀ u ∈ us, u.id ≠ id) → c'.view id = c.view id) ∧
    ∀ id origin destination, c.Holds origin id → origin ≠ destination →
      (∀ y w₁, (s.migrateMessage now id origin destination).run faults w = (.ok y, w₁) →
        ∃ w₂, (s.updateMessages now [MessageUpdate.moveTo { id } destination]).run Faults.none w
          = (.ok [y], w₂) ∧ w₂.tables = w₁.tables) ∧
      ∀ ys w₂, Identifier.Valid origin →
        (s.updateMessages now [MessageUpdate.moveTo { id } destination]).run faults w = (.ok ys, w₂) →
          ∃ y w₁, ys = [y] ∧ (s.migrateMessage now id origin destination).run Faults.none w
            = (.ok y, w₁) ∧ w₁.tables = w₂.tables := by
  intro c c'
  obtain ⟨length, at_, rfl, rfl, steps⟩ := exists_worlds_updateMessages run
  have reflects := reflects_updateMessages exact_ dated steps
  have revised : ∀ k u, us[k]? = some u → ∃ x y, ys[k]? = some y ∧
      (s.updateMessage now u).run faults (at_ k) = (.ok y, at_ (k + 1)) ∧ c.LeftBy (ys.take k) x ∧
      Revised now u x y (s.keys.contents (at_ k).tables) (s.keys.contents (at_ (k + 1)).tables) := by
    intro k u hu
    obtain ⟨y, hy, step⟩ := steps k u hu
    have before := reflects k (Nat.le_of_lt (List.getElem?_eq_some_iff.mp hu).1)
    obtain ⟨_, x, revised⟩ := step.revised before.exact_ (dated y (List.mem_of_getElem? hy))
    exact ⟨x, y, hy, step.1, before.leftBy revised.before, revised⟩
  have whole := reflects us.length (Nat.le_refl _)
  rw [← length, List.take_length, length] at whole
  refine ⟨⟨length, at_, rfl, rfl, revised⟩, ⟨whole.exact_, fun x left => ?_, fun id unnamed => ?_⟩,
    fun id origin destination held apart => run_moveTo exact_ held apart⟩
  · exact ⟨whole.houses left, whole.exact_.answers (whole.houses left)⟩
  · refine whole.others ?_
    have none : ∀ y ∈ ys, ¬ y.id = id := by
      intro y hy e
      obtain ⟨k, hk⟩ := List.mem_iff_getElem?.mp hy
      have hlt : k < us.length := length ▸ (List.getElem?_eq_some_iff.mp hk).1
      obtain ⟨x, y', hy', _, _, revised⟩ := revised k us[k] (List.getElem?_eq_getElem hlt)
      obtain rfl := Option.some.inj (hk.symm.trans hy')
      exact unnamed us[k] (List.getElem_mem hlt)
        ((revised.becomes.id.trans revised.named).symm.trans e)
    rw [lastVersion, List.filter_eq_nil_iff.mpr (by simpa using none), List.getLast?_nil]

end Store

/-! ## A sample -/

namespace Sample

/-- The role of the message is changed, then it is moved with some metadata, then it gets a date. -/
def edits : List MessageUpdate :=
  [{ id := "m", role := some .tool },
    (MessageUpdate.moveTo { id := "m" } "b").withContentMetadata [("checked", .bool true)],
    MessageUpdate.withCreatedAt { id := "m" } (.ofMillis 1704067200123)]

/-- The versions that are handed back, and the world afterwards. -/
def edited : Except MemoryError (List Message) × World :=
  ((store false).updateMessages now edits).run Faults.none (world false "a")

theorem exact_world : ((store false).keys.contents (world false "a").tables).Exact := by
  have rows : ∀ e ∈ (world false "a").tables.messages.entries,
      e.1 ∈ ["a", "b"].map (store false).keys.order ∨ (Message.ofRecord e.2).isOk = true := by
    decide +kernel
  exact (store false).exact_of_rows (history "a") (by decide) rows

end Sample

namespace Store

open Action Contents

theorem edits_in_turn :
    ((Sample.store false).keys.contents (Sample.world false "a").tables).Exact ∧
    ∃ ys w', ((Sample.store false).updateMessages Sample.now Sample.edits).run Faults.none
        (Sample.world false "a") = (.ok ys, w') ∧ (∀ y ∈ ys, y.createdAt.FourDigit) ∧
      ys.length = 3 ∧ ((Sample.store false).keys.contents w'.tables).Exact ∧
      ∀ x, ((Sample.store false).keys.contents (Sample.world false "a").tables).LeftBy ys x →
        ((Sample.store false).keys.contents w'.tables).Houses x ∧ (Sample.store false).Answers w' x := by
  have ok : Sample.edited.1.isOk = true := by decide +kernel
  have years : ∀ y ∈ Sample.edited.1.toOption.getD [], y.createdAt.FourDigit := by decide +kernel
  obtain ⟨ys, run⟩ := Action.exists_ok ok
  have dated : ∀ y ∈ ys, y.createdAt.FourDigit := by
    have run : Sample.edited = (.ok ys, Sample.edited.2) := run
    rw [run] at years
    exact years
  obtain ⟨⟨length, _⟩, ⟨exact_, housed, _⟩, _⟩ := revised_in_turn (Sample.store false) Faults.none
    Sample.now Sample.exact_world run dated
  exact ⟨Sample.exact_world, ys, _, run, dated, length, exact_, housed⟩

end Store

end ChatMemory
