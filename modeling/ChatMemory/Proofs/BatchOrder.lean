import ChatMemory.Proofs.Batches
import ChatMemory.Proofs.Included
import ChatMemory.Proofs.LastPlace
import ChatMemory.Proofs.Scores
import ChatMemory.Proofs.Tracking

/-!
# Batches keep their order

A thread is listed in the order of its scores, and ids decide between equal ones. The new messages of a
batch are scored by their dates, moved on by their positions in the batch. So as long as the dates do
not go back and no score is rounded, their scores increase strictly along the batch, no id has to
decide, and the listing of the thread has the messages in the order of the batch, whatever else is
listed between them.

## Main statements

* `answer_all` — the listing of a whole thread.
* `pairwise_listing` — it is in the order of the scores.
* `batch_listed_in_order` — the messages of a batch in the listing of their thread.
-/

namespace ChatMemory

open Action

namespace Keyspace

variable {k : Keyspace} {t : Tables} {thread : String} {x y : Message}

/-- The messages that are read for the order of a thread, in its order. -/
def listing (k : Keyspace) (t : Tables) (thread : String) : List Message :=
  k.messagesOf t thread (k.orderOf t thread).entries

theorem mem_listing : x ∈ k.listing t thread ↔
    ∃ e ∈ (k.orderOf t thread).entries, k.message? t thread e.id = some x :=
  List.mem_filterMap

/-- Messages that carry the ids of their entries are listed in the order of the scores. -/
theorem pairwise_listing (tells : k.Tells t thread (k.orderOf t thread).entries) :
    (k.listing t thread).Pairwise (k.Earlier t) := by
  have tidy := k.tidy_orderOf t thread
  have scored : ∀ e ∈ (k.orderOf t thread).entries,
      (k.orderOf t thread).score? e.id = some e.score :=
    fun e he => (OrderSnapshot.score?_eq_some_iff tidy.2).mpr he
  refine tells.pairwise_messagesOf tidy.1 fun e he e' he' before x x' hid hid' ht ht' => ?_
  refine ⟨e.score, e'.score, ?_, ?_, ?_⟩
  · rw [ht, hid, scored e he]
  · rw [ht', hid', scored e' he']
  · rwa [hid, hid']

theorem eq_of_mem_listing (tells : k.Tells t thread (k.orderOf t thread).entries)
    (hx : x ∈ k.listing t thread) (hy : y ∈ k.listing t thread) (same : x.id = y.id) : x = y := by
  have different : (k.listing t thread).Pairwise (·.id ≠ ·.id) :=
    tells.pairwise_messagesOf (k.tidy_orderOf t thread).2 fun e _ e' _ apart x x' hid hid' _ _ => by
      rwa [hid, hid']
  exact eq_of_key_eq different hx hy same

/-- Some messages of a listing, in the order of the scores, are the part of the listing with their
ids. -/
theorem filter_listing_eq {ms : List Message}
    (tells : k.Tells t thread (k.orderOf t thread).entries)
    (listed : ∀ x ∈ ms, x ∈ k.listing t thread) (sorted : ms.Pairwise (k.Earlier t)) :
    (k.listing t thread).filter (fun x => x.id ∈ ms.map (·.id)) = ms := by
  have once : ∀ {l : List Message}, l.Pairwise (k.Earlier t) → l.Nodup := fun h =>
    h.imp fun {a b} earlier => by
      rintro rfl
      exact earlier.asymm earlier
  have part := (pairwise_listing tells).sublist (List.filter_sublist (p := fun x =>
    decide (x.id ∈ ms.map (·.id))))
  refine List.Perm.eq_of_pairwise (fun a b _ _ hab hba => absurd hba hab.asymm) part sorted ?_
  refine (List.perm_ext_iff_of_nodup (once part) (once sorted)).mpr fun x => ?_
  rw [List.mem_filter, decide_eq_true_iff, List.mem_map]
  constructor
  · rintro ⟨hx, y, hy, same⟩
    exact eq_of_mem_listing tells (listed y hy) hx same ▸ hy
  · exact fun hx => ⟨listed x hx, x, hx, rfl⟩

end Keyspace

namespace Store

open Contents

variable {s : Store} {t : Tables} {thread : String}

theorem loadTargets_single (s : Store) (thread : String) : s.loadTargets [] [thread] = (do
    let order ← OrderIndex.snapshot s.keys thread
    return (order.ids.map fun id => (thread, id), [(thread, order)])) := by
  simp [loadTargets, loadOrder]

/-- Asked for as a whole, a thread is listed in its order. -/
theorem answer_all (s : Store) (w : World) (direction : SortDirection)
    (valid : Identifier.Valid thread)
    (readable : StoredOrder.Readable (s.keys.stored w.tables thread Keyspace.orderField))
    (tells : s.keys.Tells w.tables thread (s.keys.orderOf w.tables thread).entries) :
    ∃ page, s.answer w { threadIds := [thread], perPage := .all, order := direction } = .ok page ∧
      page.messages = direction.turn (s.keys.listing w.tables thread) := by
  let q : MessageQuery := { threadIds := [thread], perPage := .all, order := direction }
  let order := s.keys.orderOf w.tables thread
  have checked : q.Valid := MessageQuery.valid_of_thread valid .all direction
  obtain ⟨entries, he⟩ := readable
  have snapshot : (OrderIndex.snapshot s.keys thread).Yields w.tables order w.tables :=
    OrderIndex.yields_snapshot.mpr ⟨rfl, entries, he, by simp only [order, Keyspace.orderOf, he]⟩
  have loaded : (s.loadTargets [] q.threadIds).Yields w.tables
      (order.ids.map fun id => (thread, id), [(thread, order)]) w.tables := by
    rw [loadTargets_single]
    exact yields_bind.mpr ⟨order, _, snapshot, yields_pure.mpr ⟨rfl, rfl⟩⟩
  have yields : (s.collectPage q).Yields w.tables _ w.tables := yields_filtered (q := q) rfl loaded
  have candidates : (order.ids.map fun id => (thread, id)).filterMap
      (fun target => s.keys.message? w.tables target.1 target.2) = s.keys.listing w.tables thread := by
    rw [OrderSnapshot.ids_eq_map, List.map_map, List.filterMap_map]
    rfl
  have asked : (s.keys.listing w.tables thread).filter q.matches? = s.keys.listing w.tables thread :=
    filter_matches_eq_self (by simp [q]) rfl tells.threadId_eq
  have listed : arrange [(thread, order)] .ascending (s.keys.listing w.tables thread)
      = s.keys.listing w.tables thread := tells.arrange_messagesOf (s.keys.tidy_orderOf _ _)
  refine ⟨_, answer_eq checked, ?_⟩
  rw [show (s.collectPage q).outcome w.tables = _ from yields]
  show arrange [(thread, order)] direction (List.filter q.matches? _) = _
  rw [candidates, asked, arrange_eq_turn, listed]

/-! ## After a batch -/

section Batch

variable {faults : Faults} {now : Instant} {w w' : World} {batch ms : List Message}

/-- After a batch, what is read for the order of a thread carries the ids of the entries. -/
theorem tells_of_follows {k : Keyspace} {t t' : Tables} {names : String → Prop}
    (aligned : (k.contents t).Aligned) (there : (k.contents t).HasThread thread)
    (plain : Plain thread) (f : Follows .agreeing names (k.contents t) (k.contents t'))
    (messages : ∀ id, names id → IsMessage id) :
    k.Tells t' thread (k.orderOf t' thread).entries := by
  intro e he x hx
  -- What is listed is the id of a message: it is one of the batch, or was listed before.
  have hi : IsMessage e.id := by
    by_cases hid : names e.id
    · exact messages e.id hid
    · have listed := (Keyspace.mem_orderOf plain).mp he
      rw [f.within.view e.id hid] at listed
      refine isMessage_of_holds (((aligned.listed there).2 e.id).mp fun none => ?_)
      exact absurd (none.symm.trans listed) (by simp)
  obtain ⟨r, hr, read⟩ := Keyspace.message?_eq_some_iff.mp hx
  have record : ((k.contents t').view e.id).IsRecord thread x :=
    ⟨r, (Keyspace.record_contents hi).trans hr, read⟩
  obtain ⟨ht, hid, _⟩ := f.orderly.isRecord record
  exact ⟨hid, ht⟩

/-- A new message is read in its thread, and placed by its date and its position in the batch. -/
theorem read_and_placed {k : Keyspace} {t t' : Tables} {tracking : Bool} {e : Message × Nat}
    (aligned : (k.contents t).Aligned) (valid : Identifier.Valid e.1.threadId)
    (there : Identifier.ValidMessage e.1.id ∧ (k.contents t).HasThread e.1.threadId)
    (dated : e.1.createdAt.FourDigit) (new : ∀ other, ¬ (k.contents t).Holds other e.1.id)
    (stored : ((k.contents t).view e.1.id).Stored tracking e.1 e.2 now (k.contents t).HasThread
      ((k.contents t').view e.1.id)) :
    k.message? t' e.1.threadId e.1.id = some e.1 ∧
      (k.orderOf t' e.1.threadId).score? e.1.id = some (scoreFor e.1.createdAt e.2) := by
  constructor
  · obtain ⟨r, hr, hx⟩ := stored.isRecord dated
    refine Keyspace.message?_eq_some_iff.mpr ⟨r, ?_, hx⟩
    exact (Keyspace.record_contents there.1.isMessage).symm.trans hr
  · rw [Keyspace.score?_orderOf valid.plain]
    refine stored.score_of_nowhere ⟨new, fun other ht hl => ?_⟩ there.2
    exact new other (((aligned.listed ht).2 e.1.id).mp hl)

theorem batchOf_map_fst (batch : List Message) (thread : String) :
    (batchOf batch thread).map (·.1) = batch.filter (·.threadId = thread) := by
  have messages : batch.zipIdx.map Prod.fst = batch := List.zipIdx_map_fst 0 batch
  conv_rhs => rw [← messages, List.filter_map]
  rfl

/-- Whatever the dates, the positions of a batch increase along it. -/
theorem pairwise_positions (batch : List Message) (thread : String) :
    (batchOf batch thread).Pairwise (·.2 < ·.2) := by
  have positions : (batch.zipIdx.map Prod.snd).Pairwise (· < ·) := by
    rw [List.zipIdx_map_snd]
    exact List.pairwise_lt_range'
  exact (List.pairwise_map.mp positions).filter _

/-- Messages of a thread that are scored exactly, by dates that do not go back, stand one before the
other. -/
theorem pairwise_earlier {k : Keyspace} {t : Tables} {batch : List Message}
    (forward : (batch.filter (·.threadId = thread)).Pairwise
      (·.createdAt.micros ≤ ·.createdAt.micros))
    (scored : ∀ e ∈ batchOf batch thread, ScoredExactly e.1.createdAt e.2 ∧
      (k.orderOf t thread).score? e.1.id = some (scoreFor e.1.createdAt e.2)) :
    (batch.filter (·.threadId = thread)).Pairwise (k.Earlier t) := by
  rw [← batchOf_map_fst, List.pairwise_map] at *
  refine (forward.and (pairwise_positions batch thread)).imp_of_mem
    fun {e e'} he he' ⟨dates, positions⟩ => ?_
  obtain ⟨exactly, score⟩ := scored e he
  obtain ⟨exactly', score'⟩ := scored e' he'
  refine ⟨scoreFor e.1.createdAt e.2, scoreFor e'.1.createdAt e'.2, ?_, ?_,
    Or.inl (scoreFor_lt exactly exactly' dates positions)⟩
  · rw [(mem_batchOf.mp he).2, score]
  · rw [(mem_batchOf.mp he').2, score']

end Batch

/--
A batch is saved into aligned contents, and the messages of the batch for one thread are new. If their
dates do not go back along the batch, counted in microseconds, and no score is rounded, the listing of
the whole thread has them in the order of the batch: what is left of it without the others is the part
of the batch for the thread, turned round in the other direction. Their ids make no difference, and
neither do the other messages of the batch, or what was listed before. A position is a part of a score
as well, so it is asked to be a number that is not rounded too.
-/
theorem batch_listed_in_order (s : Store) (faults : Faults) (now : Instant) {w w' : World}
    {batch ms : List Message} (aligned : (s.keys.contents w.tables).Aligned)
    (run : (s.saveMessages now batch).run faults w = (.ok ms, w')) {thread : String}
    (valid : Identifier.Valid thread)
    (dated : ∀ v ∈ batch, v.threadId = thread → v.createdAt.FourDigit)
    (new : ∀ v ∈ batch, v.threadId = thread →
      ∀ other, ¬ (s.keys.contents w.tables).Holds other v.id)
    (forward : (batch.filter (·.threadId = thread)).Pairwise
      (·.createdAt.micros ≤ ·.createdAt.micros))
    (exactly : ∀ e ∈ batchOf batch thread, ScoredExactly e.1.createdAt e.2)
    (direction : SortDirection) :
    let part := batch.filter (·.threadId = thread)
    ∃ page, s.answer w' { threadIds := [thread], perPage := .all, order := direction } = .ok page ∧
      page.messages.filter (fun x => x.id ∈ part.map (·.id)) = direction.turn part := by
  intro part
  obtain ⟨rfl, _, there, follows, stored⟩ :=
    (ends_saveMessages aligned.orderly fun _ _ => trivial).ok rfl run
  by_cases none : part = []
  · -- Nothing is asked of a thread that the batch does not name, except that it is listed.
    refine ⟨_, answer_eq (MessageQuery.valid_of_thread valid .all direction), ?_⟩
    rw [none]
    cases direction <;> simp [SortDirection.turn]
  have has : (s.keys.contents w.tables).HasThread thread := by
    obtain ⟨v, hv⟩ := List.exists_mem_of_ne_nil part none
    obtain ⟨hv, ht⟩ := List.mem_filter.mp hv
    exact of_decide_eq_true ht ▸ (there v hv).2
  have readable := follows.within.readable thread (aligned.listed has).1
  rw [Contents.index_contents valid.plain] at readable
  have tells := tells_of_follows aligned has valid.plain follows <| by
    rintro _ ⟨v, hv, rfl⟩
    exact (there v hv).1.isMessage
  obtain ⟨page, answer, messages⟩ := s.answer_all w' direction valid readable tells
  have placed : ∀ e ∈ batchOf ms thread, s.keys.message? w'.tables thread e.1.id = some e.1 ∧
      (s.keys.orderOf w'.tables thread).score? e.1.id = some (scoreFor e.1.createdAt e.2) := by
    intro e he
    obtain ⟨hm, rfl⟩ := mem_batchOf.mp he
    have hv := List.fst_mem_of_mem_zipIdx hm
    exact read_and_placed aligned valid (there e.1 hv) (dated e.1 hv rfl) (new e.1 hv rfl)
      (stored e hm)
  have sorted : part.Pairwise (s.keys.Earlier w'.tables) :=
    pairwise_earlier forward fun e he => ⟨exactly e he, (placed e he).2⟩
  have listed : ∀ v ∈ part, v ∈ s.keys.listing w'.tables thread := by
    intro v hv
    have hv : v ∈ (batchOf ms thread).map (·.1) := by rw [batchOf_map_fst]; exact hv
    obtain ⟨e, he, rfl⟩ := List.mem_map.mp hv
    obtain ⟨read, score⟩ := placed e he
    refine Keyspace.mem_listing.mpr ⟨⟨e.1.id, scoreFor e.1.createdAt e.2⟩, ?_, read⟩
    exact (OrderSnapshot.score?_eq_some_iff (s.keys.tidy_orderOf _ _).2).mp score
  have found := Keyspace.filter_listing_eq tells listed sorted
  refine ⟨page, answer, ?_⟩
  rw [messages]
  cases direction with
  | ascending => exact found
  | descending =>
    show (List.reverse _).filter _ = part.reverse
    rw [List.filter_reverse, found]

end Store

/-! ## A sample -/

namespace Sample

/-- Two new messages of one moment in a thread, with their ids going back, and two messages between
them for the other thread, one of which leaves this one. -/
def mingled : List Message :=
  [.user now "z" "a" "r" "text", .user now "m" "b" "r" "text", .user now "y" "b" "r" "text",
    .user now "l" "a" "r" "text"]

end Sample

namespace Store

theorem mingled_in_order :
    ((Sample.store false).keys.contents Sample.filed.tables).Aligned ∧
    ∃ w', ((Sample.store false).saveMessages Sample.now Sample.mingled).run Faults.none Sample.filed
        = (.ok Sample.mingled, w') ∧
      ∀ direction : SortDirection, ∃ page, (Sample.store false).answer w'
          { threadIds := ["a"], perPage := .all, order := direction } = .ok page ∧
        page.messages.filter (fun x => x.id ∈ ["z", "l"]) = direction.turn
          [.user Sample.now "z" "a" "r" "text", .user Sample.now "l" "a" "r" "text"] := by
  have aligned := Sample.exact_filed.aligned
  have ok : (((Sample.store false).saveMessages Sample.now Sample.mingled).run Faults.none
      Sample.filed).1.isOk = true := by decide +kernel
  obtain ⟨ms, run⟩ := Action.exists_ok ok
  obtain rfl : Sample.mingled = ms := by
    obtain ⟨rfl, -⟩ := (ends_saveMessages aligned.orderly fun _ _ => trivial).ok rfl run
    rfl
  have new : ∀ v ∈ Sample.mingled, v.threadId = "a" → ∀ other,
      ¬ ((Sample.store false).keys.contents Sample.filed.tables).Holds other v.id := by
    intro v hv ht other held
    have free : ∀ v ∈ Sample.mingled, v.threadId = "a" → IsMessage v.id ∧ ∀ thread ∈ ["a", "b"],
        Sample.filed.tables.get? .messages ((Sample.store false).keys.message thread v.id) = none := by
      decide +kernel
    obtain ⟨hi, none⟩ := free v hv ht
    have there : other ∈ ["a", "b"] := by
      obtain ⟨r, hr⟩ := Option.ne_none_iff_exists'.mp held
      rcases Sample.eq_of_hasThread (by decide +kernel) (aligned.placed hr).1 with rfl | rfl
      · exact List.mem_cons_self
      · exact List.mem_cons_of_mem _ List.mem_cons_self
    exact held ((Keyspace.record_contents hi).trans (none other there))
  exact ⟨aligned, _, run, fun direction => batch_listed_in_order (Sample.store false) Faults.none
    Sample.now aligned run (by decide) (by decide +kernel) new (by decide) (by decide) direction⟩

end Store

end ChatMemory
