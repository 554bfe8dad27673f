import ChatMemory.Proofs.Paging
import ChatMemory.Proofs.Tracking

/-!
# The newest messages

The last messages of a thread can be read in two ways: straight from the end of its order, or as the
first page of a descending listing. The second way cuts the order by its own arithmetic, drops what has
an id that came before and sorts by score, but both look at the same ids and make the same calls
(`Store.newestOf`). What is read for entries one after the other is in order already, also when nothing
can be read for some of them. So the two readings give the same messages, in opposite directions.

## Main statements

* `OrderSnapshot.lastN_eq` — the last ids of an order.
* `listRecent_eq_newest` — the two ways agree.
-/

namespace ChatMemory

open Action

/-! ## The end of an order -/

namespace OrderSnapshot

/-- The last entries of an order, all of them if there are fewer. -/
def lastEntries (o : OrderSnapshot) (n : Nat) : List OrderEntry := o.entries.drop (o.length - n)

theorem lastEntries_sublist (o : OrderSnapshot) (n : Nat) : (o.lastEntries n).Sublist o.entries :=
  List.drop_sublist _ _

theorem lastN_eq (o : OrderSnapshot) (n : Nat) : o.lastN n = (o.lastEntries n).map (·.id) := by
  unfold lastN lastEntries
  split
  · next none =>
    rw [List.drop_of_length_le, List.map_nil]
    simp only [length] at none ⊢
    omega
  · next some =>
    have first : -((min n o.length : Nat) : Int) < 0 := by omega
    have last : (-1 : Int) < 0 := by decide
    simp only [range, if_pos first, if_pos last]
    rw [if_neg (by omega)]
    have start : (max ((o.length : Int) + -((min n o.length : Nat) : Int)) 0).toNat
        = o.length - n := by omega
    rw [start, List.take_of_length_le]
    simp only [List.length_drop, length] at some ⊢
    omega

end OrderSnapshot

/-! ## Threads that tell their keys -/

/-- Whatever is read as a message of a thread carries its id and the thread. -/
def Keyspace.Told (k : Keyspace) (t : Tables) (thread : String) : Prop :=
  ∀ id x, id ≠ orderField → k.message? t thread id = some x → x.id = id ∧ x.threadId = thread

instance (k : Keyspace) (t : Tables) (thread : String) : Decidable (k.Told t thread) :=
  decidable_of_iff (∀ row ∈ t.messages.entries, ∀ id ∈ Text.after? (k.messagesStart thread) row.1,
      id ≠ Keyspace.orderField → ∀ x ∈ (Message.ofRecord row.2).toOption,
        x.id = id ∧ x.threadId = thread) <| by
    constructor
    · intro rows id x hid hx
      obtain ⟨r, stored, read⟩ := Option.bind_eq_some_iff.mp hx
      have key := Keyspace.after?_messagesStart_eq_some_iff.mpr (Eq.refl (k.message thread id))
      exact rows _ (Rows.mem_entries_iff.mpr stored) id key hid x read
    · rintro told ⟨key, r⟩ row id named hid x read
      obtain rfl := Keyspace.after?_messagesStart_eq_some_iff.mp named
      exact told id x hid (Option.bind_eq_some_iff.mpr ⟨r, Rows.mem_entries_iff.mp row, read⟩)

/-- The order itself is no message, so what is read for its entries carries their ids. -/
theorem Keyspace.Told.tells {k : Keyspace} {t : Tables} {thread : String}
    {entries : List OrderEntry} (told : k.Told t thread)
    (h : OrderEntry.ofStored (k.stored t thread orderField) = .ok entries) :
    k.Tells t thread (OrderSnapshot.ofEntries entries).entries := by
  intro e _ x hx
  refine told e.id x (fun reserved => ?_) hx
  exact Message.not_readFrom_of_readable ⟨entries, h⟩ (message?_eq_some_iff.mp (reserved ▸ hx))

/-! ## The common part -/

/-- The question for the last messages of a thread, the newest first. -/
def MessageQuery.newest (thread : String) (n : Nat) : MessageQuery where
  threadIds := [thread]
  perPage := .limit n
  order := .descending

namespace Store

variable {s : Store} {t t' : Tables} {thread : String} {n : Nat}

/-- The window of the newest messages is the end of the order. -/
theorem idsBetween_newest (o : OrderSnapshot) (n : Nat) :
    idsBetween o (windowBounds .descending o.length 0 n) = (o.lastEntries n).map (·.id) := by
  rw [idsBetween_eq (windowBounds_le ..), OrderSnapshot.lastEntries]
  simp only [windowBounds]
  rw [Nat.sub_zero, List.take_of_length_le]
  exact Nat.le_of_eq List.length_drop

/-- The order of a thread and the messages of its last entries. -/
def newestOf (s : Store) (thread : String) (n : Nat) : Action (OrderSnapshot × List Message) := do
  let order ← OrderIndex.snapshot s.keys thread
  let messages ← s.fetchMany (((order.lastEntries n).map (·.id)).map fun id => (thread, id))
  return (order, messages)

/-- The page of the newest messages. -/
def newestPage (thread : String) (n : Nat) (found : OrderSnapshot × List Message) : MessagePage :=
  let q := MessageQuery.newest thread n
  let selected := arrange [(thread, found.1)] q.order found.2
  ⟨selected, found.1.length, q.page, q.perPage, hasMore q ⟨found.2, found.1.length⟩ selected⟩

theorem reports_newestOf (s : Store) (thread : String) (n : Nat) :
    (s.newestOf thread n).Reports s.keys (·.isValidation = false) :=
  reports_bind (s.reports_snapshot (fun _ _ => rfl) thread) fun _ =>
    reports_bind (s.reports_fetchMany _) fun _ => trivial

theorem collectPage_newest (s : Store) (thread : String) (n : Nat) :
    s.collectPage (.newest thread n) = newestPage thread n <$> s.newestOf thread n := by
  have window : s.window (.newest thread n) = s.indexedWindow (.newest thread n) thread n := rfl
  have offset : (MessageQuery.newest thread n).perPage.offset 0 = 0 := Nat.zero_mul n
  rw [collectPage_eq, window, indexedWindow, newestOf, map_eq_pure_bind]
  simp only [bind_assoc, pure_bind]
  refine bind_congr fun order => ?_
  rw [show (MessageQuery.newest thread n).page = 0 from rfl, offset,
    show (MessageQuery.newest thread n).order = .descending from rfl, idsBetween_newest]
  refine bind_congr fun messages => ?_
  -- Nothing is included.
  have page : s.pageFrom (.newest thread n) (⟨messages, order.length⟩, [(thread, order)])
      = pure (newestPage thread n (order, messages ++ [])) := rfl
  rw [page, List.append_nil]

theorem listMessages_newest (valid : Identifier.Valid thread) :
    s.listMessages (.newest thread n)
      = (newestPage thread n <$> s.newestOf thread n).orEmpty (.empty (.newest thread n)) := by
  have checked : queryViolations (.newest thread n) = [] :=
    (MessageQuery.valid_of_thread valid (.limit n) .descending).2
  rw [← collectPage_newest, listMessages, checked]
  rfl

theorem listRecent_eq (valid : Identifier.Valid thread) :
    s.listRecent thread n = (Prod.snd <$> s.newestOf thread n).orEmpty [] := by
  rw [listRecent, Identifier.violations_eq_nil.mpr valid, newestOf, map_eq_pure_bind]
  simp only [bind_assoc, pure_bind, bind_pure, OrderSnapshot.lastN_eq]
  rfl

/-! ## The same messages -/

/-- What is read for the last entries of an order is listed in their order. -/
theorem arrange_lastEntries {order : OrderSnapshot} (tells : s.keys.Tells t thread order.entries)
    (tidy : OrderSnapshot.Tidy order.entries) :
    arrange [(thread, order)] .descending (s.keys.messagesOf t thread (order.lastEntries n))
      = (s.keys.messagesOf t thread (order.lastEntries n)).reverse := by
  have part : (s.keys.messagesOf t thread (order.lastEntries n)).Sublist
      (arrange [(thread, order)] .ascending (s.keys.messagesOf t thread order.entries)) := by
    rw [tells.arrange_messagesOf tidy]
    exact (order.lastEntries_sublist n).filterMap _
  rw [arrange_eq_turn, arrange_of_sublist part]
  rfl

/-- The messages of the page are those read for the end of the order, turned round. -/
theorem messages_newestPage {order : OrderSnapshot} {messages : List Message}
    (told : s.keys.Told t thread) (h : (s.newestOf thread n).Yields t (order, messages) t') :
    (newestPage thread n (order, messages)).messages = messages.reverse := by
  obtain ⟨order', t₁, loaded, h⟩ := yields_bind.mp h
  obtain ⟨rfl, entries, he, rfl⟩ := OrderIndex.yields_snapshot.mp loaded
  obtain ⟨messages', t₂, fetched, h⟩ := yields_bind.mp h
  obtain ⟨found, rfl⟩ := yields_pure.mp h
  obtain ⟨rfl, rfl⟩ := Prod.mk.inj found
  obtain ⟨read, _⟩ := Prod.mk.inj (fetched.symm.trans (s.yields_fetchMany_entries ..))
  obtain rfl := Except.ok.inj read
  exact arrange_lastEntries (told.tells he) (OrderSnapshot.tidy_ofEntries entries)

/--
The last `n` messages of a thread are the first page of `n` of its messages, the newest first, turned
round, as long as what can be read in the thread carries its id and the thread. The order may name
messages that are missing or do not decode, it may be missing or not decode itself, and any calls may
fail: each of the two readings gives an answer, and the answers agree.
-/
theorem listRecent_eq_newest (s : Store) (faults : Faults) (w : World) (thread : String) (n : Nat)
    (valid : Identifier.Valid thread) (told : s.keys.Told w.tables thread) :
    ∃ page, ((s.listMessages
        { threadIds := [thread], perPage := .limit n, order := .descending }).run faults w).1
          = .ok page ∧
      ((s.listRecent thread n).run faults w).1 = .ok page.messages.reverse := by
  have reports := s.reports_newestOf thread n
  have asked : ({ threadIds := [thread], perPage := .limit n, order := .descending } : MessageQuery)
    = .newest thread n := rfl
  rw [asked, listMessages_newest valid, listRecent_eq valid,
    Reports.run_orEmpty (reports_map reports), Reports.run_orEmpty (reports_map reports),
    run_map, run_map]
  refine ⟨_, rfl, congrArg Except.ok ?_⟩
  rcases result : (s.newestOf thread n).run faults w with ⟨error | found, w'⟩
  · rfl
  · have listed := messages_newestPage told (yields_of_run reports.strict result)
    dsimp only [Except.map, Except.toOption, Option.getD_some]
    rw [listed, List.reverse_reverse]

end Store

namespace Sample

/-- The three messages, of which the first has lost its record and the second has one that does not
decode. -/
def worn : World :=
  let keys := (store false).keys
  let missing := three.tables.delete .messages (keys.message "a" "m")
  { three with tables := missing.put .messages (keys.message "a" "n") (.str "text") }

end Sample

namespace Store

/-- The last two of three entries, of which only the last is read. -/
theorem newest_of_worn : Identifier.Valid "a" ∧ (Sample.store false).keys.Told Sample.worn.tables "a" ∧
    ∃ page, (((Sample.store false).listMessages
        { threadIds := ["a"], perPage := .limit 2, order := .descending }).run Faults.none
          Sample.worn).1 = .ok page ∧
      (((Sample.store false).listRecent "a" 2).run Faults.none Sample.worn).1
        = .ok page.messages.reverse := by
  have valid : Identifier.Valid "a" := by decide
  have told : (Sample.store false).keys.Told Sample.worn.tables "a" := by decide +kernel
  exact ⟨valid, told, listRecent_eq_newest (Sample.store false) Faults.none Sample.worn "a" 2 valid told⟩

example : ((((Sample.store false).listRecent "a" 2).run Faults.none Sample.worn).1.toOption.map
    fun ms => ms.map (·.id)) = some ["o"] := by decide +kernel

end Store

end ChatMemory
