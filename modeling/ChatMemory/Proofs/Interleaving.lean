import ChatMemory.Proofs.Together
import Mathlib.Data.List.Basic

/-!
# No change is lost

Whatever the order of their steps, clients that change orders leave what they would have left one
after the other: the stored order is the one at the beginning with the committed changes applied to
it, in the order in which the key was granted. Changes that are not committed leave no trace.

This rests on an invariant, `Serial`. The client that stands first in the line of a key is the last
to which the key was granted, and the only one that can do more than wait. What it knows of the
order is still what is stored, because nobody else writes. So a commit applies the change to what
the earlier commits have left.

## Main statements

* `Serial.turn`, `Serial.call` — a step in taking turns and a call keep the invariant.
* `Serial.move` — so does every move.
* `no_change_lost` — the theorem for runs from an opening.
-/

namespace ChatMemory.Crowd

open OrderIndex

variable {k : Keyspace} {t₀ : Tables} {c c' : Crowd} {s : Turns.Step Nat Unit} {name other : Nat}
  {key : String} {x x' y : Client}

/-! ## Turns and histories -/

theorem kept (c : Crowd) : c.turns.Kept := Turns.kept_idle.steps c.trace

theorem inOrder (c : Crowd) (key : String) : (c.history key).InOrder (c.turns.names key) :=
  Turns.kept_idle.inOrder_history c.trace ⟨[], rfl, .slnil, .nil⟩

theorem turns_turn (c : Crowd) (s : Turns.Step Nat Unit) : (c.turn s).turns = (c.turns.step s).1 :=
  Turns.steps_snoc c.trace _ s

theorem history_turn (c : Crowd) (s : Turns.Step Nat Unit) (key : String) :
    (c.turn s).history key = (c.history key).note key c.turns s :=
  Turns.history_snoc key c.trace _ _ s

theorem arrived_turn (c : Crowd) (s : Turns.Step Nat Unit) (key : String) :
    ((c.turn s).history key).arrived = (c.history key).arrived ++ c.turns.arrived key s := by
  rw [history_turn]
  rfl

/-- Nobody but the client that makes a step arrives with it. -/
theorem arrived_of_turn (h : other ∈ ((c.turn s).history key).arrived) (ho : other ≠ s.name) :
    other ∈ (c.history key).arrived := by
  rw [arrived_turn, List.mem_append] at h
  exact h.resolve_right fun h => ho (Turns.eq_of_mem_arrived h)

theorem arrived_of_ticket? {ticket : Ticket Nat Unit}
    (h : c.turns.ticket? name = some ticket) : name ∈ (c.history ticket.key).arrived :=
  (c.inOrder _).arrived_of_mem (c.kept.mem_names.mpr ⟨ticket, h, rfl⟩)

/-! ## Clients -/

theorem put_self (h : c.clients name = some x) : c.put name x = c := by
  have same : (fun other => if other = name then some x else c.clients other) = c.clients := by
    funext other
    split
    · next e => rw [e, h]
    · rfl
  rw [put, same]

theorem clients_put (c : Crowd) (name : Nat) (x : Client) (other : Nat) :
    (c.put name x).clients other = if other = name then some x else c.clients other := rfl

theorem clients_put_eq_some : (c.put name x).clients other = some y ↔
    other = name ∧ y = x ∨ other ≠ name ∧ c.clients other = some y := by
  rw [clients_put]
  by_cases e : other = name
  · rw [if_pos e, Option.some.injEq]
    exact ⟨fun h => .inl ⟨e, h.symm⟩, fun h => (h.resolve_right fun h => h.1 e).2.symm⟩
  · rw [if_neg e]
    exact ⟨fun h => .inr ⟨e, h⟩, fun h => (h.resolve_left fun h => e h.1).2⟩

/-- There is a client of a name, and it has something to change under a key. -/
def Seeks (k : Keyspace) (c : Crowd) (name : Nat) (key : String) : Prop :=
  ∃ x, c.clients name = some x ∧ x.change.key k = key ∧ ¬ x.change.Void

theorem Seeks.put (h : c.Seeks k other key) (hx : c.clients name = some x)
    (change : x'.change = x.change) : (c.put name x').Seeks k other key := by
  obtain ⟨y, hy, there⟩ := h
  by_cases e : other = name
  · obtain rfl := Option.some.inj (hx.symm.trans (e ▸ hy))
    exact ⟨x', clients_put_eq_some.mpr (.inl ⟨e, rfl⟩), change ▸ there⟩
  · exact ⟨y, clients_put_eq_some.mpr (.inr ⟨e, hy⟩), there⟩

/-! ## Commits -/

theorem committed?_eq (h : c.clients name = some x) :
    c.committed? name = if x.rest.passed then some x.change else none := by
  rw [committed?, h, Option.filter_some]
  split <;> rfl

theorem committed?_put_other (h : other ≠ name) :
    (c.put name x).committed? other = c.committed? other := by
  rw [committed?, clients_put, if_neg h]
  rfl

theorem committed?_put (c : Crowd) (name : Nat) (x : Client) :
    (c.put name x).committed? name = if x.rest.passed then some x.change else none :=
  committed?_eq (if_pos rfl)

/-- What becomes of a client to which a key was not granted says nothing about its order. -/
theorem committed_put_of_not_mem (hn : name ∉ (c.history key).granted) :
    (c.put name x).committed key = c.committed key :=
  List.filterMap_congr fun _ hm => committed?_put_other fun e => hn (e ▸ hm)

/-- The last client to which a key was granted is the last one that can be committed. -/
theorem committed_put_last {past : List Nat} (last : (c.history key).granted = past ++ [name])
    (nodup : (c.history key).granted.Nodup) : (c.put name x).committed key
      = past.filterMap c.committed? ++ if x.rest.passed then [x.change] else [] := by
  rw [last] at nodup
  have away : name ∉ past := fun hn =>
    (List.nodup_append.mp nodup).2.2 name hn name (List.mem_singleton_self _) rfl
  show (c.history key).granted.filterMap _ = _
  rw [last, List.filterMap_append]
  congr 1
  · exact List.filterMap_congr fun _ hm => committed?_put_other fun e => away (e ▸ hm)
  · rw [List.filterMap_cons, committed?_put]
    cases x.rest.passed <;> rfl

/-! ## The invariant -/

/-- How far a client has come. -/
inductive Standing (k : Keyspace) (c : Crowd) (name : Nat) (x : Client) : Prop where
  /-- It has not asked for its key yet. -/
  | fresh (starts : x.rest = x.change.action k) (absent : c.turns.ticket? name = none)
    (new : ∀ key, name ∉ (c.history key).arrived)
  | waiting (starts : x.rest = x.change.action k) (waits : c.turns.Waits name (x.change.key k))
  /-- What it does next goes with what is stored. -/
  | holding (first : (c.turns.names (x.change.key k)).head? = some name)
    (works : Working (x.change.key k) x.change.applied
      (c.tables.get? .messages (x.change.key k)) x.rest)
  | finished (ended : x.dropped = true ∨ x.rest = .done () ∨ ∃ error, x.rest = .fail error)
    (absent : c.turns.ticket? name = none)

/-- The order that is stored is what the committed changes make of the one at the beginning. -/
structure Serial (k : Keyspace) (t₀ : Tables) (c : Crowd) : Prop where
  standing : ∀ name x, c.clients name = some x → c.Standing k name x
  asked : ∀ key, ∀ name ∈ (c.history key).arrived, c.Seeks k name key
  once : ∀ key, (c.history key).arrived.Nodup
  granted : ∀ name x, c.clients name = some x → x.rest.passed = true →
    x.change.Void ∨ name ∈ (c.history (x.change.key k)).granted
  stored : ∀ key, c.tables.get? .messages key
    = (c.committed key).foldl (fun stored change => change.applied stored) (t₀.get? .messages key)

theorem Serial.nodup_granted (h : c.Serial k t₀) (key : String) : (c.history key).granted.Nodup :=
  (h.once key).sublist (c.inOrder key).granted_sublist

theorem Serial.asked_of_granted (h : c.Serial k t₀) (hn : name ∈ (c.history key).granted) :
    c.Seeks k name key :=
  h.asked key name ((c.inOrder key).granted_sublist.subset hn)

/-- A client stands as it did if the turns are the same, and what is stored under its key. -/
theorem Standing.congr (h : c.Standing k name x) (trace : c'.trace = c.trace)
    (stored : (c.turns.names (x.change.key k)).head? = some name →
      c'.tables.get? .messages (x.change.key k) = c.tables.get? .messages (x.change.key k)) :
    c'.Standing k name x := by
  have turns : c'.turns = c.turns := by rw [Crowd.turns, trace]; rfl
  have history : c'.history = c.history := by
    funext key
    rw [Crowd.history, trace]
    rfl
  cases h with
  | fresh starts absent new => exact .fresh starts (turns ▸ absent) (history ▸ new)
  | waiting starts waits => exact .waiting starts (turns ▸ waits)
  | holding first works => exact .holding (turns ▸ first) (stored first ▸ works)
  | finished ended absent => exact .finished ended (turns ▸ absent)

/-- A client stands as it did when another one makes a step in taking turns. -/
theorem Standing.turn_other (h : c.Standing k name x) (ho : name ≠ s.name) :
    (c.turn s).Standing k name x := by
  have turns := c.turns_turn s
  cases h with
  | fresh starts absent new =>
    refine .fresh starts ?_ fun key hn => new key (arrived_of_turn hn ho)
    rw [turns, Turns.ticket?_step_other ho, absent]
  | waiting starts waits => exact .waiting starts (turns ▸ waits.step_other ho)
  | holding first works => exact .holding (turns ▸ c.kept.head_step_other first ho) works
  | finished ended absent =>
    refine .finished ended ?_
    rw [turns, Turns.ticket?_step_other ho, absent]

/-! ## Steps in taking turns -/

/-- A client becomes another one with a step in taking turns. It is committed if it was so before,
and if it arrives, then at its own key and for the first time. -/
structure Turning (k : Keyspace) (c : Crowd) (s : Turns.Step Nat Unit) (x x' : Client) : Prop where
  client : c.clients s.name = some x
  change : x'.change = x.change
  passed : x'.rest.passed = x.rest.passed
  arrives : ∀ key, c.turns.arrived key s ≠ [] →
    x.change.key k = key ∧ ¬ x.change.Void ∧ s.name ∉ (c.history key).arrived

namespace Turning

/-- Every client is one from before, with the same change, and committed if it was so. -/
theorem exists_before (g : Turning k c s x x')
    (hy : ((c.turn s).put s.name x').clients name = some y) :
    ∃ y₀, c.clients name = some y₀ ∧ y.change = y₀.change ∧ y.rest.passed = y₀.rest.passed := by
  rcases clients_put_eq_some.mp hy with ⟨rfl, rfl⟩ | ⟨_, hy⟩
  · exact ⟨x, g.client, g.change, g.passed⟩
  · exact ⟨y, hy, rfl, rfl⟩

theorem committed?_eq (g : Turning k c s x x') :
    ((c.turn s).put s.name x').committed? = c.committed? := by
  funext name
  by_cases e : name = s.name
  · rw [e, committed?_put, g.passed, g.change, Crowd.committed?_eq g.client]
  · exact committed?_put_other e

theorem once (g : Turning k c s x x') (h : c.Serial k t₀) (key : String) :
    ((c.turn s).history key).arrived.Nodup := by
  have single : (c.turns.arrived key s).Nodup := by
    rw [Turns.arrived]
    split <;> simp
  rw [arrived_turn]
  refine List.nodup_append.mpr ⟨h.once key, single, fun a ha b hb e => ?_⟩
  obtain rfl := Turns.eq_of_mem_arrived hb
  exact (g.arrives key (List.ne_nil_of_mem hb)).2.2 (e ▸ ha)

theorem asked (g : Turning k c s x x') (h : c.Serial k t₀)
    (hn : name ∈ ((c.turn s).history key).arrived) : c.Seeks k name key := by
  rw [arrived_turn, List.mem_append] at hn
  rcases hn with hn | hn
  · exact h.asked key name hn
  · obtain ⟨hkey, void, _⟩ := g.arrives key (List.ne_nil_of_mem hn)
    obtain rfl := Turns.eq_of_mem_arrived hn
    exact ⟨x, g.client, hkey, void⟩

/-- A key can be granted with the step, but only to a client that is not committed: one that gets
the key now did not have it before. -/
theorem committed_eq (g : Turning k c s x x') (h : c.Serial k t₀) (key : String) :
    ((c.turn s).put s.name x').committed key = c.committed key := by
  obtain ⟨extra, more⟩ := (c.history key).granted_note key c.turns s
  rw [← history_turn] at more
  have arrived := ((c.turn s).inOrder key).granted_sublist
  have nodup := (g.once h key).sublist arrived
  rw [more] at nodup arrived
  have none : extra.filterMap c.committed? = [] := by
    refine List.filterMap_eq_nil_iff.mpr fun name hn => ?_
    obtain ⟨y, hy, hkey, void⟩ := g.asked h (arrived.subset (List.mem_append_right _ hn))
    rw [Crowd.committed?_eq hy, if_neg]
    intro passed
    have before := (h.granted name y hy passed).resolve_left void
    rw [hkey] at before
    exact (List.nodup_append.mp nodup).2.2 name before name hn rfl
  show ((c.turn s).history key).granted.filterMap _ = _
  rw [g.committed?_eq, more, List.filterMap_append, none, List.append_nil]
  rfl

end Turning

theorem Serial.turn (h : c.Serial k t₀) (g : Turning k c s x x')
    (standing : ((c.turn s).put s.name x').Standing k s.name x') :
    ((c.turn s).put s.name x').Serial k t₀ where
  standing name y hy := by
    rcases clients_put_eq_some.mp hy with ⟨rfl, rfl⟩ | ⟨e, hy⟩
    · exact standing
    · exact ((h.standing name y hy).turn_other e).congr rfl fun _ => rfl
  asked key name hn :=
    have sought : (c.turn s).Seeks k name key := g.asked h hn
    sought.put g.client g.change
  once key := g.once h key
  granted name y hy hp := by
    obtain ⟨y₀, hy₀, change, passed⟩ := g.exists_before hy
    rw [change]
    refine (h.granted name y₀ hy₀ (passed ▸ hp)).imp_right fun there => ?_
    obtain ⟨extra, more⟩ := (c.history (y₀.change.key k)).granted_note (y₀.change.key k) c.turns s
    show name ∈ ((c.turn s).history (y₀.change.key k)).granted
    rw [history_turn, more]
    exact List.mem_append_left _ there
  stored key := (g.committed_eq h key).symm ▸ h.stored key

/-! ## Calls -/

/-- A client that holds its key makes a call. If it is committed with that, its change is applied to
what is stored; otherwise nothing changes. -/
theorem Serial.call {t : Tables} (h : c.Serial k t₀) (hx : c.clients name = some x)
    (after : Client) (first : (c.turns.names (x.change.key k)).head? = some name)
    (pending : x.rest.passed = false)
    (change : after.change = x.change)
    (stored : ∀ key, t.get? .messages key = if key = x.change.key k ∧ after.rest.passed = true
      then x.change.applied (c.tables.get? .messages key) else c.tables.get? .messages key)
    (works : Working (x.change.key k) x.change.applied (t.get? .messages (x.change.key k))
      after.rest) :
    ({ c with tables := t }.put name after).Serial k t₀ := by
  obtain ⟨past, last⟩ := (c.inOrder (x.change.key k)).granted_eq first
  have there : name ∈ (c.history (x.change.key k)).granted :=
    last ▸ List.mem_append_right _ (List.mem_singleton_self _)
  refine ⟨fun n y hy => ?_, fun key n hn => (h.asked key n hn).put hx change, h.once,
    fun n y hy hp => ?_, fun key => ?_⟩
  · rcases clients_put_eq_some.mp hy with ⟨rfl, rfl⟩ | ⟨e, hy⟩
    · exact .holding (change ▸ first) (change ▸ works)
    · refine (h.standing n y hy).congr rfl fun first' => ?_
      show t.get? .messages (y.change.key k) = _
      rw [stored, if_neg]
      rintro ⟨hkey, _⟩
      exact e (Option.some.inj ((hkey ▸ first').symm.trans first))
  · rcases clients_put_eq_some.mp hy with ⟨rfl, rfl⟩ | ⟨_, hy⟩
    · exact .inr (change ▸ there)
    · exact h.granted n y hy hp
  · show t.get? .messages key = ((c.put name after).committed key).foldl _ _
    rw [stored]
    by_cases hkey : key = x.change.key k
    · subst hkey
      have nodup := h.nodup_granted (x.change.key k)
      have before : c.committed (x.change.key k) = past.filterMap c.committed? := by
        rw [← put_self hx, committed_put_last last nodup, put_self hx, pending]
        exact List.append_nil _
      rw [committed_put_last last nodup, List.foldl_append, ← before, ← h.stored, change]
      cases after.rest.passed <;> simp
    · have away : name ∉ (c.history key).granted := fun hn => by
        obtain ⟨y, hy, e, _⟩ := h.asked_of_granted hn
        obtain rfl := Option.some.inj (hx.symm.trans hy)
        exact hkey e.symm
      rw [if_neg fun e => hkey e.1, committed_put_of_not_mem away]
      exact h.stored key

/-- A new client changes nothing yet. -/
theorem Serial.start (h : c.Serial k t₀) (new : c.clients name = none) (change : Change) :
    (c.put name { change, rest := change.action k }).Serial k t₀ := by
  have away (key : String) : name ∉ (c.history key).arrived := fun hn => by
    obtain ⟨y, hy, _⟩ := h.asked key name hn
    exact absurd (new.symm.trans hy) (by simp)
  refine ⟨fun n y hy => ?_, fun key n hn => ?_, h.once, fun n y hy hp => ?_, fun key => ?_⟩
  · rcases clients_put_eq_some.mp hy with ⟨rfl, rfl⟩ | ⟨_, hy⟩
    · refine .fresh rfl (Option.eq_none_iff_forall_ne_some.mpr fun ticket ht => ?_) away
      exact away ticket.key (arrived_of_ticket? ht)
    · exact (h.standing n y hy).congr rfl fun _ => rfl
  · obtain ⟨y, hy, there⟩ := h.asked key n hn
    have e : n ≠ name := fun e => away key (e ▸ hn)
    exact ⟨y, clients_put_eq_some.mpr (.inr ⟨e, hy⟩), there⟩
  · rcases clients_put_eq_some.mp hy with ⟨rfl, rfl⟩ | ⟨_, hy⟩
    · refine .inl (Classical.byContradiction fun void => ?_)
      obtain ⟨body, he, _⟩ := Change.action_eq k void
      have starts : (change.action k).passed = true := hp
      rw [he] at starts
      exact absurd starts (by simp [Action.passed])
    · exact h.granted n y hy hp
  · rw [committed_put_of_not_mem fun hn => away key ((c.inOrder key).granted_sublist.subset hn)]
    exact h.stored key

/-! ## Moves -/

theorem Serial.not_void (h : c.Serial k t₀) (hx : c.clients name = some x)
    (waits : c.turns.Waits name key) : ¬ x.change.Void := by
  obtain ⟨ticket, ht, _⟩ := waits
  obtain ⟨y, hy, _, void⟩ := h.asked _ name (arrived_of_ticket? ht)
  obtain rfl := Option.some.inj (hx.symm.trans hy)
  exact void

/-- A client that has not got its key yet asks for it, or looks again. -/
theorem Serial.ask (h : c.Serial k t₀) (hx : c.clients name = some x)
    (starts : x.rest = x.change.action k) (void : ¬ x.change.Void) (failure : Option KvError)
    (asks : c.turns.ticket? name = none ∧ (∀ key, name ∉ (c.history key).arrived) ∨
      c.turns.Waits name (x.change.key k)) :
    (c.advance name x failure).Serial k t₀ := by
  obtain ⟨body, action, pending, works⟩ := x.change.action_eq k void
  have rest : x.rest = .enter (x.change.key k) body := starts.trans action
  let s := c.turns.asking name (x.change.key k)
  have arrives : ∀ key, c.turns.arrived key s ≠ [] →
      x.change.key k = key ∧ ¬ x.change.Void ∧ name ∉ (c.history key).arrived := by
    intro key hkey
    rcases asks with ⟨absent, new⟩ | ⟨ticket, ht, _⟩
    · refine ⟨?_, void, new key⟩
      simp only [s, Turns.asking, absent, Turns.arrived] at hkey
      refine Classical.byContradiction fun e => hkey (if_neg ?_)
      rintro ⟨_, e'⟩
      exact e (Option.some.inj e')
    · refine absurd (if_neg ?_) hkey
      simp [s, Turns.asking, ht, Turns.Step.name]
  have out : (c.turns.step s).2 = .held ∧
        ((c.turns.step s).1.names (x.change.key k)).head? = some name ∧ _ ∨
      (c.turns.step s).2 = .waiting ∧ (c.turns.step s).1.Waits name (x.change.key k) :=
    c.kept.ask (asks.imp_left (·.1))
  rw [← turns_turn] at out
  have named : s.name = name := Turns.name_asking ..
  rw [advance, rest]
  show (if (c.turns.step s).2 = .held then (c.turn s).put name { x with rest := body }
    else c.turn s).Serial k t₀
  clear_value s
  subst named
  rcases out with ⟨held, first, _⟩ | ⟨waiting, waits⟩
  · rw [if_pos held]
    have entered : Turning k c s x { x with rest := body } :=
      ⟨hx, rfl, by rw [rest]; exact pending, arrives⟩
    exact h.turn entered (.holding first (works _))
  · rw [if_neg (by rw [waiting]; decide)]
    have same : (c.turn s).put s.name x = c.turn s := put_self hx
    rw [← same]
    exact h.turn ⟨hx, rfl, rfl, arrives⟩ (.waiting starts waits)

/-- A client gives up its turn, or its place in the line. -/
theorem Serial.leave (h : c.Serial k t₀) (hx : c.clients name = some x)
    (change : x'.change = x.change) (passed : x'.rest.passed = x.rest.passed)
    (ended : x'.dropped = true ∨ x'.rest = .done () ∨ ∃ error, x'.rest = .fail error) :
    ((c.turn (.drop name)).put name x').Serial k t₀ := by
  refine h.turn ⟨hx, change, passed, fun key hkey => ?_⟩ (.finished ended ?_)
  · refine absurd (if_neg ?_) hkey
    simp [Turns.Step.key?]
  · show (c.turn (.drop name)).turns.ticket? name = none
    rw [turns_turn]
    exact Turns.ticket?_drop _ _

/-- A call that fails changes nothing, and the client gives up. -/
theorem Serial.refused (h : c.Serial k t₀) (hx : c.clients name = some x)
    (first : (c.turns.names (x.change.key k)).head? = some name) (pending : x.rest.passed = false)
    {p : Action Unit} (refused : Refused (x.change.key k) p) :
    (c.put name { x with rest := p }).Serial k t₀ := by
  have failed : p.passed = false := by
    obtain ⟨error, rfl⟩ := refused
    rfl
  refine h.call hx { x with rest := p } first pending rfl (fun key => ?_)
    (.decided (.refuse refused))
  rw [if_neg fun e => absurd (failed.symm.trans e.2) (by simp)]

/-- The last call of a client: its change is what is stored then. -/
theorem Serial.commit (h : c.Serial k t₀) (hx : c.clients name = some x)
    (first : (c.turns.names (x.change.key k)).head? = some name) {r : Request}
    {next : Except KvError r.Answer → Action Unit} (rest : x.rest = .call r next)
    (last : Last (x.change.key k) next)
    (effect : c.tables.ChangedAt (r.effect c.tables) .messages (x.change.key k)
      (x.change.applied (c.tables.get? .messages (x.change.key k))))
    (failure : Option KvError) : (c.advance name x failure).Serial k t₀ := by
  have pending : x.rest.passed = false := by rw [rest]; rfl
  rw [advance, rest]
  cases failure with
  | some error => exact h.refused hx first pending (last.bad error)
  | none =>
    dsimp only
    rw [last.good]
    refine h.call hx { x with rest := .leave (x.change.key k) (.done ()) } first pending rfl
      (fun key => ?_) .committed
    rw [effect]
    by_cases e : key = x.change.key k
    · rw [if_pos ⟨rfl, e⟩, if_pos ⟨e, rfl⟩, e]
    · rw [if_neg fun both => e both.2, if_neg fun both => e both.1]

/-- A client that holds its key makes its next step. -/
theorem Serial.work (h : c.Serial k t₀) (hx : c.clients name = some x)
    (first : (c.turns.names (x.change.key k)).head? = some name)
    (works : Working (x.change.key k) x.change.applied
      (c.tables.get? .messages (x.change.key k)) x.rest) (failure : Option KvError) :
    (c.advance name x failure).Serial k t₀ := by
  generalize hr : x.rest = rest at works
  cases works with
  | @read next good bad =>
    have pending : x.rest.passed = false := by rw [hr]; rfl
    rw [advance, hr]
    cases failure with
    | some error => exact h.refused hx first pending (bad error)
    | none =>
      have decided := good (c.tables.get? .messages (x.change.key k))
      refine h.call hx { x with rest := _ } first pending rfl (fun key => ?_)
        (.decided decided)
      -- Only a client that has nothing to change is committed with the reading.
      split
      · next both =>
        obtain ⟨rfl, passed⟩ := both
        exact (decided.eq_of_passed passed).symm
      · rfl
  | committed =>
    rw [advance, hr]
    exact h.leave hx rfl (by rw [hr]; rfl) (.inr (.inl rfl))
  | decided decided =>
    cases decided with
    | write change last =>
      exact h.commit hx first hr last (change ▸ c.tables.changedAt_put _ _ _) failure
    | erase change last =>
      exact h.commit hx first hr last (change ▸ c.tables.changedAt_delete _ _) failure
    | keep change =>
      rw [advance, hr]
      exact h.leave hx rfl (by rw [hr]; rfl) (.inr (.inl rfl))
    | refuse refused =>
      obtain ⟨error, rfl⟩ := refused
      rw [advance, hr]
      exact h.leave hx rfl (by rw [hr]; rfl) (.inr (.inr ⟨error, rfl⟩))

/-- Whatever happens next, the invariant is kept. -/
theorem Serial.move (h : c.Serial k t₀) (m : Move) : (c.move k m).Serial k t₀ := by
  cases m with
  | start name change =>
    rw [Crowd.move]
    cases hx : c.clients name with
    | some x => exact h
    | none => exact h.start hx change
  | drop name =>
    rw [Crowd.move]
    cases hx : c.clients name with
    | some x => exact h.leave hx rfl rfl (.inl rfl)
    | none => exact h
  | go name failure =>
    rw [Crowd.move]
    cases hx : c.clients name with
    | none => exact h
    | some x =>
      dsimp only
      split
      · exact h
      · next there =>
        cases h.standing name x hx with
        | fresh starts absent new =>
          by_cases void : x.change.Void
          · rw [advance, starts, Change.action_of_void void]
            exact h
          · exact h.ask hx starts void failure (.inl ⟨absent, new⟩)
        | waiting starts waits => exact h.ask hx starts (h.not_void hx waits) failure (.inr waits)
        | holding first works => exact h.work hx first works failure
        | finished ended absent =>
          rcases ended with gone | done | ⟨error, failed⟩
          · exact absurd gone there
          · rw [advance, done]
            exact h
          · rw [advance, failed]
            exact h

theorem serial_opening (k : Keyspace) (t : Tables) : (opening t).Serial k t where
  standing _ _ h := absurd h (by simp [opening])
  asked _ _ h := absurd h List.not_mem_nil
  once _ := .nil
  granted _ _ h := absurd h (by simp [opening])
  stored _ := rfl

theorem Serial.moves : ∀ (ms : List Move) {c : Crowd}, c.Serial k t₀ → (c.moves k ms).Serial k t₀
  | [], _, h => h
  | m :: rest, _, h => Serial.moves rest (h.move m)

/--
Whatever clients make changes to whatever threads, and however their steps are interleaved,
whichever calls fail and whoever is dropped: the order that is stored for a thread at the end is the
one at the beginning with the committed changes applied to it, one after the other, in the order in
which their clients were granted the key. Each client is granted its key once. A client whose change
ended well is among them, unless there was nothing to do at all, and one whose change ended with an
error is not committed.
-/
theorem no_change_lost (k : Keyspace) (t : Tables) (ms : List Move) (thread : String) :
    let c := (opening t).moves k ms
    let granted := (c.history (k.order thread)).granted
    c.tables.get? .messages (k.order thread)
        = (granted.filterMap c.committed?).foldl (fun stored change => change.applied stored)
            (t.get? .messages (k.order thread)) ∧
      granted.Nodup ∧
      (∀ name ∈ granted, ∃ x, c.clients name = some x ∧ x.change.thread = thread) ∧
      ∀ name x, c.clients name = some x → x.change.thread = thread →
        (x.rest = .done () → ¬ x.change.Void →
          name ∈ granted ∧ c.committed? name = some x.change) ∧
        ∀ error, x.rest = .fail error → c.committed? name = none := by
  intro c granted
  have h : c.Serial k t := (serial_opening k t).moves ms
  refine ⟨h.stored _, h.nodup_granted _, fun name hn => ?_, fun name x hx ht => ⟨?_, ?_⟩⟩
  · obtain ⟨x, hx, hkey, _⟩ := h.asked_of_granted hn
    exact ⟨x, hx, Keyspace.message_inj_left hkey⟩
  · intro done void
    have passed : x.rest.passed = true := by rw [done]; rfl
    refine ⟨?_, by rw [committed?_eq hx, if_pos passed]⟩
    have there := (h.granted name x hx passed).resolve_left void
    rwa [Change.key, ht] at there
  · intro error failed
    rw [committed?_eq hx, failed]
    rfl

-- The second client waits while the first one reads and writes; the third one is dropped before it
-- has written, and the fourth one cannot write.
example :
    let c := (opening .empty).moves ⟨""⟩ [
      .start 1 (.add "t" [⟨"m", .ofInt 1⟩]), .start 2 (.add "t" [⟨"n", .ofInt 2⟩]),
      .start 3 (.clear "t"), .start 4 (.remove "t" ["m"]),
      .go 1 none, .go 2 none, .go 3 none, .go 4 none, .go 1 none, .go 2 none, .go 1 none,
      .go 1 none, .go 2 none, .go 2 none, .go 2 none, .go 2 none, .go 3 none, .drop 3,
      .go 4 none, .go 4 none, .go 4 (some (.backend "down")), .go 4 none]
    (c.history "messages:t:messages").granted = [1, 2, 3, 4] ∧
      (OrderEntry.ofStored (c.tables.get? .messages "messages:t:messages")).toOption.map
        (·.map (·.id)) = some ["m", "n"] := by decide +kernel

end ChatMemory.Crowd
