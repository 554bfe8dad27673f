import ChatMemory.Proofs.Ends
import ChatMemory.Proofs.Records
import ChatMemory.Proofs.View

/-!
# Orderly contents

What every operation relies on and leaves behind, also when it is stopped half way: messages stand
under threads that exist, records tell the same id and thread as their keys, and the orders of the
threads can be read.

How much is known of a record differs from one result to the next, so it is a parameter. A
`RecordRule` says which records there may be, and that the ones which the store writes are among them.

## Main statements

* `Orderly.setRecord`, `Orderly.setIndex`, … — the changes that the store makes keep contents orderly.
* `Follows.trans` — contents that follow each other.
-/

namespace ChatMemory

/-- Which records there may be. -/
structure RecordRule where
  /-- The threads that may have messages. -/
  threads : String → Prop
  /-- The dates that messages may have. -/
  dates : Instant → Prop
  /-- The records that a thread may have under an id. -/
  admits : String → String → Json → Prop
  plain : ∀ {thread}, threads thread → Plain thread
  valid : ∀ {thread}, Identifier.Valid thread → threads thread
  thread_of : ∀ {thread id r}, admits thread id r → threads thread
  message_of : ∀ {thread id r}, admits thread id r → IsMessage id
  agrees : ∀ {thread id r x}, admits thread id r → Message.ofRecord r = .ok x →
    x.threadId = thread ∧ x.id = id
  dated : ∀ {thread id r x}, admits thread id r → Message.ofRecord r = .ok x → dates x.createdAt
  record : ∀ {x : Message}, threads x.threadId → Identifier.ValidMessage x.id →
    dates x.createdAt → ∀ position, admits x.threadId x.id (x.toRecord position)
  moved : ∀ {x : Message}, threads x.threadId → Identifier.ValidMessage x.id →
    dates x.createdAt → ∀ origin, admits x.threadId x.id (x.toMovedRecord origin)

namespace Contents

variable {R : RecordRule} {c c' c'' : Contents} {names names' : String → Prop}

/-- Contents with every message under a thread, and with orders that can be read. -/
structure Orderly (R : RecordRule) (c : Contents) : Prop where
  placed : ∀ {thread id r}, c.record thread id = some r → c.HasThread thread ∧ R.admits thread id r
  readable : ∀ {thread}, c.HasThread thread → StoredOrder.Readable (c.index thread)

namespace Orderly

theorem hasThread (h : Orderly R c) {thread id : String} (hh : c.Holds thread id) :
    c.HasThread thread := by
  obtain ⟨r, hr⟩ := Option.ne_none_iff_exists'.mp hh
  exact (h.placed hr).1

theorem plain (h : Orderly R c) {thread id : String} (hh : c.Holds thread id) : Plain thread := by
  obtain ⟨r, hr⟩ := Option.ne_none_iff_exists'.mp hh
  exact R.plain (R.thread_of (h.placed hr).2)

theorem isMessage (h : Orderly R c) {thread id : String} (hh : c.Holds thread id) :
    IsMessage id := by
  obtain ⟨r, hr⟩ := Option.ne_none_iff_exists'.mp hh
  exact R.message_of (h.placed hr).2

theorem parted (h : Orderly R c) : c.Parted := fun _ _ hh => h.plain hh

/-! ## Changes -/

theorem setRecord (h : Orderly R c) {thread id : String} {r : Json} (ht : c.HasThread thread)
    (hr : R.admits thread id r) : Orderly R (c.setRecord thread id (some r)) where
  placed {thread' id' r'} h' := by
    rw [record_setRecord] at h'
    split at h'
    · next e =>
      obtain ⟨rfl, rfl⟩ := e
      obtain rfl := Option.some.inj h'
      exact ⟨ht, hr⟩
    · exact h.placed h'
  readable ht' := h.readable ht'

theorem eraseRecord (h : Orderly R c) (thread id : String) :
    Orderly R (c.setRecord thread id none) where
  placed {thread' id' r'} h' := by
    rw [record_setRecord] at h'
    split at h'
    · exact absurd h' (by simp)
    · exact h.placed h'
  readable ht' := h.readable ht'

theorem setIndex (h : Orderly R c) (thread : String) {v : Option Json}
    (hv : StoredOrder.Readable v) : Orderly R (c.setIndex thread v) where
  placed h' := h.placed h'
  readable {thread'} ht' := by
    rw [index_setIndex]
    split
    · exact hv
    · exact h.readable ht'

theorem setPointer (h : Orderly R c) (id : String) (v : Option Json) :
    Orderly R (c.setPointer id v) where
  placed h' := h.placed h'
  readable ht' := h.readable ht'

theorem setThread (h : Orderly R c) {thread : String} (ht : c.HasThread thread) (v : Json) :
    Orderly R (c.setThread thread (some v)) where
  placed h' := by
    rw [hasThread_setThread ht.2]
    exact h.placed h'
  readable {thread'} ht' := h.readable (by rw [hasThread_setThread ht.2] at ht'; exact ht')

end Orderly

/-! ## What follows orderly contents -/

/-- Orderly contents that differ from earlier ones in the views of some messages only. -/
structure Follows (R : RecordRule) (names : String → Prop) (c c' : Contents) : Prop where
  within : Within names c c'
  orderly : Orderly R c'

namespace Follows

theorem refl (h : Orderly R c) : Follows R names c c := ⟨.refl names c, h⟩

theorem trans (h : Follows R names c c') (h' : Follows R names c' c'') :
    Follows R names c c'' := ⟨h.within.trans h'.within, h'.orderly⟩

theorem mono (h : Follows R names c c') (hn : ∀ id, names id → names' id) :
    Follows R names' c c' := ⟨h.within.mono hn, h.orderly⟩

theorem setRecord (h : Follows R names c c') {thread id : String} {r : Json} (hid : names id)
    (ht : c'.HasThread thread) (hr : R.admits thread id r) :
    Follows R names c (c'.setRecord thread id (some r)) :=
  ⟨h.within.trans (within_setRecord hid _), h.orderly.setRecord ht hr⟩

theorem eraseRecord (h : Follows R names c c') (thread : String) {id : String} (hid : names id) :
    Follows R names c (c'.setRecord thread id none) :=
  ⟨h.within.trans (within_setRecord hid _), h.orderly.eraseRecord thread id⟩

theorem added (h : Follows R names c c') {thread : String} (ht : c'.HasThread thread)
    {entries : List OrderEntry} (hn : ∀ e ∈ entries, names e.id) :
    Follows R names c (c'.setIndex thread (StoredOrder.added (c'.index thread) entries)) :=
  ⟨h.within.trans (within_added ht (h.orderly.readable ht) hn),
    h.orderly.setIndex thread (StoredOrder.readable_changed (h.orderly.readable ht))⟩

theorem removed (h : Follows R names c c') {thread : String} (ht : c'.HasThread thread)
    {ids : List String} (hn : ∀ id ∈ ids, names id) :
    Follows R names c (c'.setIndex thread (StoredOrder.removed (c'.index thread) ids)) :=
  ⟨h.within.trans (within_removed hn),
    h.orderly.setIndex thread (StoredOrder.readable_changed (h.orderly.readable ht))⟩

theorem setPointer (h : Follows R names c c') {id : String} (hid : names id) (v : Option Json) :
    Follows R names c (c'.setPointer id v) :=
  ⟨h.within.trans (within_setPointer hid v), h.orderly.setPointer id v⟩

theorem setThread (h : Follows R names c c') {thread : String} (ht : c'.HasThread thread)
    (v : Json) : Follows R names c (c'.setThread thread (some v)) :=
  ⟨h.within.trans (within_setThread ht v), h.orderly.setThread ht v⟩

end Follows

/-! ## Many messages one by one -/

section Local

variable {α β : Type} {k : Keyspace} {faults : Faults} (of : α → String → Prop) {F : Prop}

/--
Actions that are each about messages of their own, done one after the other. Each finds the views of
its messages as they were before all of them. So what one action does to a view (`L`), or may have
done when it fails (`P`) for a reason (`F`), is what the whole list does.
-/
theorem ends_each_local {f : α → Action β} {L : α → β → String → View → View → Prop}
    {P : α → String → View → View → Prop} :
    ∀ {l : List α} {c : Contents}, l.Pairwise (fun a b => ∀ id, of a id → ¬ of b id) →
    (∀ a ∈ l, ∀ c₀, Follows R (fun id => ¬ of a id) c c₀ → Action.Ends k faults (f a) c₀
      (fun y c' => Follows R (of a) c₀ c' ∧ ∀ id, of a id → L a y id (c₀.view id) (c'.view id))
      (fun _ c' => F ∧ Follows R (of a) c₀ c' ∧
        ∀ id, of a id → P a id (c₀.view id) (c'.view id))) →
    Orderly R c → Action.Ends k faults (Action.each f l) c
      (fun ys c' => Follows R (fun id => ∃ a ∈ l, of a id) c c' ∧
        (∀ a ∈ l, ∃ y ∈ ys, ∀ id, of a id → L a y id (c.view id) (c'.view id)) ∧
        ∀ y ∈ ys, ∃ a ∈ l, ∀ id, of a id → L a y id (c.view id) (c'.view id))
      (fun _ c' => F ∧ Follows R (fun id => ∃ a ∈ l, of a id) c c' ∧
        ∀ a ∈ l, ∀ id, of a id → (∃ y, L a y id (c.view id) (c'.view id)) ∨
          P a id (c.view id) (c'.view id) ∨ c'.view id = c.view id)
  | [], c, _, _, h => Action.ends_done ⟨.refl h, by simp, by simp⟩
  | a :: rest, c, disjoint, step, h => by
    obtain ⟨apart, disjoint⟩ := List.pairwise_cons.mp disjoint
    have here : ∀ id, of a id → ∃ b ∈ a :: rest, of b id := fun id hid =>
      ⟨a, List.mem_cons_self, hid⟩
    have later : ∀ id, (∃ b ∈ rest, of b id) → ∃ b ∈ a :: rest, of b id :=
      fun id ⟨b, hb, hid⟩ => ⟨b, List.mem_cons_of_mem _ hb, hid⟩
    refine (step a List.mem_cons_self c (.refl h)).andThen (fun e c₁ ⟨hF, h₁, part⟩ => ?_)
      fun y c₁ ⟨h₁, whole⟩ => ?_
    · refine ⟨hF, h₁.mono here, fun b hb id hid => ?_⟩
      rcases List.mem_cons.mp hb with rfl | hb
      · exact Or.inr (Or.inl (part id hid))
      · exact Or.inr (Or.inr (h₁.within.view id fun hid' => apart b hb id hid' hid))
    -- The rest leaves the views of `a` alone, as `a` left those of the rest.
    have first : ∀ {c₂}, Follows R (fun id => ∃ b ∈ rest, of b id) c₁ c₂ → ∀ id, of a id →
        c₂.view id = c₁.view id := fun h₂ id hid =>
      h₂.within.view id fun ⟨b, hb, hid'⟩ => apart b hb id hid hid'
    have before : ∀ b ∈ rest, ∀ id, of b id → c₁.view id = c.view id := fun b hb id hid =>
      h₁.within.view id fun hid' => apart b hb id hid' hid
    refine (ends_each_local disjoint (fun b hb c₀ h₀ => step b (List.mem_cons_of_mem _ hb) c₀
      ((h₁.mono fun id => apart b hb id).trans h₀)) h₁.orderly).andThen
      (fun e c₂ ⟨hF, h₂, rest'⟩ => ?_) fun ys c₂ ⟨h₂, all, each⟩ => ?_
    · refine ⟨hF, (h₁.mono here).trans (h₂.mono later), fun b hb id hid => ?_⟩
      rcases List.mem_cons.mp hb with rfl | hb
      · rw [first h₂ id hid]
        exact Or.inl ⟨y, whole id hid⟩
      · have := rest' b hb id hid
        rwa [before b hb id hid] at this
    have whole' : ∀ id, of a id → L a y id (c.view id) (c₂.view id) := fun id hid => by
      rw [first h₂ id hid]
      exact whole id hid
    refine Action.ends_pure ⟨(h₁.mono here).trans (h₂.mono later), fun b hb => ?_, fun z hz => ?_⟩
    · rcases List.mem_cons.mp hb with rfl | hb
      · exact ⟨y, List.mem_cons_self, whole'⟩
      · obtain ⟨z, hz, hL⟩ := all b hb
        exact ⟨z, List.mem_cons_of_mem _ hz, fun id hid => before b hb id hid ▸ hL id hid⟩
    · rcases List.mem_cons.mp hz with rfl | hz
      · exact ⟨a, List.mem_cons_self, whole'⟩
      · obtain ⟨b, hb, hL⟩ := each z hz
        exact ⟨b, List.mem_cons_of_mem _ hb, fun id hid => before b hb id hid ▸ hL id hid⟩

theorem ends_forAll_local {f : α → Action Unit} {L P : α → String → View → View → Prop}
    {l : List α} {c : Contents} (disjoint : l.Pairwise (fun a b => ∀ id, of a id → ¬ of b id))
    (step : ∀ a ∈ l, ∀ c₀, Follows R (fun id => ¬ of a id) c c₀ → Action.Ends k faults (f a) c₀
      (fun _ c' => Follows R (of a) c₀ c' ∧ ∀ id, of a id → L a id (c₀.view id) (c'.view id))
      (fun _ c' => F ∧ Follows R (of a) c₀ c' ∧
        ∀ id, of a id → P a id (c₀.view id) (c'.view id)))
    (h : Orderly R c) : Action.Ends k faults (Action.forAll f l) c
      (fun _ c' => Follows R (fun id => ∃ a ∈ l, of a id) c c' ∧
        ∀ a ∈ l, ∀ id, of a id → L a id (c.view id) (c'.view id))
      (fun _ c' => F ∧ Follows R (fun id => ∃ a ∈ l, of a id) c c' ∧
        ∀ a ∈ l, ∀ id, of a id → L a id (c.view id) (c'.view id) ∨
          P a id (c.view id) (c'.view id) ∨ c'.view id = c.view id) := by
  rw [Action.forAll_eq_map_each]
  refine Action.Ends.map ((ends_each_local of (L := fun a _ => L a) disjoint step h).mono ?_ ?_)
  · rintro ys c' ⟨f, all, _⟩
    refine ⟨f, fun a ha id hid => ?_⟩
    obtain ⟨_, _, hL⟩ := all a ha
    exact hL id hid
  · rintro _ c' ⟨hF, f, all⟩
    refine ⟨hF, f, fun a ha id hid => (all a ha id hid).imp_left ?_⟩
    exact fun ⟨_, hL⟩ => hL

/-- Actions that are each about one message, and no two about the same one. -/
theorem ends_forAll_single (key : α → String) {f : α → Action Unit} {L P : α → View → View → Prop}
    {l : List α} {c : Contents} (distinct : l.Pairwise (key · ≠ key ·))
    (step : ∀ a ∈ l, ∀ c₀, Follows R (fun id => ¬ id = key a) c c₀ → Action.Ends k faults (f a) c₀
      (fun _ c' => Follows R (· = key a) c₀ c' ∧ L a (c₀.view (key a)) (c'.view (key a)))
      (fun _ c' => F ∧ Follows R (· = key a) c₀ c' ∧ P a (c₀.view (key a)) (c'.view (key a))))
    (h : Orderly R c) : Action.Ends k faults (Action.forAll f l) c
      (fun _ c' => Follows R (fun id => ∃ a ∈ l, id = key a) c c' ∧
        ∀ a ∈ l, L a (c.view (key a)) (c'.view (key a)))
      (fun _ c' => F ∧ Follows R (fun id => ∃ a ∈ l, id = key a) c c' ∧
        ∀ a ∈ l, L a (c.view (key a)) (c'.view (key a)) ∨ P a (c.view (key a)) (c'.view (key a)) ∨
          c'.view (key a) = c.view (key a)) := by
  refine (ends_forAll_local (fun a id => id = key a) (F := F) (L := fun a _ => L a)
    (P := fun a _ => P a) (distinct.imp fun hne id ha hb => hne (ha.symm.trans hb)) ?_ h).mono ?_ ?_
  · intro a ha c₀ f₀
    refine (step a ha c₀ f₀).mono ?_ ?_
    · rintro _ c' ⟨f, hL⟩
      exact ⟨f, by rintro _ rfl; exact hL⟩
    · rintro _ c' ⟨hF, f, hP⟩
      exact ⟨hF, f, by rintro _ rfl; exact hP⟩
  · exact fun _ c' ⟨f, all⟩ => ⟨f, fun a ha => all a ha _ rfl⟩
  · exact fun _ c' ⟨hF, f, all⟩ => ⟨hF, f, fun a ha => all a ha _ rfl⟩

end Local

end Contents

end ChatMemory
