import ChatMemory.Proofs.Deleting
import ChatMemory.Proofs.Reading

/-!
# Reconciling

What reconciling a thread does to each message, said by the view of the message. Whether a copy that
the thread holds stays depends on that view alone (`View.Kept`), so the ids can be taken one by one.

The contents are orderly here, so every record that decodes names the thread under which it stands,
and none is ever made to.

## Main statements

* `ends_keepCopy` — the decision about a copy.
* `ends_reconcileThread` — what becomes of each message (`View.Reconciled`), and what may have become
  of it when the operation is stopped (`View.Reconciling`).
-/

namespace ChatMemory

namespace View

variable (w : View) (tracking : Bool) (thread : String)

/-- The copy in a thread decodes, and says that the message came from `origin`. -/
def Marked (origin : String) : Prop :=
  ∃ r x, w.record thread = some r ∧ Message.ofRecord r = .ok x ∧ Message.origin? r = some origin

/-- Another thread has the message too. -/
def Elsewhere (other : String) : Prop := other ≠ thread ∧ w.Holds other

/-- A copy that the order does not hold stays. -/
def Stays : Prop :=
  (∀ other, ¬ w.Elsewhere thread other) ∨
    (∀ other, w.Elsewhere thread other → ¬ w.Lists other) ∧
      (w.Lists thread ∨ (∃ other, w.Elsewhere thread other ∧ w.Marked thread other) ∨
        ∀ other, w.Elsewhere thread other → ¬ w.Marked other thread)

/-- A copy that decodes stays in its thread. -/
def Kept : Prop := w.Lists thread ∨ w.Stays thread

/-- A copy that stays is listed. -/
def kept (x : Message) : View := w.list thread (scoreFor x.createdAt 0)

/-- What becomes of a message when a thread is reconciled. -/
inductive Reconciled (w' : View) : Prop where
  /-- The thread does not have it, and its order does not list it any more. -/
  | dropped (h : ¬ w.Holds thread) (e : w' = w.setScore thread none)
  /-- The record does not decode, and was left alone. -/
  | unreadable (h : w.Holds thread) (damaged : ∀ x, ¬ w.IsRecord thread x) (e : w' = w)
  | kept {x : Message} (h : w.IsRecord thread x) (stays : w.Kept thread)
    (e : w' = (w.kept thread x).noted tracking thread)
  | removed {x : Message} (h : w.IsRecord thread x) (goes : ¬ w.Kept thread)
    (e : (w.setRecord thread none).Forgot tracking thread w')

/-- What may have become of a message when the reconciliation of a thread was stopped. -/
inductive Reconciling (w' : View) : Prop where
  | untouched (e : w' = w)
  | finished (h : w.Reconciled tracking thread w')
  | listed {x : Message} (h : w.IsRecord thread x) (stays : w.Kept thread)
    (e : w' = w.kept thread x)
  | erased {x : Message} (h : w.IsRecord thread x) (goes : ¬ w.Kept thread)
    (e : w' = w.setRecord thread none)

variable {w thread}

/-- Where a message came from is read off its record, if that decodes. -/
theorem marked_iff {r : Json} {x : Message} (hr : w.record thread = some r)
    (hx : Message.ofRecord r = .ok x) {origin : String} :
    w.Marked thread origin ↔ Message.origin? r = some origin := by
  constructor
  · rintro ⟨r', _, hr', _, ho⟩
    obtain rfl := Option.some.inj (hr.symm.trans hr')
    exact ho
  · exact fun ho => ⟨r, x, hr, hx, ho⟩

/-- When other threads have the message and none of them lists it, the marks decide. -/
theorem stays_iff_of_unlisted {other : String} (elsewhere : w.Elsewhere thread other)
    (unlisted : ∀ t, w.Elsewhere thread t → ¬ w.Lists t) :
    w.Stays thread ↔ w.Lists thread ∨ (∃ t, w.Elsewhere thread t ∧ w.Marked thread t) ∨
      ∀ t, w.Elsewhere thread t → ¬ w.Marked t thread := by
  constructor
  · rintro (alone | ⟨_, h⟩)
    · exact absurd elsewhere (alone other)
    · exact h
  · exact fun h => Or.inr ⟨unlisted, h⟩

/-- A copy that the order does not hold goes when another thread lists the message. -/
theorem not_stays_of_listed {other : String} (elsewhere : w.Elsewhere thread other)
    (listed : w.Lists other) : ¬ w.Stays thread := by
  rintro (alone | ⟨unlisted, _⟩)
  · exact alone other elsewhere
  · exact unlisted other elsewhere listed

end View

namespace Store

open Action Contents

variable {s : Store} {faults : Faults} {R : RecordRule} {c : Contents} {thread id : String}
  {schedule : Schedule}

/-! ## The decision about a copy -/

theorem ends_loadCopy (hi : IsMessage id) : Ends s.keys faults (s.loadCopy thread id) c
    (fun found c' => c' = c ∧ (found = none → ∀ x, ¬ (c.view id).IsRecord thread x) ∧
      ∀ copy, found = some copy → ∃ r, c.record thread id = some r ∧
        Message.ofRecord r = .ok copy.message ∧ copy.origin = Message.origin? r)
    (fun _ c' => c' = c ∧ faults.Active) := by
  refine Ends.bind (ends_getMessage hi ?_ fun ha _ => ⟨rfl, ha⟩)
  cases hr : c.record thread id with
  | none =>
    refine ends_pure ⟨rfl, ?_, by simp⟩
    rintro _ x ⟨r, hr', _⟩
    exact absurd (hr.symm.trans hr') (by simp)
  | some r =>
    dsimp only
    split
    · next m hm =>
      refine ends_pure ⟨rfl, by simp, fun copy hc => ?_⟩
      obtain rfl := Option.some.inj hc
      exact ⟨r, rfl, hm, rfl⟩
    · next hm =>
      refine ends_pure ⟨rfl, ?_, by simp⟩
      rintro _ x ⟨r', hr', hx⟩
      obtain rfl := Option.some.inj (hr.symm.trans hr')
      exact absurd (hm.symm.trans hx) (by simp)

theorem ends_indexedAmong : ∀ {threads : List String} {c : Contents}, Orderly R c →
    (∀ t ∈ threads, c.Holds t id) → Ends s.keys faults (s.indexedAmong id threads) c
      (fun found c' => c' = c ∧ (found = true ↔ ∃ t ∈ threads, (c.view id).Lists t))
      (fun _ c' => c' = c ∧ faults.Active)
  | [], _, _, _ => ends_pure ⟨rfl, by simp⟩
  | t :: rest, c, h, held => by
    have hh := held t List.mem_cons_self
    refine (OrderIndex.ends_snapshot (h.plain hh)).andThen ?_ fun order c' hc => ?_
    · rintro _ _ ⟨rfl, ha | hn⟩
      · exact ⟨rfl, ha⟩
      · exact absurd (h.readable (h.hasThread hh)) hn
    obtain ⟨rfl, entries, he, rfl⟩ := hc
    have lists : (c'.view id).Lists t ↔ (OrderSnapshot.ofEntries entries).contains id = true :=
      StoredOrder.lists_iff_contains he
    refine ends_ite (fun hc => ends_pure ⟨rfl, ?_⟩) fun hc => ?_
    · exact ⟨fun _ => ⟨t, List.mem_cons_self, lists.mpr hc⟩, fun _ => rfl⟩
    · refine (ends_indexedAmong h fun t' ht' => held t' (List.mem_cons_of_mem _ ht')).mono
        (fun found c'' hc' => ?_) fun _ _ h => h
      obtain ⟨rfl, hf⟩ := hc'
      refine ⟨rfl, hf.trans ?_⟩
      simp only [List.mem_cons, exists_eq_or_imp]
      exact (or_iff_right (mt lists.mp hc)).symm

theorem ends_movedFrom (hi : IsMessage id) : ∀ {threads : List String} {c : Contents},
    Ends s.keys faults (s.movedFrom thread id threads) c
      (fun found c' => c' = c ∧ (found = true ↔ ∃ t ∈ threads, (c.view id).Marked t thread))
      (fun _ c' => c' = c ∧ faults.Active)
  | [], _ => ends_pure ⟨rfl, by simp⟩
  | t :: rest, c => by
    refine (ends_loadCopy hi).andThen (fun _ _ h => h) fun found c' hc => ?_
    obtain ⟨rfl, hnone, hsome⟩ := hc
    have marked : (found.bind (·.origin)) = some thread ↔ (c'.view id).Marked t thread := by
      cases found with
      | none =>
        refine ⟨fun h => absurd h (by simp), ?_⟩
        rintro ⟨r, x, hr, hx, _⟩
        exact absurd ⟨r, hr, hx⟩ (hnone rfl x)
      | some copy =>
        obtain ⟨r, hr, hx, ho⟩ := hsome copy rfl
        rw [View.marked_iff hr hx, ← ho]
        rfl
    refine ends_ite (fun h => ends_pure ⟨rfl, ?_⟩) fun h => ?_
    · exact ⟨fun _ => ⟨t, List.mem_cons_self, marked.mp h⟩, fun _ => rfl⟩
    · refine (ends_movedFrom hi).mono (fun found c'' hc' => ?_) fun _ _ h => h
      obtain ⟨rfl, hf⟩ := hc'
      refine ⟨rfl, hf.trans ?_⟩
      simp only [List.mem_cons, exists_eq_or_imp]
      exact (or_iff_right (mt marked.mpr h)).symm

/-- The decision about a copy that the order does not hold. -/
theorem ends_keepCopy (h : Orderly R c) {copy : StoredCopy} {r : Json}
    (hr : c.record thread id = some r) (hx : Message.ofRecord r = .ok copy.message)
    (ho : copy.origin = Message.origin? r) {order : OrderSnapshot}
    (hl : order.contains id = true ↔ (c.view id).Lists thread) :
    Ends s.keys faults (s.keepCopy thread copy order) c
      (fun stays c' => c' = c ∧ (stays = true ↔ (c.view id).Stays thread))
      (fun _ c' => c' = c ∧ faults.Active) := by
  obtain ⟨_, hid, _, _, _⟩ := h.isRecord ⟨r, hr, hx⟩
  have hi : IsMessage id := R.message_of (h.placed hr).2
  subst hid
  refine (ends_otherHolders hi).andThen (fun _ _ h => h) fun holders c' hc => ?_
  obtain ⟨rfl, hh⟩ := hc
  have elsewhere : ∀ t, t ∈ holders ↔ (c'.view copy.message.id).Elsewhere thread t := fun t =>
    (hh t).trans ⟨fun h => h.2, fun he => ⟨h.hasThread he.2, he⟩⟩
  refine ends_ite (fun he => ends_pure ⟨rfl, ?_⟩) fun hne => ?_
  · refine ⟨fun _ => Or.inl fun other ho => ?_, fun _ => rfl⟩
    rw [← elsewhere, List.isEmpty_iff.mp he] at ho
    exact absurd ho List.not_mem_nil
  obtain ⟨first, hfirst⟩ : ∃ t, (c'.view copy.message.id).Elsewhere thread t := by
    cases holders with
    | nil => exact absurd rfl hne
    | cons t rest => exact ⟨t, (elsewhere t).mp List.mem_cons_self⟩
  refine (ends_indexedAmong h fun t ht => ((elsewhere t).mp ht).2).andThen (fun _ _ h => h)
    fun indexed c' hc => ?_
  obtain ⟨rfl, hind⟩ := hc
  refine ends_ite (fun hi => ends_pure ⟨rfl, fun h => absurd h (by simp), fun h => ?_⟩) fun hni => ?_
  · obtain ⟨t, ht, hlt⟩ := hind.mp hi
    exact absurd h (View.not_stays_of_listed ((elsewhere t).mp ht) hlt)
  have unlisted : ∀ t, (c'.view copy.message.id).Elsewhere thread t →
      ¬ (c'.view copy.message.id).Lists t := fun t ht hlt =>
    hni (hind.mpr ⟨t, (elsewhere t).mpr ht, hlt⟩)
  have stays := View.stays_iff_of_unlisted hfirst unlisted
  refine ends_ite (fun hc => ends_pure ⟨rfl, fun _ => stays.mpr (Or.inl (hl.mp hc)), fun _ => rfl⟩)
    fun hnl => ?_
  -- The copy came from a thread that has the message.
  have came : (holders.any fun t => copy.origin = some t) = true ↔
      ∃ t, (c'.view copy.message.id).Elsewhere thread t ∧
        (c'.view copy.message.id).Marked thread t := by
    have marked : ∀ t, (c'.view copy.message.id).Marked thread t ↔ Message.origin? r = some t :=
      fun t => View.marked_iff hr hx
    simp only [List.any_eq_true, decide_eq_true_eq, elsewhere, marked, ho]
  refine ends_ite (fun hm => ends_pure ⟨rfl, ?_⟩) fun hm => ?_
  · exact ⟨fun _ => stays.mpr (Or.inr (Or.inl (came.mp hm))), fun _ => rfl⟩
  refine (ends_movedFrom hi).andThen (fun _ _ h => h) fun gone c' hc => ?_
  obtain ⟨rfl, hg⟩ := hc
  refine ends_pure ⟨rfl, ?_⟩
  rw [stays, or_iff_right (mt hl.mpr hnl), or_iff_right (mt came.mpr hm), Bool.not_eq_true',
    ← Bool.not_eq_true, hg]
  simp only [elsewhere, not_exists, not_and]

/-! ## Settling one copy -/

/-- What became of a copy, and what was reported. -/
inductive Settled (tracking : Bool) (thread id : String) (w : View) : CopyFate → View → Prop where
  | unreadable (damaged : ∀ x, ¬ w.IsRecord thread x) :
      Settled tracking thread id w (.unreadable id) w
  | kept {x : Message} (h : w.IsRecord thread x) (stays : w.Kept thread) :
      Settled tracking thread id w (.kept x) w
  | removed {x : Message} {w' : View} (h : w.IsRecord thread x) (goes : ¬ w.Kept thread)
      (e : (w.setRecord thread none).Forgot tracking thread w') :
      Settled tracking thread id w (.removed id) w'

theorem ends_settleCopy (h : Orderly R c) (hi : IsMessage id) {order : OrderSnapshot}
    (hl : order.contains id = true ↔ (c.view id).Lists thread) :
    Ends s.keys faults (s.settleCopy thread order id) c
      (fun fate c' => Follows R (· = id) c c' ∧
        Settled s.config.trackMessageThreads thread id (c.view id) fate (c'.view id))
      (fun _ c' => faults.Active ∧ Follows R (· = id) c c' ∧ (c'.view id = c.view id ∨
        ∃ x, (c.view id).IsRecord thread x ∧ ¬ (c.view id).Kept thread ∧
          c'.view id = (c.view id).setRecord thread none)) := by
  have same : ∀ {e : MemoryError} {c' : Contents} {P : Prop}, c' = c ∧ faults.Active →
      faults.Active ∧ Follows R (· = id) c c' ∧ (c'.view id = c.view id ∨ P) := by
    rintro _ _ _ ⟨rfl, ha⟩
    exact ⟨ha, .refl h, Or.inl rfl⟩
  refine (ends_loadCopy hi).andThen (fun e _ he => same (e := e) he) fun found c' hc => ?_
  obtain ⟨rfl, hnone, hsome⟩ := hc
  cases found with
  | none => exact ends_pure ⟨.refl h, .unreadable (hnone rfl)⟩
  | some copy =>
    obtain ⟨r, hr, hx, ho⟩ := hsome copy rfl
    have record : (c'.view id).IsRecord thread copy.message := ⟨r, hr, hx⟩
    obtain ⟨hthread, _, _, threads, _⟩ := h.isRecord record
    refine ends_ite (fun hc => ends_pure ⟨.refl h, .kept record (Or.inl ?_)⟩) fun hc => ?_
    · exact hl.mp (by simpa [hthread] using hc)
    have unlisted : ¬ (c'.view id).Lists thread := fun hlt => by
      have := hl.mpr hlt
      simp [this, hthread] at hc
    refine (ends_keepCopy h hr hx ho hl).andThen (fun e _ he => same (e := e) he)
      fun stays c' hc' => ?_
    obtain ⟨rfl, hstays⟩ := hc'
    refine ends_ite (fun hs => ?_) fun hs => ?_
    · rw [if_pos hthread]
      exact ends_pure ⟨.refl h, .kept record (Or.inr (hstays.mp hs))⟩
    · have goes : ¬ (c'.view id).Kept thread := by
        rintro (hlt | hst)
        · exact unlisted hlt
        · exact hs (hstays.mpr hst)
      refine (ends_deleteAndForget h (R.plain threads) hi).andThen ?_ fun _ c₁ ⟨f, v⟩ => ?_
      · rintro _ c₁ ⟨ha, f, v | v⟩
        · exact ⟨ha, f, Or.inl v⟩
        · exact ⟨ha, f, Or.inr ⟨copy.message, record, goes, v⟩⟩
      · exact ends_pure ⟨f, .removed record goes v⟩

/-! ## Settling a thread -/

/-- The messages that reconciling a thread is about. -/
def Under (thread : String) (c : Contents) (id : String) : Prop :=
  c.Holds thread id ∨ (c.view id).Lists thread

/-- Notes of some messages, one after the other. -/
theorem ends_noteAll (names : String → Prop) (present : List Message) (h : Orderly R c)
    (hn : ∀ x ∈ present, names x.id) :
    Ends s.keys faults (Action.forAll (fun x : Message => s.notePointer x.id thread) present) c
      (fun _ c' => Follows R names c c' ∧
        (∀ x ∈ present, c'.view x.id = (c.view x.id).noted s.config.trackMessageThreads thread) ∧
        ∀ id, (∀ x ∈ present, x.id ≠ id) → c'.view id = c.view id)
      (fun _ c' => faults.Active ∧ Follows R names c c' ∧
        ∀ id, c'.view id = c.view id ∨ ∃ x ∈ present, x.id = id ∧
          c'.view id = (c.view id).noted s.config.trackMessageThreads thread) := by
  refine ((Ends.forAll (I := fun rest c' => Follows R names c c' ∧
    (∀ x ∈ present, x ∈ rest ∨
      c'.view x.id = (c.view x.id).noted s.config.trackMessageThreads thread) ∧
    (∀ x ∈ rest, x ∈ present) ∧
    ∀ id, c'.view id = c.view id ∨ ∃ x ∈ present, x.id = id ∧
      c'.view id = (c.view id).noted s.config.trackMessageThreads thread) ?_
    ⟨.refl h, fun x hx => Or.inl hx, fun x hx => hx, fun id => Or.inl rfl⟩).mono ?_
    fun _ _ h => h)
  · rintro x rest c' ⟨f, noted, sub, all⟩
    have hx := sub x List.mem_cons_self
    refine (ends_notePointer x.id thread).mono (fun _ c'' e => ?_) ?_
    · have here : c''.view x.id = (c.view x.id).noted s.config.trackMessageThreads thread := by
        rw [e, view_noted]
        rcases all x.id with v | ⟨_, _, _, v⟩
        · rw [v]
        · rw [v, View.noted_noted]
      have there : ∀ id, id ≠ x.id → c''.view id = c'.view id := fun id hne => by
        rw [e, view_noted_of_ne hne]
      refine ⟨?_, fun y hy => ?_, fun y hy => sub y (List.mem_cons_of_mem _ hy), fun id => ?_⟩
      · rw [e]
        exact f.noted (hn x hx) _ _
      · rcases noted y hy with hy' | v
        · rcases List.mem_cons.mp hy' with rfl | hy'
          · exact Or.inr here
          · exact Or.inl hy'
        · by_cases hid : y.id = x.id
          · exact Or.inr (by rw [hid]; exact here)
          · exact Or.inr ((there _ hid).trans v)
      · by_cases hid : id = x.id
        · subst hid
          exact Or.inr ⟨x, hx, rfl, here⟩
        · rw [there id hid]
          exact all id
    · rintro _ _ ⟨rfl, ha⟩
      exact ⟨ha, f, all⟩
  · rintro _ c' ⟨f, noted, _, all⟩
    refine ⟨f, fun x hx => (noted x hx).resolve_left List.not_mem_nil, fun id hid => ?_⟩
    rcases all id with v | ⟨x, hx, rfl, _⟩
    · exact v
    · exact absurd rfl (hid x hx)

/--
What is known of a message once the copies of a thread are settled: those that stay are `present`, and
those that could not be read are `unreadable`. How far the thread is settled shows in what has become of
a message that it does not have (`gone`), and of one that stays (`stay`).
-/
inductive Fated (tracking : Bool) (thread : String) (present : List Message)
    (unreadable : List String) (id : String) (w gone : View) (stay : Message → View) (w' : View) :
    Prop where
  | absent (h : ¬ w.Holds thread) (away : ∀ x ∈ present, x.id ≠ id) (readable : id ∉ unreadable)
      (e : w' = gone)
  | unreadable (h : w.Holds thread) (damaged : ∀ x, ¬ w.IsRecord thread x)
      (away : ∀ x ∈ present, x.id ≠ id) (found : id ∈ unreadable) (e : w' = w)
  | kept {x : Message} (h : w.IsRecord thread x) (stays : w.Kept thread) (found : x ∈ present)
      (hid : x.id = id) (e : w' = stay x)
  | removed {x : Message} (h : w.IsRecord thread x) (goes : ¬ w.Kept thread)
      (away : ∀ x ∈ present, x.id ≠ id) (readable : id ∉ unreadable)
      (e : (w.setRecord thread none).Forgot tracking thread w')

namespace Fated

variable {tracking : Bool} {present : List Message} {unreadable : List String} {w w₁ w₂ gone : View}
  {stay : Message → View}

/-- The entries without a copy are removed. -/
theorem dropped (h : Fated tracking thread present unreadable id w w (fun _ => w) w₁)
    {ids : List String} (mem : id ∈ ids ↔ w.Lists thread ∧ (∀ x ∈ present, x.id ≠ id) ∧
      id ∉ unreadable)
    (e : w₂ = if id ∈ ids then w₁.setScore thread none else w₁) :
    Fated tracking thread present unreadable id w (w.setScore thread none) (fun _ => w) w₂ := by
  rw [e]
  cases h with
  | absent h away readable e₁ =>
    refine .absent h away readable ?_
    rw [e₁]
    split
    · rfl
    · next hid =>
      have unlisted : w.score thread = none :=
        Decidable.byContradiction fun hl => hid (mem.mpr ⟨hl, away, readable⟩)
      rw [← unlisted, View.setScore_self]
  | unreadable h damaged away found e₁ =>
    rw [if_neg fun hid => (mem.mp hid).2.2 found]
    exact .unreadable h damaged away found e₁
  | kept h stays found hx e₁ =>
    rw [if_neg fun hid => (mem.mp hid).2.1 _ found hx]
    exact .kept h stays found hx e₁
  | removed h goes away readable e₁ =>
    rw [if_neg fun hid => goes (Or.inl (mem.mp hid).1)]
    exact .removed h goes away readable e₁

/-- The copies without an entry are listed. -/
theorem listed (h : Fated tracking thread present unreadable id w (w.setScore thread none)
      (fun _ => w) w₁) {score : Option Binary64}
    (away : (∀ x ∈ present, x.id ≠ id) → score = none)
    (found : ∀ x ∈ present, x.id = id → w.score thread = none →
      score = some (scoreFor x.createdAt 0))
    (e : w₂ = w₁.setScore thread ((w₁.score thread).or score)) :
    Fated tracking thread present unreadable id w (w.setScore thread none) (w.kept thread) w₂ := by
  have same : (∀ x ∈ present, x.id ≠ id) → w₂ = w₁ := by
    intro h
    rw [e, away h, Option.or_none, View.setScore_self]
  cases h with
  | absent h away readable e₁ => exact .absent h away readable ((same away).trans e₁)
  | unreadable h damaged away found e₁ =>
    exact .unreadable h damaged away found ((same away).trans e₁)
  | @kept x h stays hm hx e₁ =>
    refine .kept h stays hm hx ?_
    rw [e, e₁, View.kept, View.list]
    cases hl : w.score thread with
    | some y => rfl
    | none => rw [found x hm hx hl]
  | removed h goes away readable e₁ => exact .removed h goes away readable ((same away).symm ▸ e₁)

/-- The copies that stay are noted. -/
theorem noted (h : Fated tracking thread present unreadable id w gone stay w₁)
    (away : (∀ x ∈ present, x.id ≠ id) → w₂ = w₁)
    (found : ∀ x ∈ present, x.id = id → w₂ = w₁.noted tracking thread) :
    Fated tracking thread present unreadable id w gone (fun x => (stay x).noted tracking thread)
      w₂ := by
  cases h with
  | absent h hno readable e₁ => exact .absent h hno readable ((away hno).trans e₁)
  | unreadable h damaged hno hm e₁ => exact .unreadable h damaged hno hm ((away hno).trans e₁)
  | kept h stays hm hx e₁ => exact .kept h stays hm hx (by rw [found _ hm hx, e₁])
  | removed h goes hno readable e₁ => exact .removed h goes hno readable ((away hno).symm ▸ e₁)

/-- All is settled. -/
theorem reconciled (h : Fated tracking thread present unreadable id w (w.setScore thread none)
    (fun x => (w.kept thread x).noted tracking thread) w₁) : w.Reconciled tracking thread w₁ := by
  cases h with
  | absent h _ _ e => exact .dropped h e
  | unreadable h damaged _ _ e => exact .unreadable h damaged e
  | kept h stays _ _ e => exact .kept h stays e
  | removed h goes _ _ e => exact .removed h goes e

/-- The thread is settled in part. -/
theorem reconciling (h : Fated tracking thread present unreadable id w gone stay w₁)
    (hgone : gone = w ∨ gone = w.setScore thread none)
    (hstay : ∀ x, stay x = w ∨ stay x = w.kept thread x ∨
      stay x = (w.kept thread x).noted tracking thread) : w.Reconciling tracking thread w₁ := by
  cases h with
  | absent h _ _ e =>
    rcases hgone with rfl | rfl
    · exact .untouched e
    · exact .finished (.dropped h e)
  | unreadable _ _ _ _ e => exact .untouched e
  | @kept x h stays _ _ e =>
    rcases hstay x with ex | ex | ex
    · exact .untouched (e.trans ex)
    · exact .listed h stays (e.trans ex)
    · exact .finished (.kept h stays (e.trans ex))
  | removed h goes _ _ e => exact .finished (.removed h goes e)

end Fated

section Fates

variable {tracking : Bool} {c₁ : Contents} {ids : List String} {fates : List CopyFate}

theorem of_mem_present (h : Orderly R c) (each : ∀ fate ∈ fates, ∃ m ∈ ids, ∀ id, id = m →
      Settled tracking thread id (c.view id) fate (c₁.view id)) {x : Message}
    (hx : x ∈ fates.filterMap CopyFate.present?) :
    (c.view x.id).IsRecord thread x ∧ (c.view x.id).Kept thread := by
  obtain ⟨fate, hf, hp⟩ := List.mem_filterMap.mp hx
  obtain ⟨m, _, hs⟩ := each fate hf
  have hs := hs m rfl
  generalize c₁.view m = w' at hs
  cases hs with
  | unreadable damaged => exact absurd hp (by simp [CopyFate.present?])
  | removed _ _ _ => exact absurd hp (by simp [CopyFate.present?])
  | kept hy stays =>
    obtain rfl := Option.some.inj hp
    obtain ⟨_, rfl, _⟩ := h.isRecord hy
    exact ⟨hy, stays⟩

theorem of_mem_unreadable (each : ∀ fate ∈ fates, ∃ m ∈ ids, ∀ id, id = m →
      Settled tracking thread id (c.view id) fate (c₁.view id))
    (hid : id ∈ fates.filterMap CopyFate.unreadable?) : id ∈ ids ∧
      ∀ x, ¬ (c.view id).IsRecord thread x := by
  obtain ⟨fate, hf, hu⟩ := List.mem_filterMap.mp hid
  obtain ⟨m, hm, hs⟩ := each fate hf
  have hs := hs m rfl
  generalize c₁.view m = w' at hs
  cases hs with
  | unreadable damaged =>
    obtain rfl := Option.some.inj hu
    exact ⟨hm, damaged⟩
  | removed _ _ _ => exact absurd hu (by simp [CopyFate.unreadable?])
  | kept _ _ => exact absurd hu (by simp [CopyFate.unreadable?])

/-- The reports on the copies tell what became of each message. -/
theorem fated (h : Orderly R c) (hids : ∀ id, id ∈ ids ↔ c.Holds thread id)
    (within : Within (fun id => ∃ m ∈ ids, id = m) c c₁)
    (all : ∀ m ∈ ids, ∃ fate ∈ fates, ∀ id, id = m →
      Settled tracking thread id (c.view id) fate (c₁.view id))
    (each : ∀ fate ∈ fates, ∃ m ∈ ids, ∀ id, id = m →
      Settled tracking thread id (c.view id) fate (c₁.view id)) (id : String) :
    Fated tracking thread (fates.filterMap CopyFate.present?)
      (fates.filterMap CopyFate.unreadable?) id (c.view id) (c.view id) (fun _ => c.view id)
      (c₁.view id) := by
  by_cases hh : c.Holds thread id
  · obtain ⟨fate, hf, hs⟩ := all id ((hids id).mpr hh)
    have hs := hs id rfl
    generalize c₁.view id = w' at hs ⊢
    cases hs with
    | unreadable damaged =>
      refine .unreadable hh damaged (fun x hx hid => ?_) ?_ rfl
      · exact damaged x (hid ▸ (of_mem_present h each hx).1)
      · exact List.mem_filterMap.mpr ⟨_, hf, rfl⟩
    | kept hx stays =>
      exact .kept hx stays (List.mem_filterMap.mpr ⟨_, hf, rfl⟩) (h.isRecord hx).2.1 rfl
    | removed hx goes e =>
      refine .removed hx goes (fun y hy hid => ?_) (fun hu => ?_) e
      · exact goes (hid ▸ (of_mem_present h each hy).2)
      · exact (of_mem_unreadable each hu).2 _ hx
  · have same : c₁.view id = c.view id := by
      refine within.view id ?_
      rintro ⟨m, hm, rfl⟩
      exact hh ((hids id).mp hm)
    refine .absent hh (fun x hx hid => ?_) (fun hu => ?_) same
    · exact hh (hid ▸ (of_mem_present h each hx).1.holds)
    · exact hh ((hids id).mp (of_mem_unreadable each hu).1)

/-- The scores for those copies that stay and were not listed. -/
theorem entryScore_unindexed {present : List Message} {order : OrderSnapshot} {x : Message}
    (hx : x ∈ present) (only : ∀ y ∈ present, y.id = x.id → y = x)
    (hl : order.contains x.id = false) :
    entryScore ((present.filter fun m => !order.contains m.id).map
      fun m => ⟨m.id, scoreFor m.createdAt 0⟩) x.id = some (scoreFor x.createdAt 0) := by
  rw [entryScore, Option.map_eq_some_iff]
  refine ⟨⟨x.id, scoreFor x.createdAt 0⟩, ?_, rfl⟩
  rw [List.find?_map, Option.map_eq_some_iff]
  refine ⟨x, ?_, rfl⟩
  cases hf : (present.filter fun m => !order.contains m.id).find?
      ((fun o : OrderEntry => decide (o.id = x.id)) ∘ fun m : Message =>
        ⟨m.id, scoreFor m.createdAt 0⟩) with
  | none =>
    have hm : x ∈ present.filter fun m => !order.contains m.id :=
      List.mem_filter.mpr ⟨hx, by rw [hl]; rfl⟩
    exact absurd (List.find?_eq_none.mp hf x hm) (by simp)
  | some y =>
    have hy := (List.mem_filter.mp (List.mem_of_find?_eq_some hf)).1
    rw [only y hy (by simpa using List.find?_some hf)]

theorem entryScore_away {present : List Message} {order : OrderSnapshot}
    (away : ∀ x ∈ present, x.id ≠ id) :
    entryScore ((present.filter fun m => !order.contains m.id).map
      fun m => ⟨m.id, scoreFor m.createdAt 0⟩) id = none := by
  rw [entryScore, Option.map_eq_none_iff, List.find?_eq_none]
  intro o ho hid
  obtain ⟨y, hy, rfl⟩ := List.mem_map.mp ho
  exact away y (List.mem_filter.mp hy).1 (of_decide_eq_true hid)

end Fates

/-- The copies of a thread, settled one by one. -/
theorem ends_settleCopies (h : Orderly R c) {ids : List String} (sorted : ids.Pairwise (· < ·))
    (hids : ∀ id, id ∈ ids ↔ c.Holds thread id) {order : OrderSnapshot}
    (lists : ∀ id, order.contains id = true ↔ (c.view id).Lists thread) :
    Ends s.keys faults (Action.each (s.settleCopy thread order) ids) c
      (fun fates c' => Follows R (Under thread c) c c' ∧
        (∀ x ∈ fates.filterMap CopyFate.present?, (c.view x.id).IsRecord thread x) ∧
        ∀ id, Fated s.config.trackMessageThreads thread (fates.filterMap CopyFate.present?)
          (fates.filterMap CopyFate.unreadable?) id (c.view id) (c.view id) (fun _ => c.view id)
          (c'.view id))
      (fun _ c' => faults.Active ∧ Follows R (Under thread c) c c' ∧
        ∀ id, (c.view id).Reconciling s.config.trackMessageThreads thread (c'.view id)) := by
  have among : ∀ id, (∃ m ∈ ids, id = m) → Under thread c id := by
    rintro id ⟨m, hm, rfl⟩
    exact Or.inl ((hids id).mp hm)
  refine (ends_each_local (fun m id => id = m) (F := faults.Active)
    (L := fun m fate id w w' => Settled s.config.trackMessageThreads thread id w fate w')
    (P := fun m id w w' => w' = w ∨ ∃ x, w.IsRecord thread x ∧ ¬ w.Kept thread ∧
      w' = w.setRecord thread none)
    (sorted.imp fun hlt id ha hb => String.ne_of_lt hlt (ha.symm.trans hb))
    ?_ h).mono ?_ ?_
  · intro m hm c₀ f₀
    have same : c₀.view m = c.view m := f₀.within.view m fun h => h rfl
    refine (ends_settleCopy f₀.orderly (h.isMessage ((hids m).mp hm))
      (by rw [same]; exact lists m)).mono ?_ ?_
    · rintro fate c₂ ⟨f, hs⟩
      exact ⟨f, by rintro _ rfl; exact hs⟩
    · rintro _ c₂ ⟨ha, f, v⟩
      exact ⟨ha, f, by rintro _ rfl; exact v⟩
  · rintro fates c₁ ⟨f, all, each⟩
    exact ⟨f.mono among, fun x hx => (of_mem_present h each hx).1, fated h hids f.within all each⟩
  · rintro _ c₁ ⟨ha, f, hv⟩
    refine ⟨ha, f.mono among, fun id => ?_⟩
    by_cases hid : c.Holds thread id
    · rcases hv id ((hids id).mpr hid) id rfl with ⟨fate, hs⟩ | (v | ⟨x, hx, goes, v⟩) | v
      · generalize c₁.view id = w' at hs
        cases hs with
        | unreadable damaged => exact .untouched rfl
        | kept hx stays => exact .untouched rfl
        | removed hx goes e => exact .finished (.removed hx goes e)
      · exact .untouched v
      · exact .erased hx goes v
      · exact .untouched v
    · exact .untouched (f.within.view id fun ⟨m, hm, e⟩ => hid (e ▸ (hids m).mp hm))

theorem ends_reconcileExisting (h : Orderly R c) (there : c.HasThread thread) (plain : Plain thread)
    {ids : List String} (sorted : ids.Pairwise (· < ·))
    (hids : ∀ id, id ∈ ids ↔ c.Holds thread id) :
    Ends s.keys faults (s.reconcileExisting thread ids) c
      (fun _ c' => Follows R (Under thread c) c c' ∧
        ∀ id, (c.view id).Reconciled s.config.trackMessageThreads thread (c'.view id))
      (fun _ c' => faults.Active ∧ Follows R (Under thread c) c c' ∧
        ∀ id, (c.view id).Reconciling s.config.trackMessageThreads thread (c'.view id)) := by
  refine (OrderIndex.ends_snapshot plain).andThen ?_ fun order c' hc => ?_
  · rintro _ _ ⟨rfl, ha | hn⟩
    · exact ⟨ha, .refl h, fun id => .untouched rfl⟩
    · exact absurd (h.readable there) hn
  obtain ⟨rfl, entries, he, rfl⟩ := hc
  have lists : ∀ id, (OrderSnapshot.ofEntries entries).contains id = true ↔
      (c'.view id).Lists thread := fun id => (StoredOrder.lists_iff_contains he).symm
  generalize OrderSnapshot.ofEntries entries = order at lists ⊢
  -- The copies.
  refine (ends_settleCopies h sorted hids lists).andThen (fun _ _ h => h) fun fates c₁ hc => ?_
  obtain ⟨f₁, inPlace, fate₁⟩ := hc
  generalize fates.filterMap CopyFate.present? = present at fate₁ inPlace ⊢
  generalize fates.filterMap CopyFate.unreadable? = unreadable at fate₁ ⊢
  -- The entries without a record.
  have mem : ∀ id, id ∈ order.ids.filter (fun id => !(present.any (·.id = id)) &&
      !unreadable.contains id) ↔ (c'.view id).Lists thread ∧ (∀ x ∈ present, x.id ≠ id) ∧
        id ∉ unreadable := by
    intro id
    rw [List.mem_filter, OrderSnapshot.ids_eq_map, List.mem_map, ← lists, OrderSnapshot.contains_iff]
    simp
  refine (f₁.ends_remove there plain fun id hid => Or.inr ((mem id).mp hid).1).andThen ?_
    fun _ c₂ ⟨f₂, v₂⟩ => ?_
  · rintro _ _ ⟨rfl, ha⟩
    exact ⟨ha, f₁, fun id => (fate₁ id).reconciling (Or.inl rfl) fun _ => Or.inl rfl⟩
  have fate₂ : ∀ id, Fated s.config.trackMessageThreads thread present unreadable id (c'.view id)
      ((c'.view id).setScore thread none) (fun _ => c'.view id) (c₂.view id) :=
    fun id => (fate₁ id).dropped (mem id) (v₂ id)
  -- The records without an entry.
  have named : ∀ o ∈ (present.filter fun m => !order.contains m.id).map fun m =>
      (⟨m.id, scoreFor m.createdAt 0⟩ : OrderEntry), Under thread c' o.id := by
    intro o ho
    obtain ⟨x, hx, rfl⟩ := List.mem_map.mp ho
    exact Or.inl (inPlace x (List.mem_filter.mp hx).1).holds
  refine (f₂.ends_add there plain named).andThen ?_ fun _ c₃ ⟨f₃, v₃⟩ => ?_
  · rintro _ _ ⟨rfl, ha⟩
    exact ⟨ha, f₂, fun id => (fate₂ id).reconciling (Or.inr rfl) fun _ => Or.inl rfl⟩
  have fate₃ : ∀ id, Fated s.config.trackMessageThreads thread present unreadable id (c'.view id)
      ((c'.view id).setScore thread none) ((c'.view id).kept thread) (c₃.view id) := by
    intro id
    refine (fate₂ id).listed (fun away => entryScore_away away) ?_ (v₃ id)
    rintro x hx rfl hl
    have unlisted : order.contains x.id = false := by
      rw [← Bool.not_eq_true, lists, View.Lists, hl]
      exact fun h => h rfl
    refine entryScore_unindexed hx (fun y hy hid => ?_) unlisted
    exact (hid ▸ inPlace y hy).unique (inPlace x hx)
  -- The pointers.
  have names : ∀ x ∈ present, Under thread c' x.id := fun x hx => Or.inl (inPlace x hx).holds
  refine (ends_noteAll (Under thread c') present f₃.orderly names).andThen ?_ fun _ c₄ hc => ?_
  · rintro _ c₄ ⟨ha, f₄, all⟩
    refine ⟨ha, f₃.trans f₄, fun id => ?_⟩
    rcases all id with v | ⟨x, hx, rfl, v⟩
    · exact v ▸ (fate₃ id).reconciling (Or.inr rfl) fun _ => Or.inr (Or.inl rfl)
    · refine ((fate₃ x.id).noted (fun away => absurd rfl (away x hx)) fun _ _ _ => v).reconciling
        (Or.inr rfl) fun _ => Or.inr (Or.inr rfl)
  · obtain ⟨f₄, noted, same⟩ := hc
    refine ends_pure ⟨f₃.trans f₄, fun id => ((fate₃ id).noted (same id) ?_).reconciled⟩
    rintro x hx rfl
    exact noted x hx

/-! ## Thread records -/

theorem reads_loadCopy (s : Store) (thread id : String) : (s.loadCopy thread id).Reads := by
  refine only_bind reads_get fun stored => ?_
  cases stored with
  | none => trivial
  | some r =>
    dsimp only
    split <;> trivial

theorem reads_indexedAmong (s : Store) (id : String) :
    ∀ threads : List String, (s.indexedAmong id threads).Reads
  | [] => trivial
  | thread :: rest => only_bind (s.reads_snapshot thread) fun _ =>
    only_ite trivial (reads_indexedAmong s id rest)

theorem reads_movedFrom (s : Store) (thread id : String) :
    ∀ threads : List String, (s.movedFrom thread id threads).Reads
  | [] => trivial
  | other :: rest => only_bind (s.reads_loadCopy other id) fun _ =>
    only_ite trivial (reads_movedFrom s thread id rest)

theorem reads_holdersAmong (s : Store) (id : String) :
    ∀ threads : List String, (s.holdersAmong id threads).Reads
  | [] => trivial
  | thread :: rest => only_bind (s.reads_holds thread id) fun _ =>
    only_bind (reads_holdersAmong s id rest) fun _ => trivial

theorem reads_keepCopy (s : Store) (thread : String) (copy : StoredCopy) (order : OrderSnapshot) :
    (s.keepCopy thread copy order).Reads := by
  refine only_bind (only_bind s.reads_threadIds fun _ => s.reads_holdersAmong _ _)
    fun holders => only_ite trivial ?_
  refine only_bind (s.reads_indexedAmong _ holders) fun indexed => only_ite trivial ?_
  refine only_ite trivial (only_ite trivial ?_)
  exact only_bind (s.reads_movedFrom _ _ holders) fun _ => trivial

theorem spares_merge (s : Store) (thread : String)
    (change : OrderSnapshot → Option OrderSnapshot) :
    (OrderIndex.merge s.keys thread change).Spares := by
  refine only_exclusively (only_bind (s.reads_snapshot thread).spares fun order => ?_)
  cases change order with
  | none => trivial
  | some order' => exact spares_put (by decide)

theorem spares_forgetPointer (s : Store) (id thread : String) :
    (s.forgetPointer id thread).Spares :=
  only_ite (only_bind (s.reads_pointer id).spares fun _ =>
    only_ite (spares_delete (by decide)) trivial) trivial

theorem spares_notePointer (s : Store) (id thread : String) :
    (s.notePointer id thread).Spares := only_ite (spares_put (by decide)) trivial

theorem spares_settleCopy (s : Store) (thread : String) (order : OrderSnapshot) (id : String) :
    (s.settleCopy thread order id).Spares := by
  refine only_bind (s.reads_loadCopy thread id).spares fun found => ?_
  cases found with
  | none => trivial
  | some copy =>
    refine only_ite trivial ?_
    refine only_bind (s.reads_keepCopy thread copy order).spares fun stays => only_ite ?_ ?_
    · exact only_ite trivial (only_bind (spares_put (by decide)) fun _ => trivial)
    · refine only_bind ?_ fun _ => trivial
      exact only_bind (spares_delete (by decide)) fun _ => s.spares_forgetPointer id thread

/-- Reconciling a thread writes no thread record. -/
theorem spares_reconcileExisting (s : Store) (thread : String) (ids : List String) :
    (s.reconcileExisting thread ids).Spares := by
  refine only_bind (s.reads_snapshot thread).spares fun order => ?_
  refine only_bind (only_each (s.spares_settleCopy thread order) ids) fun fates => ?_
  have remove : ∀ gone, (OrderIndex.remove s.keys thread gone).Spares := fun gone =>
    only_ite trivial (s.spares_merge thread _)
  have add : ∀ entries, (OrderIndex.add s.keys thread entries).Spares := fun entries =>
    only_ite trivial (s.spares_merge thread _)
  refine only_bind (remove _) fun _ => only_bind (add _) fun _ => ?_
  exact only_bind (only_forAll (fun x : Message => s.spares_notePointer x.id thread) _)
    fun _ => trivial

/-! ## The operation -/

/-- What becomes of the contents when a thread is reconciled. -/
inductive Reconciles (R : RecordRule) (tracking : Bool) (thread : String) (c c' : Contents) :
    Prop where
  | existing {t : Thread} (there : c.IsThread thread t) (follows : Follows R (Under thread c) c c')
      (view : ∀ id, (c.view id).Reconciled tracking thread (c'.view id))
  | gone (absent : c.thread thread = none) (e : c' = c ∨ c' = c.setIndex thread none)

/-- What may have become of the contents when the reconciliation of a thread was stopped. -/
inductive Reconciling (R : RecordRule) (tracking : Bool) (thread : String) (c c' : Contents) :
    Prop where
  | existing {t : Thread} (there : c.IsThread thread t) (follows : Follows R (Under thread c) c c')
      (view : ∀ id, (c.view id).Reconciling tracking thread (c'.view id))
  | gone (absent : c.thread thread = none) (e : c' = c.setIndex thread none)

/-- A thread without a record has no messages, so of its order at most something is left. -/
theorem ends_reconcileGone (valid : Identifier.Valid thread) (absent : c.thread thread = none) :
    Ends s.keys faults (s.reconcileGone thread [] schedule) c
      (fun _ c' => c' = c ∨ c' = c.setIndex thread none)
      (fun _ c' => c' = c ∨ (faults.Active ∧ c' = c.setIndex thread none)) := by
  have same : ∀ {c' : Contents}, c'.thread thread = none → c'.setThread thread none = c' :=
    fun {c'} h => h ▸ c'.setThread_self thread
  have apart : (s.purges thread []).Pairwise Action.Apart :=
    apart_purges s valid.plain .nil fun _ h => absurd h List.not_mem_nil
  have stopped := ends_together_stopped (k := s.keys) (c := c) faults (schedule thread)
    (I := fun c' => c' = c ∨ c' = c.setIndex thread none) apart fun _ => by
      refine (Ends.attempt ((OrderIndex.ends_clear valid.plain).mono (fun _ _ e => Or.inr e)
        fun _ _ h => Or.inl h.1)).andThen (fun _ _ h => h.elim) fun _ c₁ h₁ => ?_
      have gone : c₁.thread thread = none := by
        rcases h₁ with rfl | rfl <;> exact absent
      refine (Ends.attempt (I := fun c' => c' = c ∨ c' = c.setIndex thread none)
        (ends_deleteThread ?_ fun _ _ => h₁)).andThen (fun _ _ h => h.elim) fun _ _ h => ends_done h
      rw [same gone]
      exact h₁
  have sure := sure_together (schedule thread) (s.sure_purges thread [])
  refine ((reads_snapshot s thread).ends).andThen (fun _ _ h => Or.inl h) fun order c₁ e => ?_
  subst e
  refine ends_ite (fun _ => ends_pure (Or.inl rfl)) fun _ => ?_
  refine (stopped.and sure.ends).andThen (fun _ _ h => ?_) fun _ _ h => ends_pure h.1
  exact h.1.imp_right fun e => ⟨h.2, e⟩

theorem ends_reconcileThread (h : Orderly R c) (thread : String) :
    Ends s.keys faults (s.reconcileThread thread schedule) c
      (fun _ c' => Identifier.Valid thread ∧ c'.thread = c.thread ∧
        Reconciles R s.config.trackMessageThreads thread c c')
      (fun _ c' => (c' = c ∧ (faults.Active ∨ ¬ Identifier.Valid thread ∨ c.DamagedThread thread ∨
          c.thread thread = none)) ∨
        (Identifier.Valid thread ∧ faults.Active ∧ c'.thread = c.thread ∧
          Reconciling R s.config.trackMessageThreads thread c c')) := by
  refine (ends_check _).andThen ?_ fun _ c' hc => ?_
  · rintro _ _ ⟨rfl, violated, _⟩
    exact Or.inl ⟨rfl, Or.inr (Or.inl fun valid => violated (Identifier.violations_eq_nil.mpr valid))⟩
  obtain ⟨rfl, checked⟩ := hc
  have valid := Identifier.violations_eq_nil.mp checked
  refine (Orderly.ends_messageIds h thread).andThen (fun _ _ he => Or.inl ⟨he.1, Or.inl he.2⟩)
    fun ids c' hc => ?_
  obtain ⟨rfl, sorted, hids⟩ := hc
  refine (ends_threadExists thread).andThen ?_ fun found c' hc => ?_
  · rintro _ _ ⟨rfl, ha | damaged⟩
    · exact Or.inl ⟨rfl, Or.inl ha⟩
    · exact Or.inl ⟨rfl, Or.inr (Or.inr (Or.inl damaged))⟩
  obtain ⟨rfl, hnone, hsome⟩ := hc
  refine ends_ite (fun hf => ?_) fun hf => ?_
  · obtain ⟨t, ht⟩ := hsome hf
    refine ((ends_reconcileExisting h (ht.hasThread valid.ne_empty) valid.plain sorted hids).and
      (spares_reconcileExisting s thread ids).ends).mono ?_ ?_
    · rintro _ c₁ ⟨⟨f, v⟩, same⟩
      exact ⟨valid, same, .existing ht f v⟩
    · rintro _ c₁ ⟨⟨ha, f, v⟩, same⟩
      exact Or.inr ⟨valid, ha, same, .existing ht f v⟩
  · have absent : c'.thread thread = none := hnone (by simpa using hf)
    have empty : ids = [] := by
      refine List.eq_nil_iff_forall_not_mem.mpr fun id hid => ?_
      exact (h.hasThread ((hids id).mp hid)).2 absent
    rw [empty]
    refine (ends_reconcileGone valid absent).mono ?_ ?_
    · rintro _ c₁ e
      have same : c₁.thread = c'.thread := by
        rcases e with rfl | rfl <;> rfl
      exact ⟨valid, same, .gone absent e⟩
    · rintro _ c₁ (rfl | ⟨ha, rfl⟩)
      · exact Or.inl ⟨rfl, Or.inr (Or.inr (Or.inr absent))⟩
      · exact Or.inr ⟨valid, ha, rfl, .gone absent rfl⟩

end Store

end ChatMemory
