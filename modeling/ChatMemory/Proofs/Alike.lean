import ChatMemory.Proofs.Outcomes

/-!
# Actions that differ in pointers only

Two actions are alike if from tables that differ in nothing but pointers they come to the same result,
and leave the same threads, messages and resources (`Action.Alike`). Most of the work of an operation
is done by calls for other tables than that of the pointers, and an action that makes no others is
alike to itself. So it is enough to go through an operation call by call, with one rule for each way
to make an action, and to look closer where a pointer is read.

What is known of the tables (`I`) is carried along, since the records that an action reads decide what
it writes.

## Main statements

* `alike_ask` — a call for another table than that of the pointers.
* `Alike.bind`, `Alike.recover`, `Alike.each`, … — one rule for each way to make an action.
* `Notes.alike` — an action that only changes pointers is alike to none at all.
-/

namespace ChatMemory

namespace Tables

variable {t t' : Tables} {table : Table}

theorem rows_eq_of_main (h : t'.main = t.main) (hne : table ≠ .messageThreads) :
    t'.rows table = t.rows table :=
  Rows.ext fun key => get?_eq_of_main h hne key

theorem main_eq_of_rows (h : ∀ table, table ≠ .messageThreads → t'.rows table = t.rows table) :
    t'.main = t.main := by
  rw [main, main, show t'.threads = t.threads from h .threads (by decide),
    show t'.messages = t.messages from h .messages (by decide),
    show t'.resources = t.resources from h .resources (by decide)]

end Tables

namespace Action

variable {α β : Type} {I : Tables → Prop} {t : Tables}

/--
From tables `t` of which `I` is known, and from any others with the same threads, messages and
resources, the two actions end in the same way and leave the same of these again. The first one
leaves tables of which `I` is still known.
-/
def Alike (I : Tables → Prop) (t : Tables) (p q : Action α) : Prop :=
  I t → ∀ t', t'.main = t.main → (q.outcome t').1 = (p.outcome t).1 ∧
    (q.outcome t').2.main = (p.outcome t).2.main ∧ I (p.outcome t).2

theorem alike_pure {a : α} : Alike I t (pure a) (pure a) := fun h _ same => ⟨rfl, same, h⟩

theorem alike_fail {error : MemoryError} : Alike I t (.fail error : Action α) (.fail error) :=
  fun h _ same => ⟨rfl, same, h⟩

theorem Alike.assuming {p q : Action α} (h : I t → Alike I t p q) : Alike I t p q :=
  fun ht => h ht ht

/-! ## Calls -/

theorem alike_ask {r : Request} {code : String} {context : ErrorContext}
    (hne : r.table ≠ .messageThreads) (keeps : ∀ t, I t → I (r.effect t)) :
    Alike I t (ask r code context) (ask r code context) := by
  intro ht t' same
  let calls (table : Table) : Prop := table ≠ .messageThreads
  have only : (ask r code context).Only fun r => calls r.table := only_ask hne
  obtain ⟨result, rest⟩ := only.outcome_congr fun table hc => Tables.rows_eq_of_main same hc
  exact ⟨result, Tables.main_eq_of_rows rest, keeps t ht⟩

theorem alike_get {table : Table} {key : String} {code : String} {context : ErrorContext}
    (hne : table ≠ .messageThreads) :
    Alike I t (ask (.get table key) code context) (ask (.get table key) code context) :=
  alike_ask hne fun _ h => h

theorem alike_list {table : Table} {start : String} {code : String} {context : ErrorContext}
    (hne : table ≠ .messageThreads) :
    Alike I t (ask (.list table start) code context) (ask (.list table start) code context) :=
  alike_ask hne fun _ h => h

/-- Changes of pointers may be left out. -/
theorem Notes.alike (keeps : ∀ t t', I t → t'.main = t.main → I t') {p : Action Unit}
    (h : p.Notes) (ends : ∃ t', p.Yields t () t') : Alike I t p (pure ()) := by
  intro ht t' same
  obtain ⟨t₁, hy⟩ := ends
  have main : t₁.main = t.main := h.yields hy
  rw [show p.outcome t = (.ok (), t₁) from hy]
  exact ⟨rfl, same.trans main.symm, keeps t t₁ ht main⟩

/-- Two readings that give the same. -/
theorem alike_of_yields {p q : Action α} {a : α} (hp : p.Yields t a t)
    (hq : ∀ t', t'.main = t.main → q.Yields t' a t') : Alike I t p q := by
  intro ht t' same
  rw [show p.outcome t = (.ok a, t) from hp, show q.outcome t' = (.ok a, t') from hq t' same]
  exact ⟨rfl, same, ht⟩

/-! ## Sequences -/

theorem Alike.bind {p q : Action α} {f g : α → Action β} (h : Alike I t p q)
    (hf : ∀ a t₁, p.Yields t a t₁ → Alike I t₁ (f a) (g a)) :
    Alike I t (p >>= f) (q >>= g) := by
  intro ht t' same
  obtain ⟨result, main, kept⟩ := h ht t' same
  rw [outcome_bind, outcome_bind]
  cases hp : p.outcome t with
  | mk r t₁ =>
    cases hq : q.outcome t' with
    | mk r' t₁' =>
      rw [hp, hq] at result main
      rw [hp] at kept
      obtain rfl : r' = r := result
      cases r' with
      | ok a => exact hf a t₁ hp kept t₁' main
      | error e => exact ⟨rfl, main, kept⟩

/-- The rule for a sequence that begins with a reading. -/
theorem Alike.bindReads {p q : Action α} {f g : α → Action β} (hr : p.Reads) (h : Alike I t p q)
    (hf : ∀ a, p.Yields t a t → Alike I t (f a) (g a)) : Alike I t (p >>= f) (q >>= g) := by
  refine h.bind fun a t₁ hy => ?_
  obtain rfl := hr.yields hy
  exact hf a hy

theorem Alike.map {p q : Action α} {f : α → β} (h : Alike I t p q) :
    Alike I t (f <$> p) (f <$> q) := by
  rw [← bind_pure_comp, ← bind_pure_comp]
  exact h.bind fun _ _ _ => alike_pure

theorem Alike.recover {p q : Action α} {f g : MemoryError → Action α} (h : Alike I t p q)
    (hf : ∀ e t₁, Alike I t₁ (f e) (g e)) : Alike I t (p.recover f) (q.recover g) := by
  intro ht t' same
  obtain ⟨result, main, kept⟩ := h ht t' same
  rw [outcome_recover, outcome_recover]
  cases hp : p.outcome t with
  | mk r t₁ =>
    cases hq : q.outcome t' with
    | mk r' t₁' =>
      rw [hp, hq] at result main
      rw [hp] at kept
      obtain rfl : r' = r := result
      cases r' with
      | ok a => exact ⟨rfl, main, kept⟩
      | error e => exact hf e t₁ kept t₁' main

theorem Alike.orEmpty {p q : Action α} {empty : α} (h : Alike I t p q) :
    Alike I t (p.orEmpty empty) (q.orEmpty empty) :=
  h.recover fun e _ => by
    cases e.isValidation
    · exact alike_pure
    · exact alike_fail

theorem Alike.exclusively {key : String} {p q : Action α} (h : Alike I t p q) :
    Alike I t (Action.exclusively key p) (Action.exclusively key q) := by
  intro ht t' same
  rw [outcome_exclusively, outcome_exclusively]
  exact h ht t' same

theorem alike_ite {c : Prop} [Decidable c] {p p' q q' : Action α} (hp : c → Alike I t p p')
    (hq : ¬ c → Alike I t q q') :
    Alike I t (if c then p else q) (if c then p' else q') := by
  by_cases h : c
  · rw [if_pos h, if_pos h]
    exact hp h
  · rw [if_neg h, if_neg h]
    exact hq h

/-! ## Many actions -/

/-- The rule for a list of actions: `J` holds in front of each of them. -/
theorem Alike.each {f g : α → Action β} {J : Tables → Prop} : ∀ {l : List α} {t : Tables},
    (∀ a ∈ l, ∀ t, J t → Alike I t (f a) (g a)) →
    (∀ a ∈ l, ∀ t b t₁, J t → (f a).Yields t b t₁ → J t₁) → J t →
    Alike I t (Action.each f l) (Action.each g l)
  | [], _, _, _, _ => alike_pure
  | a :: rest, t, alike, step, h => by
    refine (alike a List.mem_cons_self t h).bind fun b t₁ hy => ?_
    refine Alike.bind ?_ fun _ _ _ => alike_pure
    exact Alike.each (fun a ha => alike a (List.mem_cons_of_mem _ ha))
      (fun a ha => step a (List.mem_cons_of_mem _ ha)) (step a List.mem_cons_self t b t₁ h hy)

theorem Alike.forAll {f g : α → Action Unit} {J : Tables → Prop} {l : List α}
    (alike : ∀ a ∈ l, ∀ t, J t → Alike I t (f a) (g a))
    (step : ∀ a ∈ l, ∀ t b t₁, J t → (f a).Yields t b t₁ → J t₁) (h : J t) :
    Alike I t (Action.forAll f l) (Action.forAll g l) := by
  rw [forAll_eq_map_each, forAll_eq_map_each]
  exact (Alike.each alike step h).map

/-- Actions that are alike whatever the tables are. -/
theorem alike_each {f g : α → Action β} {l : List α} (h : ∀ a ∈ l, ∀ t, Alike I t (f a) (g a)) :
    Alike I t (Action.each f l) (Action.each g l) :=
  Alike.each (J := fun _ => True) (fun a ha t _ => h a ha t) (fun _ _ _ _ _ _ _ => trivial) trivial

theorem alike_forAll {f g : α → Action Unit} {l : List α}
    (h : ∀ a ∈ l, ∀ t, Alike I t (f a) (g a)) :
    Alike I t (Action.forAll f l) (Action.forAll g l) := by
  rw [forAll_eq_map_each, forAll_eq_map_each]
  exact (alike_each h).map

end Action

end ChatMemory
