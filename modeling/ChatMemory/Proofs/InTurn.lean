import ChatMemory.Proofs.Orderly

/-!
# At the same time as in turn

Actions at the same time that have no key in common do not get in each other's way. Whatever order
their calls are made in and whichever calls fail, they leave what they leave when they are taken in
turn, each with some calls failing, if then an error of one does not stop the next.

What carries this: a call can be put behind the calls of other actions (`MayEnd.past`). So each call
that is made at the same time can be given back to its action (`InTurn.giveBack`).

## Main statements

* `inTurn_of_together` — the actions in turn, for any order of the calls.
* `ends_together` — the rule for actions at the same time that all go well.
* `ends_together_stopped` — and for those that may be stopped.
-/

namespace ChatMemory

/-- The failure of the call that is made after some number of calls, in front of later failures. -/
def Faults.first (faults : Faults) (calls : Nat) (failure : Option KvError) : Faults := fun n r =>
  if n = calls then failure else faults n r

namespace Action

variable {α β : Type} {t t' : Tables}

/-! ## How an action may end -/

/-- With some of its calls failing, the action ends on the tables `t` with `r` and leaves `t'`. -/
def MayEnd : Action α → Tables → Except MemoryError α → Tables → Prop
  | .done value, t, r, t' => r = .ok value ∧ t' = t
  | .fail error, t, r, t' => r = .error error ∧ t' = t
  | .call q next, t, r, t' => (next (.ok (q.answer t))).MayEnd (q.effect t) r t' ∨
    ∃ failure, (next (.error failure)).MayEnd t r t'
  | .enter _ next, t, r, t' => next.MayEnd t r t'
  | .leave _ next, t, r, t' => next.MayEnd t r t'

theorem mayEnd_run (faults : Faults) : ∀ (p : Action α) (w : World),
    p.MayEnd w.tables (p.run faults w).1 (p.run faults w).2.tables
  | .done _, _ => ⟨rfl, rfl⟩
  | .fail _, _ => ⟨rfl, rfl⟩
  | .call q next, w => by
    cases h : faults w.calls q with
    | none =>
      rw [run_call_success h]
      exact Or.inl (mayEnd_run faults _ ⟨q.effect w.tables, w.turns, w.calls + 1⟩)
    | some failure =>
      rw [run_call_failure h]
      exact Or.inr ⟨failure, mayEnd_run faults _ { w with calls := w.calls + 1 }⟩
  | .enter key next, w => mayEnd_run faults next (w.enter key)
  | .leave _ next, w => mayEnd_run faults next w.leave

/-- What calls fail that were made before does not matter to a run. -/
theorem run_congr {faults faults' : Faults} : ∀ (p : Action α) (w : World),
    (∀ n, w.calls ≤ n → faults n = faults' n) → p.run faults w = p.run faults' w
  | .done _, _, _ => rfl
  | .fail _, _, _ => rfl
  | .call q next, w, h => by
    have same : faults w.calls q = faults' w.calls q := congrFun (h _ (Nat.le_refl _)) q
    have later : ∀ n, w.calls + 1 ≤ n → faults n = faults' n := fun n hn => h n (Nat.le_of_succ_le hn)
    cases hf : faults' w.calls q with
    | none =>
      rw [run_call_success hf, run_call_success (same.trans hf)]
      exact run_congr _ ⟨q.effect w.tables, w.turns, w.calls + 1⟩ later
    | some failure =>
      rw [run_call_failure hf, run_call_failure (same.trans hf)]
      exact run_congr _ { w with calls := w.calls + 1 } later
  | .enter key next, w, h => run_congr next (w.enter key) h
  | .leave _ next, w, h => run_congr next w.leave h

theorem run_first (faults : Faults) (failure : Option KvError) (p : Action α) (w : World)
    (calls : Nat) (h : calls < w.calls) :
    p.run (faults.first calls failure) w = p.run faults w :=
  run_congr p w fun n hn => funext fun _ => if_neg (by omega)

/-- How an action may end is how it ends for some choice of failures. -/
theorem MayEnd.exists_run : ∀ {p : Action α} {r : Except MemoryError α} {t' : Tables} (w : World),
    p.MayEnd w.tables r t' →
    ∃ faults, (p.run faults w).1 = r ∧ (p.run faults w).2.tables = t'
  | .done _, _, _, _, h => ⟨Faults.none, h.1.symm, h.2.symm⟩
  | .fail _, _, _, _, h => ⟨Faults.none, h.1.symm, h.2.symm⟩
  | .call q next, r, t', w, h => by
    rcases h with h | ⟨failure, h⟩
    · obtain ⟨faults, result, left⟩ :=
        MayEnd.exists_run ⟨q.effect w.tables, w.turns, w.calls + 1⟩ h
      refine ⟨faults.first w.calls none, ?_⟩
      rw [run_call_success (if_pos rfl), run_first faults none _ _ _ (Nat.lt_succ_self _)]
      exact ⟨result, left⟩
    · obtain ⟨faults, result, left⟩ := MayEnd.exists_run { w with calls := w.calls + 1 } h
      refine ⟨faults.first w.calls (some failure), ?_⟩
      rw [run_call_failure (if_pos rfl), run_first faults _ _ _ _ (Nat.lt_succ_self _)]
      exact ⟨result, left⟩
  | .enter key next, _, _, w, h => MayEnd.exists_run (p := next) (w.enter key) h
  | .leave _ next, _, _, w, h => MayEnd.exists_run (p := next) w.leave h

theorem mayEnd_bind {f : α → Action β} {r : Except MemoryError β} {u : Tables} :
    ∀ {p : Action α} {t : Tables}, (p >>= f).MayEnd t r u ↔
      (∃ a s, p.MayEnd t (.ok a) s ∧ (f a).MayEnd s r u) ∨
        ∃ e, p.MayEnd t (.error e) u ∧ r = .error e
  | .done a, t => by
    constructor
    · exact fun h => Or.inl ⟨a, t, ⟨rfl, rfl⟩, h⟩
    · rintro (⟨_, _, ⟨e, rfl⟩, h⟩ | ⟨_, ⟨e, _⟩, _⟩)
      · exact Except.ok.inj e ▸ h
      · exact absurd e (by simp)
  | .fail e, t => by
    constructor
    · rintro ⟨hr, rfl⟩
      exact Or.inr ⟨e, ⟨rfl, rfl⟩, hr⟩
    · rintro (⟨_, _, ⟨e, _⟩, _⟩ | ⟨_, ⟨e, rfl⟩, rfl⟩)
      · exact absurd e (by simp)
      · exact ⟨congrArg Except.error (Except.error.inj e), rfl⟩
  | .call q next, t => by
    have well := mayEnd_bind (f := f) (r := r) (u := u) (p := next (.ok (q.answer t)))
      (t := q.effect t)
    have failed := fun failure => mayEnd_bind (f := f) (r := r) (u := u)
      (p := next (.error failure)) (t := t)
    show ((next _ >>= f).MayEnd _ r u ∨ ∃ failure, (next _ >>= f).MayEnd t r u) ↔ _
    simp only [well, failed, MayEnd]
    grind
  | .enter _ next, t => mayEnd_bind (p := next)
  | .leave _ next, t => mayEnd_bind (p := next)

/-- If all calls fail, the tables stay as they are. -/
theorem exists_mayEnd : ∀ (p : Action α) (t : Tables), ∃ r, p.MayEnd t r t
  | .done _, _ => ⟨_, rfl, rfl⟩
  | .fail _, _ => ⟨_, rfl, rfl⟩
  | .call _ next, t => by
    obtain ⟨r, h⟩ := exists_mayEnd (next (.error (.backend ""))) t
    exact ⟨r, Or.inr ⟨_, h⟩⟩
  | .enter _ next, t => exists_mayEnd next t
  | .leave _ next, t => exists_mayEnd next t

end Action

/-! ## Apart -/

namespace Request

/-- The row that a call is about; a listing is about many. -/
def row? : Request → Option (Table × String)
  | .list _ _ => none
  | .get table key => some (table, key)
  | .put table key _ => some (table, key)
  | .delete table key => some (table, key)

/-- Two calls that are about different rows. -/
def Apart (q q' : Request) : Prop := ∃ a b, q.row? = some a ∧ q'.row? = some b ∧ a ≠ b

variable {q q' : Request} {t : Tables}

/-- A call leaves all other rows as they are. -/
theorem get?_effect {table : Table} {key : String} (h : q.row? ≠ some (table, key)) (t : Tables) :
    (q.effect t).get? table key = t.get? table key := by
  cases q with
  | get _ _ => rfl
  | list _ _ => rfl
  | put other k v =>
    refine (t.get?_put ..).trans (if_neg ?_)
    rintro ⟨rfl, rfl⟩
    exact h rfl
  | delete other k =>
    refine (t.get?_delete ..).trans (if_neg ?_)
    rintro ⟨rfl, rfl⟩
    exact h rfl

/-- What a call leaves in its row does not depend on the other rows. -/
theorem get?_effect_self {a : Table × String} (h : q.row? = some a) {t t' : Tables}
    (same : t.get? a.1 a.2 = t'.get? a.1 a.2) :
    (q.effect t).get? a.1 a.2 = (q.effect t').get? a.1 a.2 := by
  cases q with
  | list _ _ => exact absurd h (by simp [row?])
  | get _ _ => exact same
  | put table key v =>
    obtain rfl := Option.some.inj h
    simp [effect, Tables.get?_put]
  | delete table key =>
    obtain rfl := Option.some.inj h
    simp [effect, Tables.get?_delete]

theorem answer_congr {a : Table × String} (h : q.row? = some a) {t t' : Tables}
    (same : t.get? a.1 a.2 = t'.get? a.1 a.2) : q.answer t = q.answer t' := by
  cases q with
  | list _ _ => exact absurd h (by simp [row?])
  | get table key =>
    obtain rfl := Option.some.inj h
    exact same
  | put _ _ _ => rfl
  | delete _ _ => rfl

theorem Apart.answer (h : q.Apart q') (t : Tables) : q.answer (q'.effect t) = q.answer t := by
  obtain ⟨a, b, ha, hb, hne⟩ := h
  refine answer_congr ha (get?_effect ?_ t)
  rw [hb]
  exact fun e => hne (Option.some.inj e).symm

/-- Calls about different rows can be exchanged. -/
theorem Apart.effect (h : q.Apart q') (t : Tables) :
    q.effect (q'.effect t) = q'.effect (q.effect t) := by
  obtain ⟨a, b, ha, hb, hne⟩ := h
  refine Tables.ext fun table key => ?_
  by_cases hq : q.row? = some (table, key)
  · have hq' : q'.row? ≠ some (table, key) := by
      rw [hb, ← hq, ha]
      exact fun e => hne (Option.some.inj e).symm
    rw [get?_effect hq']
    exact get?_effect_self hq (get?_effect hq' t)
  · rw [get?_effect hq]
    by_cases hq' : q'.row? = some (table, key)
    · exact get?_effect_self hq' (get?_effect hq t).symm
    · rw [get?_effect hq', get?_effect hq', get?_effect hq]

theorem Apart.symm (h : q.Apart q') : q'.Apart q := by
  obtain ⟨a, b, ha, hb, hne⟩ := h
  exact ⟨b, a, hb, ha, hne.symm⟩

end Request

namespace Action

variable {α β : Type} {t t' : Tables}

/-- Two actions that make no calls about the same row, and no listings. -/
def Apart (p : Action α) (p' : Action β) : Prop := p.Only fun q => p'.Only (q.Apart ·)

/-- An action that makes no calls but those about some rows. -/
abbrev Within (rows : Table × String → Prop) (p : Action α) : Prop :=
  p.Only fun q => ∃ a, q.row? = some a ∧ rows a

theorem Within.apart {rows rows' : Table × String → Prop} {p : Action α} {p' : Action β}
    (h : p.Within rows) (h' : p'.Within rows') (disjoint : ∀ a, rows a → ¬ rows' a) : p.Apart p' :=
  Only.mono (fun _ ⟨a, ha, mine⟩ => Only.mono (fun _ ⟨b, hb, others⟩ =>
    ⟨a, b, ha, hb, fun e => disjoint a mine (e ▸ others)⟩) h') h

/-- A call can be put behind an action that is apart from it. -/
theorem MayEnd.past {q : Request} {r : Except MemoryError α} {t' : Tables} :
    ∀ {p : Action α} {t : Tables}, p.Only (·.Apart q) → p.MayEnd (q.effect t) r t' →
    ∃ s, p.MayEnd t r s ∧ t' = q.effect s ∧ q.answer s = q.answer t
  | .done _, t, _, h => ⟨t, ⟨h.1, rfl⟩, h.2, rfl⟩
  | .fail _, t, _, h => ⟨t, ⟨h.1, rfl⟩, h.2, rfl⟩
  | .call q' next, t, apart, h => by
    rcases h with h | ⟨failure, h⟩
    · rw [apart.1.answer, apart.1.effect] at h
      obtain ⟨s, ends, e, same⟩ := MayEnd.past (apart.2 _) h
      exact ⟨s, Or.inl ends, e, same.trans (apart.1.symm.answer t)⟩
    · obtain ⟨s, ends, e, same⟩ := MayEnd.past (apart.2 _) h
      exact ⟨s, Or.inr ⟨failure, ends⟩, e, same⟩
  | .enter _ next, t, apart, h => MayEnd.past (p := next) apart h
  | .leave _ next, t, apart, h => MayEnd.past (p := next) apart h

/-! ## One call of an action -/

/-- What is left of an action on some tables after at most one call, and the tables after it. -/
inductive Steps (p rest : Action Unit) (t : Tables) : Tables → Prop where
  | still (only : ∀ kind, p.Only kind → rest.Only kind)
      (resumes : ∀ s r s', rest.MayEnd s r s' → p.MayEnd s r s') : Steps p rest t t
  | call (q : Request) (kind : ∀ kind, p.Only kind → kind q)
      (only : ∀ kind, p.Only kind → rest.Only kind)
      (resumes : ∀ s r s', q.answer s = q.answer t → rest.MayEnd (q.effect s) r s' →
        p.MayEnd s r s') : Steps p rest t (q.effect t)

variable {p rest : Action Unit}

theorem Steps.only (h : Steps p rest t t') {kind : Request → Prop} (hp : p.Only kind) :
    rest.Only kind := by
  cases h with
  | still only _ => exact only kind hp
  | call _ _ only _ => exact only kind hp

/-- What comes before an action without a call does not matter. -/
theorem Steps.after (h : Steps p rest t t') {p' : Action Unit}
    (only : ∀ kind, p'.Only kind → p.Only kind) (resumes : ∀ s r s', p.MayEnd s r s' →
      p'.MayEnd s r s') : Steps p' rest t t' := by
  cases h with
  | still only' resumes' =>
    exact .still (fun kind h => only' kind (only kind h)) fun s r s' h =>
      resumes s r s' (resumes' s r s' h)
  | call q kind only' resumes' =>
    exact .call q (fun kind' h => kind kind' (only kind' h)) (fun kind h => only' kind (only kind h))
      fun s r s' same h => resumes s r s' (resumes' s r s' same h)

/-- What is left goes on as told, or it has ended with an error. -/
def Continues (k : Action Unit → Action Unit) (rest : Action Unit) (t : Tables)
    (r : Except MemoryError Unit) (t' : Tables) : Prop :=
  (k rest).MayEnd t r t' ∨ ∃ e, r = .error e ∧ t' = t

theorem mayEnd_settle {k : Action Unit → Action Unit} {r : Except MemoryError Unit} :
    ∀ {p : Action Unit}, (p.settle k).MayEnd t r t' →
    ∃ rest, (∀ kind, p.Only kind → rest.Only kind) ∧
      (∀ s r s', rest.MayEnd s r s' → p.MayEnd s r s') ∧ Continues k rest t r t'
  | .done _, h => ⟨.done (), fun _ _ => trivial, fun _ _ _ h => h, Or.inl h⟩
  | .fail e, h => ⟨.fail e, fun _ _ => trivial, fun _ _ _ h => h, Or.inr ⟨e, h⟩⟩
  | .call q next, h => ⟨.call q next, fun _ h => h, fun _ _ _ h => h, Or.inl h⟩
  | .enter _ next, h => mayEnd_settle (p := next) h
  | .leave _ next, h => mayEnd_settle (p := next) h

theorem mayEnd_step {k : Action Unit → Action Unit} {r : Except MemoryError Unit} :
    ∀ {p : Action Unit}, (p.step k).MayEnd t r t' →
    ∃ rest s, Steps p rest t s ∧ Continues k rest s r t'
  | .done _, h => ⟨.done (), t, .still (fun _ _ => trivial) fun _ _ _ h => h, Or.inl h⟩
  | .fail e, h => ⟨.fail e, t, .still (fun _ _ => trivial) fun _ _ _ h => h, Or.inr ⟨e, h⟩⟩
  | .call q next, h => by
    rcases h with h | ⟨failure, h⟩
    · obtain ⟨rest, only, resumes, continues⟩ := mayEnd_settle h
      refine ⟨rest, q.effect t, .call q (fun _ h => h.1) (fun kind h => only kind (h.2 _))
        fun s r s' same h => Or.inl ?_, continues⟩
      rw [same]
      exact resumes _ r s' h
    · obtain ⟨rest, only, resumes, continues⟩ := mayEnd_settle h
      exact ⟨rest, t, .still (fun kind h => only kind (h.2 _))
        fun s r s' h => Or.inr ⟨failure, resumes s r s' h⟩, continues⟩
  | .enter _ next, h => by
    obtain ⟨rest, s, steps, continues⟩ := mayEnd_step (p := next) h
    exact ⟨rest, s, steps.after (fun _ h => h) fun _ _ _ h => h, continues⟩
  | .leave _ next, h => by
    obtain ⟨rest, s, steps, continues⟩ := mayEnd_step (p := next) h
    exact ⟨rest, s, steps.after (fun _ h => h) fun _ _ _ h => h, continues⟩

/-! ## Actions in turn -/

/-- Actions are taken one after the other; the error of one does not stop the next. -/
inductive InTurn : List (Action Unit) → List (Except MemoryError Unit) → Tables → Tables → Prop where
  | nil (t : Tables) : InTurn [] [] t t
  | cons {p : Action Unit} {actions : List (Action Unit)} {r : Except MemoryError Unit}
      {results : List (Except MemoryError Unit)} {t s t' : Tables} (first : p.MayEnd t r s)
      (later : InTurn actions results s t') : InTurn (p :: actions) (r :: results) t t'

theorem exists_inTurn : ∀ (actions : List (Action Unit)) (t : Tables),
    ∃ results, InTurn actions results t t
  | [], t => ⟨[], .nil t⟩
  | p :: actions, t => by
    obtain ⟨r, first⟩ := exists_mayEnd p t
    obtain ⟨results, later⟩ := exists_inTurn actions t
    exact ⟨r :: results, .cons first later⟩

/-- A call that was made first of all is given back to its action, behind the actions in front. -/
theorem InTurn.giveBack : ∀ {actions : List (Action Unit)} {results : List (Except MemoryError Unit)}
    {i : Nat} {t s t' : Tables}, actions.Pairwise Apart → actions[i]? = some p → Steps p rest t s →
    InTurn (actions.set i rest) results s t' → InTurn actions results t t'
  | [], _, i, _, _, _, _, hi, _, _ => absurd hi (by simp)
  | a :: actions, _, 0, _, _, _, _, hi, steps, h => by
    obtain rfl := Option.some.inj hi
    cases h with
    | cons first later =>
      cases steps with
      | still _ resumes => exact .cons (resumes _ _ _ first) later
      | call q _ _ resumes => exact .cons (resumes _ _ _ rfl first) later
  | a :: actions, _, i + 1, _, _, _, apart, hi, steps, h => by
    obtain ⟨apart₁, apart⟩ := List.pairwise_cons.mp apart
    have hi : actions[i]? = some p := hi
    cases h with
    | cons first later =>
      cases steps with
      | still only resumes => exact .cons first (later.giveBack apart hi (.still only resumes))
      | call q kind only resumes =>
        -- The actions in front are apart from `p`, so from each of its calls.
        have away : a.Only (·.Apart q) :=
          Only.mono (fun _ h => kind _ h) (apart₁ p (List.mem_of_getElem? hi))
        obtain ⟨s, ahead, rfl, same⟩ := first.past away
        exact .cons ahead (later.giveBack apart hi (.call q kind only fun s' r s'' e =>
          resumes s' r s'' (e.trans same)))

theorem pairwise_set {R : Action Unit → Action Unit → Prop} {actions : List (Action Unit)} {i : Nat}
    (h : actions.Pairwise R) (hi : actions[i]? = some p) (before : ∀ a, R a p → R a rest)
    (after : ∀ a, R p a → R rest a) : (actions.set i rest).Pairwise R := by
  rw [List.pairwise_iff_getElem] at h ⊢
  obtain ⟨hlt, rfl⟩ := List.getElem?_eq_some_iff.mp hi
  intro j l hj hl hjl
  rw [List.length_set] at hj hl
  rw [List.getElem_set, List.getElem_set]
  have hR := h j l hj hl hjl
  split
  · next e =>
    subst e
    rw [if_neg (Nat.ne_of_lt hjl)]
    exact after _ hR
  · split
    · next e =>
      subst e
      exact before _ hR
    · exact hR

/-- Actions at the same time that are apart end as they may end in turn. -/
theorem inTurn_of_together {r : Except MemoryError Unit} :
    ∀ (order : List Nat) {actions : List (Action Unit)} {t : Tables}, actions.Pairwise Apart →
    (together order actions).MayEnd t r t' →
    ∃ results, InTurn actions results t t' ∧ (r = .ok () → ∀ x ∈ results, x = .ok ())
  | [], [], t, _, h => by
    obtain ⟨_, rfl⟩ := h
    exact ⟨[], .nil _, fun _ _ h => absurd h List.not_mem_nil⟩
  | [], p :: actions, t, apart, h => by
    rcases mayEnd_bind.mp h with ⟨_, s, first, h⟩ | ⟨e, first, rfl⟩
    · obtain ⟨results, later, well⟩ :=
        inTurn_of_together [] (List.pairwise_cons.mp apart).2 h
      exact ⟨_ :: results, .cons first later, fun hr => List.forall_mem_cons.mpr ⟨rfl, well hr⟩⟩
    · obtain ⟨results, later⟩ := exists_inTurn actions t'
      exact ⟨_ :: results, .cons first later, fun hr => absurd hr (by simp)⟩
  | i :: order, actions, t, apart, h => by
    rw [together] at h
    cases hi : actions[i]? with
    | none =>
      rw [hi] at h
      exact inTurn_of_together order apart h
    | some p =>
      rw [hi] at h
      obtain ⟨rest, s, steps, continues⟩ := mayEnd_step h
      rcases continues with h | ⟨e, rfl, rfl⟩
      · have apart' : (actions.set i rest).Pairwise Apart := pairwise_set apart hi
          (fun a h => Only.mono (fun _ h => steps.only h) h) fun a h => steps.only h
        obtain ⟨results, inTurn, well⟩ := inTurn_of_together order apart' h
        exact ⟨results, inTurn.giveBack apart hi steps, well⟩
      · obtain ⟨results, inTurn⟩ := exists_inTurn (actions.set i rest) t'
        exact ⟨results, inTurn.giveBack apart hi steps, fun hr => absurd hr (by simp)⟩

/-! ## The rules -/

/-- Passes over an error. -/
def attempt (p : Action Unit) : Action Unit := p.recover fun _ => .done ()

theorem MayEnd.attempt {r : Except MemoryError Unit} : ∀ {p : Action Unit} {t : Tables},
    p.MayEnd t r t' → p.attempt.MayEnd t (.ok ()) t'
  | .done _, _, h => ⟨rfl, h.2⟩
  | .fail _, _, h => ⟨rfl, h.2⟩
  | .call _ _, _, h => h.imp MayEnd.attempt fun ⟨failure, h⟩ => ⟨failure, h.attempt⟩
  | .enter _ next, _, h => MayEnd.attempt (p := next) h
  | .leave _ next, _, h => MayEnd.attempt (p := next) h

theorem InTurn.attempts {actions : List (Action Unit)} {results : List (Except MemoryError Unit)}
    (h : InTurn actions results t t') : (forAll attempt actions).MayEnd t (.ok ()) t' := by
  induction h with
  | nil t => exact ⟨rfl, rfl⟩
  | cons first _ ih => exact mayEnd_bind.mpr (Or.inl ⟨(), _, first.attempt, ih⟩)

theorem InTurn.wellDone {actions : List (Action Unit)} {results : List (Except MemoryError Unit)}
    (h : InTurn actions results t t') (well : ∀ x ∈ results, x = .ok ()) :
    (forAll id actions).MayEnd t (.ok ()) t' := by
  induction h with
  | nil t => exact ⟨rfl, rfl⟩
  | cons first _ ih =>
    obtain ⟨rfl, others⟩ := List.forall_mem_cons.mp well
    exact mayEnd_bind.mpr (Or.inl ⟨(), _, first, ih others⟩)

section Judgement

variable {k : Keyspace} {c : Contents} {actions : List (Action Unit)}

theorem MayEnd.holds {Q : α → Contents → Prop} {E : MemoryError → Contents → Prop} {p : Action α}
    {a : α} (m : p.MayEnd t (.ok a) t') (h : ∀ faults, Ends k faults p (k.contents t) Q E) :
    Q a (k.contents t') := by
  obtain ⟨faults, result, rfl⟩ := m.exists_run ⟨t, .idle, 0⟩
  exact (h faults).ok rfl (Prod.ext result rfl)

/-- Actions at the same time that go well leave what they leave in turn. -/
theorem ends_together (faults : Faults) (order : List Nat) {Q : Contents → Prop}
    (apart : actions.Pairwise Apart)
    (h : ∀ faults, Ends k faults (forAll id actions) c (fun _ c' => Q c') fun _ _ => True) :
    Ends k faults (together order actions) c (fun _ c' => Q c') fun _ _ => True := by
  rintro w rfl
  obtain ⟨results, inTurn, well⟩ :=
    inTurn_of_together order apart (mayEnd_run faults (together order actions) w)
  generalize (together order actions).run faults w = out at inTurn well ⊢
  obtain ⟨result, w'⟩ := out
  cases result with
  | ok _ => exact (inTurn.wellDone (well rfl)).holds h
  | error _ => trivial

/-- If they are stopped, each of them may have made some of its calls. -/
theorem ends_together_stopped (faults : Faults) (order : List Nat) {I : Contents → Prop}
    (apart : actions.Pairwise Apart)
    (h : ∀ faults, Ends k faults (forAll attempt actions) c (fun _ c' => I c') fun _ _ => True) :
    Ends k faults (together order actions) c (fun _ c' => I c') fun _ c' => I c' := by
  rintro w rfl
  obtain ⟨results, inTurn, _⟩ :=
    inTurn_of_together order apart (mayEnd_run faults (together order actions) w)
  have left := inTurn.attempts.holds h
  generalize (together order actions).run faults w = out at left ⊢
  obtain ⟨result, w'⟩ := out
  cases result with
  | ok _ => exact left
  | error _ => exact left

/-- The rule for an attempt: its error does not matter. -/
theorem Ends.attempt {I : Contents → Prop} {p : Action Unit}
    (h : Ends k faults p c (fun _ c' => I c') fun _ c' => I c') :
    Ends k faults p.attempt c (fun _ c' => I c') fun _ _ => False :=
  Ends.recover (h.mono (fun _ _ h => h) fun _ _ h => ends_done h)

end Judgement

/-! ## Errors of their own -/

/-- An action that ends with an error only if a call has failed. -/
def Sure : Action α → Prop
  | .done _ => True
  | .fail _ => False
  | .call _ next => ∀ answer, (next (.ok answer)).Sure
  | .enter _ next => next.Sure
  | .leave _ next => next.Sure

theorem Sure.ends {k : Keyspace} {faults : Faults} : ∀ {p : Action α} {c : Contents}, p.Sure →
    Ends k faults p c (fun _ _ => True) fun _ _ => faults.Active
  | .done _, _, _ => ends_done trivial
  | .call q next, c, h => by
    rintro w rfl
    cases hf : faults w.calls q with
    | none =>
      rw [run_call_success hf]
      exact Sure.ends (k := k) (h _) _ rfl
    | some failure =>
      have active : faults.Active := ⟨_, _, by rw [hf]; exact Option.some_ne_none _⟩
      generalize (Action.call q next).run faults w = out
      obtain ⟨result, _⟩ := out
      cases result with
      | ok _ => trivial
      | error _ => exact active
  | .enter key next, c, h => fun w hw => Sure.ends (p := next) h (w.enter key) hw
  | .leave _ next, c, h => fun w hw => Sure.ends (p := next) h w.leave hw

theorem sure_ask {q : Request} {code : String} {context : ErrorContext} :
    (ask q code context).Sure := fun _ => trivial

theorem sure_bind {f : α → Action β} : ∀ {p : Action α}, p.Sure → (∀ a, (f a).Sure) →
    (p >>= f).Sure
  | .done a, _, hf => hf a
  | .call _ _, h, hf => fun answer => sure_bind (h answer) hf
  | .enter _ next, h, hf => sure_bind (p := next) h hf
  | .leave _ next, h, hf => sure_bind (p := next) h hf

theorem sure_ite {c : Prop} [Decidable c] {x y : Action α} (hx : x.Sure) (hy : y.Sure) :
    (if c then x else y).Sure := by
  split
  · exact hx
  · exact hy

theorem sure_thenLeave (key : String) : ∀ {p : Action α}, p.Sure → (p.thenLeave key).Sure
  | .done _, _ => trivial
  | .call _ _, h => fun answer => sure_thenLeave key (h answer)
  | .enter _ next, h => sure_thenLeave (p := next) key h
  | .leave _ next, h => sure_thenLeave (p := next) key h

section Together

variable {k : Action Unit → Action Unit}

theorem sure_settle (hk : ∀ rest, rest.Sure → (k rest).Sure) : ∀ {p : Action Unit}, p.Sure →
    (p.settle k).Sure
  | .done _, _ => hk _ trivial
  | .call _ _, h => hk _ h
  | .enter _ next, h => sure_settle (p := next) hk h
  | .leave _ next, h => sure_settle (p := next) hk h

theorem sure_step (hk : ∀ rest, rest.Sure → (k rest).Sure) : ∀ {p : Action Unit}, p.Sure →
    (p.step k).Sure
  | .done _, _ => hk _ trivial
  | .call _ _, h => fun answer => sure_settle hk (h answer)
  | .enter _ next, h => sure_step (p := next) hk h
  | .leave _ next, h => sure_step (p := next) hk h

theorem sure_together : ∀ (order : List Nat) {actions : List (Action Unit)},
    (∀ p ∈ actions, p.Sure) → (together order actions).Sure
  | [], [], _ => trivial
  | [], p :: actions, h => sure_bind (h p List.mem_cons_self) fun _ =>
    sure_together [] fun p hp => h p (List.mem_cons_of_mem _ hp)
  | i :: order, actions, h => by
    rw [together]
    cases hi : actions[i]? with
    | none => exact sure_together order h
    | some p =>
      refine sure_step (fun rest sure => sure_together order fun p' hp' => ?_)
        (h p (List.mem_of_getElem? hi))
      rcases List.mem_or_eq_of_mem_set hp' with hp' | rfl
      · exact h p' hp'
      · exact sure

end Together

end Action

/-! ## One message each -/

namespace Contents

open Action

/--
Actions at the same time that are each about one message, and no two about the same one. When they are
stopped, each may have come to its end (`L`), may have been stopped (`P`) or may not have begun.
-/
theorem ends_together_single {α : Type} {k : Keyspace} {faults : Faults} {R : RecordRule}
    (key : α → String) {f : α → Action Unit} {L P : α → View → View → Prop} {l : List α}
    {c : Contents} {order : List Nat} (distinct : l.Pairwise (key · ≠ key ·))
    (apart : (l.map f).Pairwise Action.Apart) (sure : ∀ a ∈ l, (f a).Sure)
    (single : ∀ faults, ∀ a ∈ l, ∀ c₀, Follows R (fun id => ¬ id = key a) c c₀ →
      Ends k faults (f a) c₀
        (fun _ c' => Follows R (· = key a) c₀ c' ∧ L a (c₀.view (key a)) (c'.view (key a)))
        (fun _ c' => Follows R (· = key a) c₀ c' ∧ P a (c₀.view (key a)) (c'.view (key a))))
    (h : Orderly R c) : Ends k faults (together order (l.map f)) c
      (fun _ c' => Follows R (fun id => ∃ a ∈ l, id = key a) c c' ∧
        ∀ a ∈ l, L a (c.view (key a)) (c'.view (key a)))
      (fun _ c' => faults.Active ∧ Follows R (fun id => ∃ a ∈ l, id = key a) c c' ∧
        ∀ a ∈ l, L a (c.view (key a)) (c'.view (key a)) ∨ P a (c.view (key a)) (c'.view (key a)) ∨
          c'.view (key a) = c.view (key a)) := by
  have well := ends_together (k := k) faults order apart fun faults => by
    rw [forAll_map]
    refine (ends_forAll_single key (F := True) (L := L) (P := P) distinct (fun a ha c₀ f₀ => ?_) h).mono
      (fun _ _ h => h) fun _ _ _ => trivial
    exact (single faults a ha c₀ f₀).mono (fun _ _ h => h) fun _ _ h => ⟨trivial, h⟩
  have stopped := ends_together_stopped (k := k) faults order apart fun faults => by
    rw [forAll_map]
    refine (ends_forAll_single key (F := False) (L := fun a w w' => L a w w' ∨ P a w w' ∨ w' = w)
      (P := fun _ _ _ => False) distinct (fun a ha c₀ f₀ => ?_) h).mono
      (fun _ _ h => h) fun _ _ _ => trivial
    refine (Ends.attempt ((single faults a ha c₀ f₀).mono (fun _ c' h => ?_)
      fun _ c' h => ?_)).mono (fun _ _ h => h) fun _ _ h => h.elim
    · exact ⟨h.1, Or.inl h.2⟩
    · exact ⟨h.1, Or.inr (Or.inl h.2)⟩
  have sure' := sure_together order fun p (hp : p ∈ l.map f) => by
    obtain ⟨a, ha, rfl⟩ := List.mem_map.mp hp
    exact sure a ha
  exact (well.and (stopped.and sure'.ends)).mono (fun _ _ h => h.1) fun _ _ h => ⟨h.2.2, h.2.1⟩

end Contents

/-! ## The rows of a message -/

/-- The rows of a message in a thread: its record and its pointer. -/
def Keyspace.rowsOf (k : Keyspace) (thread id : String) (a : Table × String) : Prop :=
  a = (.messages, k.message thread id) ∨ a = (.messageThreads, k.pointer id)

theorem Keyspace.not_rowsOf {k : Keyspace} {thread id id' : String} (plain : Plain thread)
    (hne : id ≠ id') (a : Table × String) (h : k.rowsOf thread id a) : ¬ k.rowsOf thread id' a := by
  rcases h with rfl | rfl
  · rintro (e | e)
    · exact hne ((message_eq_iff plain plain).mp (Prod.mk.inj e).2).2
    · exact absurd (Prod.mk.inj e).1 (by simp)
  · rintro (e | e)
    · exact absurd (Prod.mk.inj e).1 (by simp)
    · exact hne (pointer_inj.mp (Prod.mk.inj e).2)

namespace Store

open Action

variable (s : Store) (thread id : String)

theorem within_notePointer : (s.notePointer id thread).Within (s.keys.rowsOf thread id) :=
  only_ite (only_ask ⟨_, rfl, Or.inr rfl⟩) trivial

theorem within_forgetPointer : (s.forgetPointer id thread).Within (s.keys.rowsOf thread id) :=
  only_ite (only_bind (only_bind (only_ask ⟨_, rfl, Or.inr rfl⟩) fun _ => trivial) fun _ =>
    only_ite (only_ask ⟨_, rfl, Or.inr rfl⟩) trivial) trivial

theorem sure_notePointer : (s.notePointer id thread).Sure := sure_ite sure_ask trivial

theorem sure_forgetPointer : (s.forgetPointer id thread).Sure :=
  sure_ite (sure_bind (sure_bind sure_ask fun _ => trivial) fun _ => sure_ite sure_ask trivial) trivial

end Store

end ChatMemory
