import ChatMemory.Proofs.Contents
import ChatMemory.Store.Operation

/-!
# How actions end

`Action.Ends faults p c Q E` says of an action that runs alone on the contents `c`: when it goes well,
its value and the contents that it leaves satisfy `Q`, and when it fails, its error and the contents
satisfy `E`. An action always ends, so this is all there is to say.

There is one rule for each way to put an action together (`Ends.bind`, `Ends.forAll`, …) and one for
each kind of call. At a call two things can happen. Either the call goes well, or it fails, which is
possible only if some call may fail (`Faults.Active`).

## Main statements

* `Ends.bind`, `Ends.recover`, `ends_exclusively`, `Ends.forAll` — the rules for actions.
* `ends_ask` — the rule for a call.
* `Only.ends` — what no call changes, the action does not change.
-/

namespace ChatMemory

/-- Some call may fail. -/
def Faults.Active (faults : Faults) : Prop := ∃ n r, faults n r ≠ Option.none

theorem Faults.not_active_none : ¬ Faults.none.Active := by
  rintro ⟨n, r, h⟩
  exact h rfl

namespace Action

variable {α β : Type} {faults : Faults}

/-! ## Running -/

theorem run_thenLeave (faults : Faults) (key : String) (p : Action α) (w : World) :
    ((p.thenLeave key).run faults w).1 = (p.run faults w).1 ∧
      ((p.thenLeave key).run faults w).2.tables = (p.run faults w).2.tables := by
  induction p generalizing w with
  | done value => exact ⟨rfl, rfl⟩
  | fail error => exact ⟨rfl, rfl⟩
  | call r next ih =>
    cases h : faults w.calls r with
    | none => rw [thenLeave, run_call_success h, run_call_success h]; exact ih _ _
    | some failure => rw [thenLeave, run_call_failure h, run_call_failure h]; exact ih _ _
  | enter other next ih => exact ih _
  | leave other next ih => exact ih _

theorem run_recover (p : Action α) (handler : MemoryError → Action α) (w : World) :
    (p.recover handler).run faults w =
      match p.run faults w with
      | (.ok value, w') => (.ok value, w')
      | (.error error, w') => (handler error).run faults w' := by
  induction p generalizing w with
  | done value => rfl
  | fail error => rfl
  | call r next ih =>
    cases h : faults w.calls r with
    | none => rw [recover, run_call_success h, run_call_success h, ih]
    | some failure => rw [recover, run_call_failure h, run_call_failure h, ih]
  | enter key next ih => exact ih _
  | leave key next ih => exact ih _

/-- The parts of an action that goes well go well. -/
theorem run_bind_eq_ok {p : Action α} {f : α → Action β} {w w'' : World} {b : β}
    (h : (p >>= f).run faults w = (.ok b, w'')) :
    ∃ a w', p.run faults w = (.ok a, w') ∧ (f a).run faults w' = (.ok b, w'') := by
  have bound : (p.bind f).run faults w = (.ok b, w'') := h
  rw [run_bind] at bound
  split at bound
  · next a w' e => exact ⟨a, w', e, bound⟩
  · exact absurd (congrArg Prod.fst bound) (by simp)

theorem run_map_eq_ok {p : Action α} {f : α → β} {w w' : World} {b : β}
    (h : (f <$> p).run faults w = (.ok b, w')) : ∃ a, p.run faults w = (.ok a, w') ∧ b = f a := by
  rw [← bind_pure_comp] at h
  obtain ⟨a, w₁, run, done⟩ := run_bind_eq_ok h
  obtain ⟨e, rfl⟩ := Prod.mk.inj done
  exact ⟨a, run, (Except.ok.inj e).symm⟩

theorem exists_ok {p : Action α} {w : World} (h : (p.run faults w).1.isOk = true) :
    ∃ value, p.run faults w = (.ok value, (p.run faults w).2) := by
  generalize p.run faults w = out at h ⊢
  obtain ⟨result, w'⟩ := out
  cases result with
  | ok value => exact ⟨value, rfl⟩
  | error _ => exact absurd h (by simp [Except.isOk, Except.toBool])

/-! ## The judgement -/

/-- How an action ends that runs alone on some contents. -/
def Ends (k : Keyspace) (faults : Faults) (p : Action α) (c : Contents)
    (Q : α → Contents → Prop) (E : MemoryError → Contents → Prop) : Prop :=
  ∀ w : World, k.contents w.tables = c →
    match p.run faults w with
    | (.ok value, w') => Q value (k.contents w'.tables)
    | (.error error, w') => E error (k.contents w'.tables)

variable {k : Keyspace} {c : Contents} {Q Q' : α → Contents → Prop}
  {E E' : MemoryError → Contents → Prop}

theorem ends_done {value : α} (h : Q value c) : Ends k faults (.done value) c Q E := by
  rintro w rfl
  exact h

theorem ends_pure {value : α} (h : Q value c) : Ends k faults (pure value) c Q E := ends_done h

theorem ends_fail {error : MemoryError} (h : E error c) : Ends k faults (.fail error) c Q E := by
  rintro w rfl
  exact h

theorem Ends.mono {p : Action α} (h : Ends k faults p c Q E) (hQ : ∀ a c', Q a c' → Q' a c')
    (hE : ∀ e c', E e c' → E' e c') : Ends k faults p c Q' E' := by
  intro w hw
  have := h w hw
  split at this
  · exact hQ _ _ this
  · exact hE _ _ this

/-- What holds at the end of a run that goes well. -/
theorem Ends.ok {p : Action α} (h : Ends k faults p c Q E) {w w' : World} {value : α}
    (hw : k.contents w.tables = c) (run : p.run faults w = (.ok value, w')) :
    Q value (k.contents w'.tables) := by
  have := h w hw
  rw [run] at this
  exact this

/-- What holds at the end of a run, whichever way it ends. -/
theorem Ends.always {p : Action α} {P : Contents → Prop}
    (h : Ends k faults p c (fun _ c' => P c') fun _ c' => P c') {w : World}
    (hw : k.contents w.tables = c) : P (k.contents (p.run faults w).2.tables) := by
  have := h w hw
  split at this
  · next heq =>
    rw [heq]
    exact this
  · next heq =>
    rw [heq]
    exact this

/-- Two things that are known of an ending hold together. -/
theorem Ends.and {p : Action α} (h : Ends k faults p c Q E) (h' : Ends k faults p c Q' E') :
    Ends k faults p c (fun a c' => Q a c' ∧ Q' a c') (fun e c' => E e c' ∧ E' e c') := by
  intro w hw
  have h₁ := h w hw
  have h₂ := h' w hw
  split at h₁
  · next heq =>
    rw [heq] at h₂
    exact ⟨h₁, h₂⟩
  · next heq =>
    rw [heq] at h₂
    exact ⟨h₁, h₂⟩

/-- So do many things. -/
theorem Ends.forall {ι : Type} {p : Action α} {Q : ι → α → Contents → Prop}
    {E : ι → MemoryError → Contents → Prop} (h : ∀ i, Ends k faults p c (Q i) (E i)) :
    Ends k faults p c (fun a c' => ∀ i, Q i a c') (fun e c' => ∀ i, E i e c') := by
  intro w hw
  have each := fun i => h i w hw
  generalize p.run faults w = out at each ⊢
  obtain ⟨result, w'⟩ := out
  cases result with
  | ok a => exact each
  | error e => exact each

theorem Ends.bind {p : Action α} {f : α → Action β} {R : β → Contents → Prop}
    (h : Ends k faults p c (fun a c' => Ends k faults (f a) c' R E) E) :
    Ends k faults (p >>= f) c R E := by
  intro w hw
  have hp := h w hw
  show match (p.bind f).run faults w with
    | (.ok value, w') => R value (k.contents w'.tables)
    | (.error error, w') => E error (k.contents w'.tables)
  rw [run_bind]
  generalize p.run faults w = out at hp ⊢
  obtain ⟨result, w'⟩ := out
  cases result with
  | ok a => exact hp w' rfl
  | error e => exact hp

/-- The rule for a sequence whose first part is known on its own. -/
theorem Ends.andThen {p : Action α} {f : α → Action β} {R : β → Contents → Prop}
    {E₀ : MemoryError → Contents → Prop} (h : Ends k faults p c Q E₀)
    (hE : ∀ e c', E₀ e c' → E e c') (hf : ∀ a c', Q a c' → Ends k faults (f a) c' R E) :
    Ends k faults (p >>= f) c R E := (h.mono hf hE).bind

theorem Ends.map {p : Action α} {f : α → β} {R : β → Contents → Prop}
    (h : Ends k faults p c (fun a c' => R (f a) c') E) : Ends k faults (f <$> p) c R E := by
  rw [← bind_pure_comp]
  exact (h.mono (fun _ _ h => ends_pure h) fun _ _ h => h).bind

theorem Ends.recover {p : Action α} {handler : MemoryError → Action α}
    (h : Ends k faults p c Q fun e c' => Ends k faults (handler e) c' Q E) :
    Ends k faults (p.recover handler) c Q E := by
  intro w hw
  have hp := h w hw
  rw [run_recover]
  split at hp
  · exact hp
  · next w' heq => exact hp w' rfl

theorem ends_exclusively {key : String} {p : Action α} (h : Ends k faults p c Q E) :
    Ends k faults (exclusively key p) c Q E := by
  intro w hw
  have hp := h (w.enter key) hw
  obtain ⟨h₁, h₂⟩ := run_thenLeave faults key p (w.enter key)
  show match (p.thenLeave key).run faults (w.enter key) with
    | (.ok value, w') => Q value (k.contents w'.tables)
    | (.error error, w') => E error (k.contents w'.tables)
  generalize (p.thenLeave key).run faults (w.enter key) = x at h₁ h₂
  generalize p.run faults (w.enter key) = y at h₁ h₂ hp
  obtain ⟨r, w₁⟩ := x
  obtain ⟨r', w₂⟩ := y
  obtain rfl : r = r' := h₁
  cases r with
  | ok value =>
    show Q value (k.contents w₁.tables)
    rw [show w₁.tables = w₂.tables from h₂]
    exact hp
  | error error =>
    show E error (k.contents w₁.tables)
    rw [show w₁.tables = w₂.tables from h₂]
    exact hp

theorem ends_ite {p : Prop} [Decidable p] {x y : Action α} (hx : p → Ends k faults x c Q E)
    (hy : ¬ p → Ends k faults y c Q E) : Ends k faults (if p then x else y) c Q E := by
  split
  · next h => exact hx h
  · next h => exact hy h

theorem ends_ofExcept {r : Except MemoryError α} (hQ : ∀ a, r = .ok a → Q a c)
    (hE : ∀ e, r = .error e → E e c) : Ends k faults (ofExcept r) c Q E := by
  cases r with
  | ok a => exact ends_done (hQ a rfl)
  | error e => exact ends_fail (hE e rfl)

/-! ## Many actions -/

/-- The rule for a list of actions: `I rest` holds when the actions of `rest` are still to come. -/
theorem Ends.forAll {f : α → Action Unit} {I : List α → Contents → Prop}
    (step : ∀ a rest c, I (a :: rest) c → Ends k faults (f a) c (fun _ c' => I rest c') E) :
    ∀ {l : List α} {c : Contents}, I l c → Ends k faults (forAll f l) c (fun _ c' => I [] c') E
  | [], _, h => ends_done h
  | a :: rest, c, h => by
    refine (step a rest c h).andThen (fun _ _ h => h) fun _ c' h' => ?_
    exact Ends.forAll step h'

/-- The rule for a list of actions with results. -/
theorem Ends.each {f : α → Action β} {I : List α → List β → Contents → Prop}
    (step : ∀ a rest earlier c, I (a :: rest) earlier c →
      Ends k faults (f a) c (fun b c' => I rest (earlier ++ [b]) c') E) :
    ∀ {l : List α} {earlier : List β} {c : Contents}, I l earlier c →
      Ends k faults (each f l) c (fun bs c' => I [] (earlier ++ bs) c') E
  | [], earlier, _, h => ends_done (by rw [List.append_nil]; exact h)
  | a :: rest, earlier, c, h => by
    refine (step a rest earlier c h).andThen (fun _ _ h => h) fun b c' h' => ?_
    refine (Ends.each step h').andThen (fun _ _ h => h) fun bs c'' h'' => ?_
    exact ends_pure (by rw [List.append_cons]; exact h'')

/-- A list of actions without results is one whose results are not looked at. -/
theorem forAll_eq_map_each (f : α → Action Unit) :
    ∀ l : List α, forAll f l = (fun _ => ()) <$> each f l
  | [] => rfl
  | a :: rest => by
    show (f a >>= fun _ => forAll f rest)
      = (fun _ => ()) <$> (f a >>= fun b => each f rest >>= fun bs => pure (b :: bs))
    rw [forAll_eq_map_each f rest, map_bind]
    simp only [map_bind, map_pure]
    rfl

/-! ## Calls -/

/-- The rule for a call. -/
theorem ends_ask {r : Request} {code : String} {context : ErrorContext}
    {Q : r.Answer → Contents → Prop}
    (hQ : ∀ t, k.contents t = c → Q (r.answer t) (k.contents (r.effect t)))
    (hE : faults.Active → ∀ e, E e c) : Ends k faults (ask r code context) c Q E := by
  rintro w rfl
  cases h : faults w.calls r with
  | none =>
    rw [ask, run_call_success h]
    exact hQ _ rfl
  | some failure =>
    rw [ask, run_call_failure h]
    exact hE ⟨_, _, by rw [h]; exact Option.some_ne_none _⟩ _

section Calls

variable {code : String} {context : ErrorContext} {v : Json}

theorem ends_list {table : Table} {start : String} {Q : List String → Contents → Prop}
    (hQ : ∀ t : Tables, k.contents t = c → Q (t.keysFrom table start) c)
    (hE : faults.Active → ∀ e, E e c) :
    Ends k faults (ask (.list table start) code context) c Q E :=
  ends_ask (by rintro t rfl; exact hQ t rfl) hE

theorem ends_getThread {id : String} {Q : Option Json → Contents → Prop} (hQ : Q (c.thread id) c)
    (hE : faults.Active → ∀ e, E e c) :
    Ends k faults (ask (.get .threads (k.thread id)) code context) c Q E :=
  ends_ask (by rintro t rfl; exact hQ) hE

theorem ends_putThread {id : String} {Q : Unit → Contents → Prop}
    (hQ : Q () (c.setThread id (some v))) (hE : faults.Active → ∀ e, E e c) :
    Ends k faults (ask (.put .threads (k.thread id) v) code context) c Q E := by
  refine ends_ask ?_ hE
  rintro t rfl
  rw [← Contents.contents_changedAt_thread (Tables.changedAt_put t _ _ v)] at hQ
  exact hQ

theorem ends_deleteThread {id : String} {Q : Unit → Contents → Prop}
    (hQ : Q () (c.setThread id none)) (hE : faults.Active → ∀ e, E e c) :
    Ends k faults (ask (.delete .threads (k.thread id)) code context) c Q E := by
  refine ends_ask ?_ hE
  rintro t rfl
  rw [← Contents.contents_changedAt_thread (Tables.changedAt_delete t _ _)] at hQ
  exact hQ

theorem ends_getMessage {thread id : String} {Q : Option Json → Contents → Prop}
    (hi : IsMessage id) (hQ : Q (c.record thread id) c) (hE : faults.Active → ∀ e, E e c) :
    Ends k faults (ask (.get .messages (k.message thread id)) code context) c Q E := by
  refine ends_ask ?_ hE
  rintro t rfl
  rw [Contents.record_contents hi] at hQ
  exact hQ

theorem ends_putMessage {thread id : String} {Q : Unit → Contents → Prop} (ht : Plain thread)
    (hp : Plain id) (hi : IsMessage id) (hQ : Q () (c.setRecord thread id (some v)))
    (hE : faults.Active → ∀ e, E e c) :
    Ends k faults (ask (.put .messages (k.message thread id) v) code context) c Q E := by
  refine ends_ask ?_ hE
  rintro t rfl
  rw [← Contents.contents_changedAt_message ht hp hi (Tables.changedAt_put t _ _ v)] at hQ
  exact hQ

theorem ends_deleteMessage {thread id : String} {Q : Unit → Contents → Prop} (ht : Plain thread)
    (hi : IsMessage id) (parted : c.Parted) (hQ : Q () (c.setRecord thread id none))
    (hE : faults.Active → ∀ e, E e c) :
    Ends k faults (ask (.delete .messages (k.message thread id)) code context) c Q E := by
  refine ends_ask ?_ hE
  rintro t rfl
  rw [← Contents.contents_changedAt_listed ht hi parted (Tables.changedAt_delete t _ _)] at hQ
  exact hQ

theorem ends_getOrder {thread : String} {Q : Option Json → Contents → Prop} (ht : Plain thread)
    (hQ : Q (c.index thread) c) (hE : faults.Active → ∀ e, E e c) :
    Ends k faults (ask (.get .messages (k.order thread)) code context) c Q E := by
  refine ends_ask ?_ hE
  rintro t rfl
  rw [Contents.index_contents ht] at hQ
  exact hQ

theorem ends_putOrder {thread : String} {Q : Unit → Contents → Prop} (ht : Plain thread)
    (hQ : Q () (c.setIndex thread (some v))) (hE : faults.Active → ∀ e, E e c) :
    Ends k faults (ask (.put .messages (k.order thread) v) code context) c Q E := by
  refine ends_ask ?_ hE
  rintro t rfl
  rw [← Contents.contents_changedAt_order ht (Tables.changedAt_put t _ _ v)] at hQ
  exact hQ

theorem ends_deleteOrder {thread : String} {Q : Unit → Contents → Prop} (ht : Plain thread)
    (hQ : Q () (c.setIndex thread none)) (hE : faults.Active → ∀ e, E e c) :
    Ends k faults (ask (.delete .messages (k.order thread)) code context) c Q E := by
  refine ends_ask ?_ hE
  rintro t rfl
  rw [← Contents.contents_changedAt_order ht (Tables.changedAt_delete t _ _)] at hQ
  exact hQ

theorem ends_getPointer {id : String} {Q : Option Json → Contents → Prop} (hQ : Q (c.pointer id) c)
    (hE : faults.Active → ∀ e, E e c) :
    Ends k faults (ask (.get .messageThreads (k.pointer id)) code context) c Q E :=
  ends_ask (by rintro t rfl; exact hQ) hE

theorem ends_putPointer {id : String} {Q : Unit → Contents → Prop}
    (hQ : Q () (c.setPointer id (some v))) (hE : faults.Active → ∀ e, E e c) :
    Ends k faults (ask (.put .messageThreads (k.pointer id) v) code context) c Q E := by
  refine ends_ask ?_ hE
  rintro t rfl
  rw [← Contents.contents_changedAt_pointer (Tables.changedAt_put t _ _ v)] at hQ
  exact hQ

theorem ends_deletePointer {id : String} {Q : Unit → Contents → Prop}
    (hQ : Q () (c.setPointer id none)) (hE : faults.Active → ∀ e, E e c) :
    Ends k faults (ask (.delete .messageThreads (k.pointer id)) code context) c Q E := by
  refine ends_ask ?_ hE
  rintro t rfl
  rw [← Contents.contents_changedAt_pointer (Tables.changedAt_delete t _ _)] at hQ
  exact hQ

end Calls

/-! ## Calls of one kind -/

/-- An action that makes no other calls than those of some kind. -/
def Only (kind : Request → Prop) : Action α → Prop
  | .done _ => True
  | .fail _ => True
  | .call r next => kind r ∧ ∀ answer, (next answer).Only kind
  | .enter _ next => next.Only kind
  | .leave _ next => next.Only kind

variable {kind kind' : Request → Prop}

theorem Only.mono (h : ∀ r, kind r → kind' r) : ∀ {p : Action α}, p.Only kind → p.Only kind'
  | .done _, _ => trivial
  | .fail _, _ => trivial
  | .call _ _, hp => ⟨h _ hp.1, fun answer => (hp.2 answer).mono h⟩
  | .enter _ next, hp => Only.mono (p := next) h hp
  | .leave _ next, hp => Only.mono (p := next) h hp

/-- What no call of some kind changes about the contents, the action does not change. -/
theorem Only.ends {γ : Type} (look : Contents → γ)
    (h : ∀ r, kind r → ∀ t, look (k.contents (r.effect t)) = look (k.contents t)) :
    ∀ {p : Action α} {c : Contents}, p.Only kind →
      Ends k faults p c (fun _ c' => look c' = look c) (fun _ c' => look c' = look c)
  | .done _, _, _ => ends_done rfl
  | .fail _, _, _ => ends_fail rfl
  | .call r next, c, hp => by
    rintro w rfl
    cases hf : faults w.calls r with
    | none =>
      rw [run_call_success hf, ← h r hp.1]
      exact (hp.2 _).ends look h _ rfl
    | some failure =>
      rw [run_call_failure hf]
      exact (hp.2 _).ends look h _ rfl
  | .enter key next, c, hp => fun w hw => Only.ends (p := next) look h hp (w.enter key) hw
  | .leave _ next, c, hp => fun w hw => Only.ends (p := next) look h hp w.leave hw

theorem only_bind {f : α → Action β} : ∀ {p : Action α}, p.Only kind → (∀ a, (f a).Only kind) →
    (p >>= f).Only kind
  | .done a, _, hf => hf a
  | .fail _, _, _ => trivial
  | .call _ _, h, hf => ⟨h.1, fun answer => only_bind (h.2 answer) hf⟩
  | .enter _ next, h, hf => only_bind (p := next) h hf
  | .leave _ next, h, hf => only_bind (p := next) h hf

theorem only_recover {handler : MemoryError → Action α} : ∀ {p : Action α}, p.Only kind →
    (∀ e, (handler e).Only kind) → (p.recover handler).Only kind
  | .done _, _, _ => trivial
  | .fail e, _, hf => hf e
  | .call _ _, h, hf => ⟨h.1, fun answer => only_recover (h.2 answer) hf⟩
  | .enter _ next, h, hf => only_recover (p := next) h hf
  | .leave _ next, h, hf => only_recover (p := next) h hf

theorem only_thenLeave (key : String) : ∀ {p : Action α}, p.Only kind →
    (p.thenLeave key).Only kind
  | .done _, _ => trivial
  | .fail _, _ => trivial
  | .call _ _, h => ⟨h.1, fun answer => only_thenLeave key (h.2 answer)⟩
  | .enter _ next, h => only_thenLeave (p := next) key h
  | .leave _ next, h => only_thenLeave (p := next) key h

theorem only_exclusively {key : String} {p : Action α} (h : p.Only kind) :
    (exclusively key p).Only kind := only_thenLeave key h

theorem only_map {f : α → β} {p : Action α} (h : p.Only kind) : (f <$> p).Only kind := by
  rw [← bind_pure_comp]
  exact only_bind h fun _ => trivial

theorem only_ite {p : Prop} [Decidable p] {x y : Action α} (hx : x.Only kind) (hy : y.Only kind) :
    (if p then x else y).Only kind := by
  split
  · exact hx
  · exact hy

theorem only_each {f : α → Action β} (h : ∀ a, (f a).Only kind) :
    ∀ l : List α, (each f l).Only kind
  | [] => trivial
  | a :: rest => only_bind (h a) fun _ => only_bind (only_each h rest) fun _ => trivial

theorem only_forAll {f : α → Action Unit} (h : ∀ a, (f a).Only kind) :
    ∀ l : List α, (forAll f l).Only kind
  | [] => trivial
  | a :: rest => only_bind (h a) fun _ => only_forAll h rest

theorem only_ask {r : Request} {code : String} {context : ErrorContext} (h : kind r) :
    (ask r code context).Only kind := ⟨h, fun answer => by cases answer <;> trivial⟩

theorem only_ofExcept {r : Except MemoryError α} : (ofExcept r).Only kind := by
  cases r <;> trivial

theorem only_orEmpty {p : Action α} {empty : α} (h : p.Only kind) : (p.orEmpty empty).Only kind :=
  only_recover h fun _ => only_ite trivial trivial

/-! ## Reading -/

/-- An action that makes no other calls than those that read. -/
abbrev Reads (p : Action α) : Prop := p.Only fun r => ∀ t, r.effect t = t

/-- What only reads leaves the contents as they are. -/
theorem Reads.ends {p : Action α} (h : p.Reads) :
    Ends k faults p c (fun _ c' => c' = c) (fun _ c' => c' = c) :=
  Only.ends id (fun r hr t => by rw [hr]) h

theorem reads_get {table : Table} {key : String} {code : String} {context : ErrorContext} :
    (ask (.get table key) code context).Reads := only_ask fun _ => rfl

theorem reads_list {table : Table} {start : String} {code : String} {context : ErrorContext} :
    (ask (.list table start) code context).Reads := only_ask fun _ => rfl

/-! ## Sparing threads -/

/-- An action that makes no calls that could change a thread record. -/
abbrev Spares (p : Action α) : Prop :=
  p.Only fun r => ∀ t key, (r.effect t).get? .threads key = t.get? .threads key

theorem Reads.spares {p : Action α} (h : p.Reads) : p.Spares :=
  Only.mono (fun _ hr t key => by rw [hr]) h

theorem Spares.ends {p : Action α} (h : p.Spares) : Ends k faults p c
    (fun _ c' => c'.thread = c.thread) (fun _ c' => c'.thread = c.thread) :=
  Only.ends Contents.thread (fun _ hr t => funext fun id => hr t (k.thread id)) h

theorem spares_put {table : Table} (h : table ≠ .threads) {key : String} {value : Json}
    {code : String} {context : ErrorContext} : (ask (.put table key value) code context).Spares :=
  only_ask fun t _ => (t.get?_put ..).trans (if_neg fun e => h e.1.symm)

theorem spares_delete {table : Table} (h : table ≠ .threads) {key : String} {code : String}
    {context : ErrorContext} : (ask (.delete table key) code context).Spares :=
  only_ask fun t _ => (t.get?_delete ..).trans (if_neg fun e => h e.1.symm)

/-! ## Resources -/

/-- An action that makes no calls that could change anything but resources. -/
abbrev Aside (p : Action α) : Prop :=
  p.Only fun r => ∀ t, (∃ key v, t.ChangedAt (r.effect t) .resources key v) ∨ r.effect t = t

theorem Reads.aside {p : Action α} (h : p.Reads) : p.Aside :=
  Only.mono (fun _ hr t => Or.inr (hr t)) h

/-- What is stored for resources does not count. -/
theorem Aside.ends {p : Action α} (h : p.Aside) :
    Ends k faults p c (fun _ c' => c' = c) (fun _ c' => c' = c) := by
  refine Only.ends id (fun r hr t => ?_) h
  rcases hr t with ⟨key, v, changed⟩ | e
  · exact Contents.contents_changedAt_resource changed
  · rw [e]

theorem aside_put {key : String} {value : Json} {code : String} {context : ErrorContext} :
    (ask (.put .resources key value) code context).Aside :=
  only_ask fun t => Or.inl ⟨key, some value, Tables.changedAt_put t _ _ _⟩

end Action

end ChatMemory
