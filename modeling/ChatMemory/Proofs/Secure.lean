import ChatMemory.Proofs.Recovery

/-!
# What secures a message

Where other threads have a copy of a message, the copy that is found may be taken away by the next
reconciliation, or another one found in its place. It is secure (`View.Secure`) if no other thread has
one, or else if its own thread lists it, and, as long as pointers are kept, none of the others does.

A secure message stays so whatever is done to other messages or to other threads, since all that can
happen to its view is that the other copies go (`View.Recedes`).

## Main statements

* `Secure.recedes` — what is secure stays secure when the other copies recede.
* `Secure.reconciling` — reconciling any thread makes the other copies recede.
* `Step.keeps` — so does every operation that neither names the message nor deletes its thread.
-/

namespace ChatMemory

namespace View

/-- The copy in the thread is found, and no reconciliation changes that. -/
structure Secure (tracking : Bool) (has : String → Prop) (w : View) (thread : String) : Prop where
  finds : w.Finds tracking has thread
  settled : (∀ other, ¬ w.Elsewhere thread other) ∨
    w.Lists thread ∧ (tracking = true → ∀ other, w.Elsewhere thread other → ¬ w.Lists other)

/-- The copy in the thread stays, and what speaks for others becomes less. -/
structure Recedes (tracking : Bool) (thread : String) (w w' : View) : Prop where
  record : w'.record thread = w.record thread
  holds : ∀ other, w'.Holds other → w.Holds other
  listed : w.Lists thread → w'.Lists thread
  lists : ∀ other, other ≠ thread → w'.Lists other → w.Lists other
  pointer : tracking = true → w'.pointer = w.pointer ∨ w'.Names thread ∨
    w'.pointer = none ∧ ¬ w.Names thread

variable {has has' : String → Prop} {w w' w'' : View} {tracking : Bool} {thread other : String}

theorem Recedes.refl (tracking : Bool) (thread : String) (w : View) : Recedes tracking thread w w :=
  ⟨rfl, fun _ hh => hh, fun hl => hl, fun _ _ hl => hl, fun _ => Or.inl rfl⟩

theorem Recedes.trans (h : Recedes tracking thread w w') (h' : Recedes tracking thread w' w'') :
    Recedes tracking thread w w'' where
  record := h'.record.trans h.record
  holds other hh := h.holds other (h'.holds other hh)
  listed hl := h'.listed (h.listed hl)
  lists other hne hl := h.lists other hne (h'.lists other hne hl)
  pointer ht := by
    rcases h'.pointer ht with same | names | ⟨gone, hno⟩
    · rcases h.pointer ht with e | names | ⟨gone, hno⟩
      · exact Or.inl (same.trans e)
      · exact Or.inr (Or.inl ⟨same.trans names.1, names.2⟩)
      · exact Or.inr (Or.inr ⟨same.trans gone, hno⟩)
    · exact Or.inr (Or.inl names)
    · rcases h.pointer ht with e | names | ⟨_, hno'⟩
      · exact Or.inr (Or.inr ⟨gone, fun names => hno ⟨e.trans names.1, names.2⟩⟩)
      · exact absurd names hno
      · exact Or.inr (Or.inr ⟨gone, hno'⟩)

/-- A pointer to the thread stays one, and no other one appears. -/
theorem Recedes.names (h : Recedes tracking thread w w') (ht : tracking = true) :
    (w.Names thread → w'.Names thread) ∧ ∀ other, w'.Names other → other = thread ∨ w.Names other := by
  rcases h.pointer ht with same | names | ⟨gone, hno⟩
  · exact ⟨fun hn => ⟨same.trans hn.1, hn.2⟩, fun other ho => Or.inr ⟨same.symm.trans ho.1, ho.2⟩⟩
  · exact ⟨fun _ => names, fun other ho => Or.inl (ho.unique names)⟩
  · refine ⟨fun hn => absurd hn hno, fun other ho => ?_⟩
    exact absurd (gone.symm.trans ho.1) (by simp)

/-- What is secure stays secure when the other copies recede. -/
theorem Secure.recedes (h : w.Secure tracking has thread) (r : Recedes tracking thread w w')
    (housed : ∀ other, w.Holds other → has other) (there : has' thread) :
    w'.Secure tracking has' thread := by
  have held : w'.Holds thread := by
    rw [Holds, r.record]
    exact h.finds.holds
  refine ⟨?_, ?_⟩
  · have pointed : ∀ other, w'.Pointed tracking other →
        other = thread ∨ w.Pointed tracking other := by
      rintro other ⟨ht, names, hh⟩
      exact ((r.names ht).2 other names).imp_right fun names => ⟨ht, names, r.holds other hh⟩
    rcases h.finds with ⟨ht, names, _⟩ | ⟨hno, first⟩
    · exact Or.inl ⟨ht, (r.names ht).1 names, held⟩
    · by_cases here : w'.Pointed tracking thread
      · exact Or.inl here
      · refine Or.inr ⟨fun other ho => ?_, there, held, fun other _ hh => ?_⟩
        · rcases pointed other ho with e | ho'
          · exact here (e ▸ ho)
          · exact hno other ho'
        · exact first.2.2 other (housed other (r.holds other hh)) (r.holds other hh)
  · rcases h.settled with alone | ⟨lists, only⟩
    · exact Or.inl fun other ho => alone other ⟨ho.1, r.holds other ho.2⟩
    · refine Or.inr ⟨r.listed lists, fun ht other ho hl => ?_⟩
      exact only ht other ⟨ho.1, r.holds other ho.2⟩ (r.lists other ho.1 hl)

/-! ## What recedes -/

theorem recedes_erased (hne : other ≠ thread) :
    Recedes tracking thread w (w.setRecord other none) where
  record := by rw [record_setRecord, if_neg (Ne.symm hne)]
  holds _ hh := (holds_setRecord_none.mp hh).2
  listed hl := hl
  lists _ _ hl := hl
  pointer _ := Or.inl rfl

theorem recedes_unlisted (hne : other ≠ thread) :
    Recedes tracking thread w (w.setScore other none) where
  record := rfl
  holds _ hh := hh
  listed hl := lists_setScore_none.mpr ⟨Ne.symm hne, hl⟩
  lists _ _ hl := (lists_setScore_none.mp hl).2
  pointer _ := Or.inl rfl

theorem Forgot.recedes (h : w.Forgot tracking other w') (hne : other ≠ thread) :
    Recedes tracking thread w w' where
  record := by rw [h.record]
  holds _ hh := h.holds.mp hh
  listed hl := h.lists.mpr hl
  lists _ _ hl := h.lists.mp hl
  pointer ht := by
    rcases h with ⟨_, names, rfl⟩ | ⟨_, rfl⟩
    · exact Or.inr (Or.inr ⟨rfl, fun here => hne (names.unique here)⟩)
    · exact Or.inl rfl

/-- A thread that lists the message already may list it again, and note it where pointers are kept
just if it is the thread itself. -/
theorem recedes_kept {x : Message} (hl : other = thread ∨ w.Lists other) :
    Recedes tracking thread w (w.kept other x) where
  record := rfl
  holds _ hh := hh
  listed hl := lists_list.mpr (Or.inr hl)
  lists t hne hlt := by
    rcases lists_list.mp hlt with rfl | hlt
    · exact hl.resolve_left hne
    · exact hlt
  pointer _ := Or.inl rfl

theorem recedes_noted (hne : thread ≠ "") (hn : other = thread ∨ tracking = false) :
    Recedes tracking thread w (w.noted tracking other) where
  record := by rw [record_noted]
  holds _ hh := holds_noted.mp hh
  listed hl := lists_noted.mpr hl
  lists _ _ hl := lists_noted.mp hl
  pointer ht := by
    rcases hn with rfl | hno
    · refine Or.inr (Or.inl ⟨?_, hne⟩)
      rw [noted, if_pos ht]
      rfl
    · exact absurd (ht.symm.trans hno) (by simp)

/-! ## Reconciling -/

/-- The copy of another thread stays only if that thread lists the message and no pointers are kept. -/
theorem Secure.of_kept (h : w.Secure tracking has thread) (hh : w.Holds other) (stays : w.Kept other) :
    other = thread ∨ w.Lists other ∧ tracking = false := by
  by_cases hne : other = thread
  · exact Or.inl hne
  · obtain ⟨lists, only⟩ := h.settled.resolve_left fun alone => alone other ⟨hne, hh⟩
    have here : w.Elsewhere other thread := ⟨Ne.symm hne, h.finds.holds⟩
    have listed : w.Lists other := by
      rcases stays with hl | alone | ⟨unlisted, _⟩
      · exact hl
      · exact absurd here (alone thread)
      · exact absurd lists (unlisted thread here)
    exact Or.inr ⟨listed, Bool.eq_false_iff.mpr fun ht => only ht other ⟨hne, hh⟩ listed⟩

/-- The copy that is found stays. -/
theorem Secure.kept (h : w.Secure tracking has thread) : w.Kept thread :=
  h.settled.elim (fun alone => Or.inr (Or.inl alone)) fun listed => Or.inl listed.1

/-- Reconciling a thread, also when it is stopped, makes the other copies recede. -/
theorem Secure.reconciling (h : w.Secure tracking has thread) (hne : thread ≠ "")
    (r : w.Reconciling tracking other w') : Recedes tracking thread w w' := by
  have kept : ∀ {x : Message}, w.IsRecord other x → w.Kept other →
      Recedes tracking thread w (w.kept other x) := fun hx stays =>
    recedes_kept ((h.of_kept hx.holds stays).imp_right fun listed => listed.1)
  have apart : ¬ w.Kept other → other ≠ thread := by
    rintro goes rfl
    exact goes h.kept
  rcases r with rfl | (⟨hno, rfl⟩ | ⟨_, _, rfl⟩ | ⟨hx, stays, rfl⟩ | ⟨_, goes, e⟩) | ⟨hx, stays, rfl⟩ |
    ⟨_, goes, rfl⟩
  · exact .refl ..
  · refine recedes_unlisted ?_
    rintro rfl
    exact hno h.finds.holds
  · exact .refl ..
  · exact (kept hx stays).trans
      (recedes_noted hne ((h.of_kept hx.holds stays).imp_right fun listed => listed.2))
  · exact (recedes_erased (apart goes)).trans (e.recedes (apart goes))
  · exact kept hx stays
  · exact recedes_erased (apart goes)

end View

/-! ## Contents -/

namespace Contents

/-- Contents that have a version of a message, in a place where it is secure. -/
structure Keeps (tracking : Bool) (c : Contents) (v : Message) : Prop extends Founded soundRule c where
  record : (c.view v.id).IsRecord v.threadId v
  secure : (c.view v.id).Secure tracking c.HasThread v.threadId

variable {tracking : Bool} {now : Instant} {active : Prop} {c c' : Contents} {v : Message}

theorem Keeps.recedes (h : Keeps tracking c v) (founded : Founded soundRule c')
    (r : (c.view v.id).Recedes tracking v.threadId (c'.view v.id)) : Keeps tracking c' v := by
  have record : (c'.view v.id).IsRecord v.threadId v := by
    obtain ⟨j, hj, hv⟩ := h.record
    exact ⟨j, r.record.trans hj, hv⟩
  exact ⟨founded, record, h.secure.recedes r (fun _ hh => h.housed hh) (founded.housed record.holds)⟩

/-- A version that is kept stays so unless an operation names the message or deletes its thread. -/
theorem Step.keeps {op : Operation} (step : Step soundRule tracking now active c c' op)
    (h : Keeps tracking c v) (unnamed : ¬ op.Names v.id) (spared : op ≠ .deleteThread v.threadId) :
    Keeps tracking c' v := by
  have founded := step.founded h.toFounded
  have there : c.HasThread v.threadId := h.housed h.record.holds
  have same : c'.view v.id = c.view v.id → Keeps tracking c' v := fun e =>
    h.recedes founded (e ▸ .refl ..)
  have emptying : ∀ {thread : String} {c₁ : Contents}, Emptying soundRule tracking thread c c₁ →
      thread ≠ v.threadId → (c.view v.id).Recedes tracking v.threadId (c₁.view v.id) := by
    intro thread c₁ emptying hne
    by_cases hh : c.Holds thread v.id
    · rcases emptying.view v.id hh with e | e | e
      · exact e ▸ .refl ..
      · exact e ▸ View.recedes_erased hne
      · exact (View.recedes_erased hne).trans (e.recedes hne)
    · rw [emptying.follows.within.view v.id hh]
      exact .refl ..
  have apart : ∀ {thread : String}, c.thread thread = none → thread ≠ v.threadId := by
    rintro _ absent rfl
    exact there.2 absent
  cases step with
  | same e => exact same (by rw [e])
  | created _ e => exact same (by rw [e, view_setThread])
  | changed _ e => exact same (by rw [e, view_setThread])
  | saved _ f _ => exact same (f.within.view v.id unnamed)
  | saving _ f _ => exact same (f.within.view v.id unnamed)
  | updated updates => exact same (updates.follows.within.view v.id unnamed)
  | updating interrupted => exact same (interrupted.follows.within.view v.id unnamed)
  | moved f _ _ => exact same (f.within.view v.id unnamed)
  | @deleted thread c₁ _ emptied e =>
    have hne : thread ≠ v.threadId := fun e => spared (by rw [e])
    refine h.recedes founded ((emptying emptied.emptying hne).trans ?_)
    rw [e, view_closed]
    exact View.recedes_unlisted hne
  | @deleting thread c₁ _ _ emptied e =>
    have hne : thread ≠ v.threadId := fun e => spared (by rw [e])
    refine h.recedes founded ((emptying emptied hne).trans ?_)
    rcases e with rfl | ⟨_, rfl⟩
    · exact .refl ..
    · rw [view_cleared]
      exact View.recedes_unlisted hne
  | reconciled _ hr =>
    cases hr with
    | existing _ _ view =>
      exact h.recedes founded (h.secure.reconciling there.1 (.finished (view v.id)))
    | gone absent e =>
      rcases e with rfl | rfl
      · exact same rfl
      · exact h.recedes founded (by rw [view_cleared]; exact View.recedes_unlisted (apart absent))
  | reconciling _ _ hr =>
    cases hr with
    | existing _ _ view => exact h.recedes founded (h.secure.reconciling there.1 (view v.id))
    | gone absent e =>
      refine h.recedes founded ?_
      rw [e, view_cleared]
      exact View.recedes_unlisted (apart absent)

end Contents

end ChatMemory
