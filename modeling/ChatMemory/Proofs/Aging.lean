import ChatMemory.Proofs.Renewal

/-!
# Dates of change

Operations on messages leave the records of the threads alone, except that they move on the dates of
change. A thread may be touched more than once in a call. It is read from its record each time, so its
dates must be ones that can be read back; otherwise the thread is lost with the first touch.

## Main statements

* `Aged.isThread` — what dates of change that are moved on leave of a thread.
* `ages_saveMessages` — a batch that is saved does nothing else to the threads.
-/

namespace ChatMemory

namespace Contents

variable {c c' : Contents} {thread : String} {t : Thread}

/-- The records of the threads are as before, but for the dates of change of some. -/
def Aged (c c' : Contents) : Prop := ∀ thread, c'.thread thread = c.thread thread ∨
  ∃ t date, c.IsThread thread t ∧
    c'.thread thread = some ({ t with updatedAt := date } : Thread).toJson

theorem aged_of_renews (h : ∀ thread, Renews c c' thread False) : Aged c c' := by
  intro thread
  rcases h thread with ⟨t, date, there, _, written⟩ | ⟨_, same⟩
  · exact Or.inr ⟨t, date, there, written⟩
  · exact Or.inl same

/-- A thread is read with nothing but another date of change, if its dates can be read back. -/
theorem Aged.isThread (h : Aged c c') (there : c.IsThread thread t) : ∃ date,
    (c'.thread thread = c.thread thread ∧ date = t.updatedAt ∨
      c'.thread thread = some ({ t with updatedAt := date } : Thread).toJson) ∧
    (t.createdAt.FourDigit → date.FourDigit → c'.IsThread thread { t with updatedAt := date }) := by
  obtain ⟨r, hr, hd⟩ := there
  rcases h thread with same | ⟨t', date, ⟨r', hr', hd'⟩, written⟩
  · exact ⟨t.updatedAt, Or.inl ⟨same, rfl⟩, fun _ _ => ⟨r, same.trans hr, hd⟩⟩
  · obtain rfl := Option.some.inj (hr.symm.trans hr')
    obtain rfl := Except.ok.inj (hd.symm.trans hd')
    exact ⟨date, Or.inr written, fun hc hu => ⟨_, written, Thread.ofJson_toJson_of_fourDigit hc hu⟩⟩

end Contents

namespace Action

open Contents

variable {α : Type} {k : Keyspace} {faults : Faults}

/-- However the action ends, it does nothing to the threads but move on dates of change. -/
def Ages (k : Keyspace) (faults : Faults) (p : Action α) : Prop :=
  ∀ c, Ends k faults p c (fun _ c' => Aged c c') (fun _ c' => Aged c c')

theorem ages_of_renews {p : Action α} (h : ∀ thread, p.Renews k faults thread False) :
    p.Ages k faults := fun c =>
  (Ends.forall fun thread => h thread c).mono (fun _ _ => aged_of_renews) fun _ _ => aged_of_renews

end Action

/-- A batch that is saved does nothing to the threads but move on dates of change. -/
theorem Store.ages_saveMessages {s : Store} {faults : Faults} {now : Instant}
    (messages : List Message) : (s.saveMessages now messages).Ages s.keys faults :=
  Action.ages_of_renews fun _ => (renews_saveMessages messages).mono False.elim

end ChatMemory
