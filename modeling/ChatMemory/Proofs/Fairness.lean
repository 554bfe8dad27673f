import ChatMemory.Proofs.Lines

/-!
# First come, first served

What the turns owe the requests for a key, over any run of requests for any keys.

A run is watched from one key. Its `History` names the requests in the order of their arrival, those
to which the key was granted in the order in which that happened, and those that were given up while
they waited. The steps that are about the key, with their replies, are `stepsOn`.

## Main statements

* `Kept.fair` — at most one request owns a key, and it is the oldest.
* `Kept.inOrder_note` — a step keeps the order of the history.
* `Kept.steps_line` — a run refines the lines of the keys.
* `Kept.replies_alone` — what happens on a key does not depend on the other keys.
* `steps_serve_in_order` — the theorem for runs that start idle.
-/

namespace ChatMemory.Turns

variable {ρ β : Type} [DecidableEq ρ] {t t' : Turns ρ β} {k : Ticket ρ β} {key : String} {name : ρ}
  {s : Step ρ β}

/-! ## The steps on a key -/

/-- The steps of a run that are about a key, with their replies. -/
def stepsOn (t : Turns ρ β) (key : String) : List (Step ρ β) → List (Step ρ β × TurnReply β)
  | [] => []
  | s :: rest =>
    (if t.keyOf s = some key then [(s, (t.step s).2)] else []) ++ (t.step s).1.stepsOn key rest

theorem steps_cons (t : Turns ρ β) (s : Step ρ β) (rest : List (Step ρ β)) :
    t.steps (s :: rest) = (((t.step s).1.steps rest).1,
      ((t.step s).2, (t.step s).1.activeKeys) :: ((t.step s).1.steps rest).2) := rfl

theorem Line.steps_cons (l : Line ρ β) (s : Step ρ β) (rest : List (Step ρ β)) :
    l.steps (s :: rest) = (((l.step s).1.steps rest).1, (l.step s).2 :: ((l.step s).1.steps rest).2) :=
  rfl

theorem Kept.steps : ∀ (ss : List (Step ρ β)) {t : Turns ρ β}, t.Kept → (t.steps ss).1.Kept
  | [], _, h => h
  | s :: rest, _, h => Kept.steps rest (h.step s)

/-- Watched from one key, a run is a run of its line. -/
theorem Kept.steps_line : ∀ (ss : List (Step ρ β)) {t : Turns ρ β}, t.Kept →
    Line.steps (t.line key) ((t.stepsOn key ss).map (·.1)) =
      ((t.steps ss).1.line key, (t.stepsOn key ss).map (·.2))
  | [], _, _ => rfl
  | s :: rest, t, h => by
    have ih := Kept.steps_line rest (h.step s)
    rw [stepsOn, Turns.steps_cons]
    by_cases hs : t.keyOf s = some key
    · have moved := (h.onKey_step hs).moved
      rw [if_pos hs, List.singleton_append, List.map_cons, List.map_cons, Line.steps_cons, ← moved, ih]
    · rw [if_neg hs, List.nil_append, ← h.line_step_other hs, ih]

/-! ## Other keys do not matter -/

theorem mem_line_of_ticket? (hk : t.ticket? name = some k) :
    k.name = name ∧ k.place ∈ t.line k.key :=
  ⟨of_decide_eq_true (List.find?_some hk :),
    mem_line.mpr ⟨k, List.mem_of_find?_eq_some hk, rfl, rfl⟩⟩

/-- Where there are requests for one key only, in the same line, a step on that key is one too. -/
theorem keyOf_alone (same : t'.line key = t.line key)
    (only : ∀ other, other ≠ key → t'.line other = []) (hs : t.keyOf s = some key) :
    t'.keyOf s = some key := by
  have inLine {k' : Ticket ρ β} (hk' : t'.ticket? s.name = some k') : k'.key = key := by
    refine Classical.byContradiction fun ho => ?_
    exact absurd (only k'.key ho ▸ (mem_line_of_ticket? hk').2) List.not_mem_nil
  rw [keyOf] at hs ⊢
  cases hk : t.ticket? s.name with
  | some k =>
    rw [hk] at hs
    obtain rfl := Option.some.inj hs
    cases hk' : t'.ticket? s.name with
    | some k' => exact congrArg some (inLine hk')
    | none =>
      obtain ⟨hn, there⟩ := mem_line_of_ticket? hk
      have absent : (t'.line k.key).place? s.name = none := place?_line_of_absent hk'
      exact absurd hn (Line.place?_eq_none_iff.mp absent k.place (same ▸ there))
  | none =>
    rw [hk] at hs
    cases hk' : t'.ticket? s.name with
    | none => exact hs
    | some k' =>
      obtain ⟨hn, there⟩ := mem_line_of_ticket? hk'
      rw [inLine hk', same] at there
      exact absurd hn (Line.place?_eq_none_iff.mp (place?_line_of_absent hk) k'.place there)

/-- The steps on a key get the same replies where there are no others. -/
theorem Kept.replies_alone : ∀ (ss : List (Step ρ β)) {t t' : Turns ρ β}, t.Kept → t'.Kept →
    t'.line key = t.line key → (∀ other, other ≠ key → t'.line other = []) →
    (t'.steps ((t.stepsOn key ss).map (·.1))).2.map (·.1) = (t.stepsOn key ss).map (·.2)
  | [], _, _, _, _, _, _ => rfl
  | s :: rest, t, t', h, h', same, only => by
    rw [stepsOn]
    by_cases hs : t.keyOf s = some key
    · have here := h.onKey_step hs
      have there := h'.onKey_step (keyOf_alone same only hs)
      have moved := there.moved
      rw [same, ← here.moved] at moved
      obtain ⟨line, reply⟩ := Prod.mk.inj moved
      rw [if_pos hs, List.singleton_append, List.map_cons, List.map_cons, Turns.steps_cons,
        List.map_cons, reply, replies_alone rest here.kept there.kept line fun other ho => by
          rw [there.others other ho, only other ho]]
    · rw [if_neg hs, List.nil_append]
      exact replies_alone rest (h.step s) h' (same.trans (h.line_step_other hs).symm) only

/-! ## Grants in order -/

/-- The names of the requests for a key, oldest first. -/
def names (t : Turns ρ β) (key : String) : List ρ := (t.queue key).map (·.name)

/-- The request that owns a key. -/
def owner? (t : Turns ρ β) (key : String) : Option ρ :=
  ((t.queue key).find? fun k => t.Owns k).map (·.name)

/-- A new request asks for its key, and has not looked yet. -/
def join (t : Turns ρ β) (name : ρ) (key : String) (job : Option β) : Turns ρ β :=
  if t.ticket? name = none then t.enlist name key job else t

/-- The new request of a step has asked for its key. -/
def arrive (t : Turns ρ β) : Step ρ β → Turns ρ β
  | .acquire name key => t.join name key none
  | .run name key result => t.join name key (some result)
  | _ => t

/-- The name of the request for a key that arrives with a step. -/
def arrived (t : Turns ρ β) (key : String) (s : Step ρ β) : List ρ :=
  if t.ticket? s.name = none ∧ s.key? = some key then [s.name] else []

/-- The name of the request for a key that a step gives up while it does not own the key. -/
def skipped (t : Turns ρ β) (key : String) : Step ρ β → List ρ
  | .drop name =>
    match t.ticket? name with
    | some k => if k.key = key ∧ ¬ t.Owns k then [k.name] else []
    | none => []
  | _ => []

/-- The new owner, if there is one. -/
def handed (before after : Option ρ) : List ρ := if after = before then [] else after.toList

/-- What has happened to the requests for a key. -/
structure History (ρ : Type) where
  arrived : List ρ
  granted : List ρ
  skipped : List ρ

/-- Adds what happens in a step. The key can change hands twice: a new request gets a free key, and
with its job done hands it on. -/
def History.note (h : History ρ) (key : String) (t : Turns ρ β) (s : Step ρ β) : History ρ where
  arrived := h.arrived ++ t.arrived key s
  granted := h.granted ++ handed (t.owner? key) ((t.arrive s).owner? key) ++
    handed ((t.arrive s).owner? key) ((t.step s).1.owner? key)
  skipped := h.skipped ++ t.skipped key s

/-- The history of a key over a run. -/
def history (key : String) (h : History ρ) (t : Turns ρ β) : List (Step ρ β) → History ρ
  | [] => h
  | s :: rest => history key (h.note key t s) (t.step s).1 rest

/-- The key was granted in the order of arrival to all requests but the ones that were skipped and
those that wait. -/
def History.InOrder (h : History ρ) (names : List ρ) : Prop :=
  ∃ past, h.granted = past ++ names.head?.toList ∧ (past ++ names).Sublist h.arrived ∧
    (past ++ names ++ h.skipped).Perm h.arrived

namespace History.InOrder

variable {h : History ρ} {names : List ρ}

/-- A request arrives: it is granted the key at once if there is no other. -/
theorem arrive (o : h.InOrder names) (name : ρ) :
    (History.mk (h.arrived ++ [name]) (h.granted ++ handed names.head? (names ++ [name]).head?)
      h.skipped).InOrder (names ++ [name]) := by
  obtain ⟨past, granted, order, all⟩ := o
  refine ⟨past, ?_, ?_, ?_⟩
  · cases names with
    | nil => rw [granted]; simp [handed]
    | cons first rest => rw [granted]; simp [handed]
  · rw [← List.append_assoc]
    exact order.append (.refl _)
  · calc past ++ (names ++ [name]) ++ h.skipped
        = (past ++ names) ++ ([name] ++ h.skipped) := by simp
      _ |>.Perm ((past ++ names) ++ (h.skipped ++ [name])) :=
        List.perm_append_comm.append_left _
      _ = (past ++ names ++ h.skipped) ++ [name] := by simp
      _ |>.Perm (h.arrived ++ [name]) := all.append_right _

/-- The owner ends: the key goes to the oldest of the others. -/
theorem handOn {first : ρ} (o : h.InOrder (first :: names)) (distinct : first ∉ names) :
    (History.mk h.arrived (h.granted ++ handed (some first) names.head?) h.skipped).InOrder names := by
  obtain ⟨past, granted, order, all⟩ := o
  have same : past ++ first :: names = past ++ [first] ++ names := by simp
  rw [same] at order all
  refine ⟨past ++ [first], ?_, order, all⟩
  cases names with
  | nil => rw [granted]; rfl
  | cons next rest =>
    have other : next ≠ first := fun e => distinct (e ▸ List.mem_cons_self)
    rw [granted, handed, if_neg (by simpa using other)]
    rfl

/-- A request that waits is given up: the key stays where it is. -/
theorem skip {name : ρ} (o : h.InOrder names) (there : name ∈ names)
    (waits : names.head? ≠ some name) (distinct : names.Pairwise (· ≠ ·)) :
    (History.mk h.arrived (h.granted ++ handed names.head? (names.filter (· ≠ name)).head?)
      (h.skipped ++ [name])).InOrder (names.filter (· ≠ name)) := by
  obtain ⟨past, granted, order, all⟩ := o
  have head : (names.filter (· ≠ name)).head? = names.head? := by
    cases names with
    | nil => rfl
    | cons first rest =>
      have other : first ≠ name := fun e => waits (congrArg some e)
      rw [List.filter_cons_of_pos (by simpa using other)]
      rfl
  have left : (names.filter (· ≠ name) ++ [name]).Perm names := by
    have erased : names.erase name = names.filter (· ≠ name) := by
      rw [List.Nodup.erase_eq_filter distinct]
      exact List.filter_congr fun n _ => by rw [decide_not, bne, Bool.beq_eq_decide_eq]
    rw [← erased]
    exact (List.perm_append_singleton name _).trans (List.perm_cons_erase there).symm
  refine ⟨past, ?_, (List.filter_sublist.append_left past).trans order, ?_⟩
  · rw [head, granted, handed, if_pos rfl, List.append_nil]
  · calc past ++ names.filter (· ≠ name) ++ (h.skipped ++ [name])
      _ |>.Perm (past ++ names.filter (· ≠ name) ++ ([name] ++ h.skipped)) :=
        List.perm_append_comm.append_left _
      _ = past ++ (names.filter (· ≠ name) ++ [name]) ++ h.skipped := by simp
      _ |>.Perm (past ++ names ++ h.skipped) := (left.append_left past).append_right _
      _ |>.Perm h.arrived := all

end History.InOrder

/-! ## A step in the history -/

theorem handed_self (owner : Option ρ) : handed owner owner = [] := if_pos rfl

theorem names_finish : (t.finish k).names key = (t.names key).filter (· ≠ k.name) := by
  rw [names, queue_finish, names, List.filter_map]
  rfl

theorem names_serve : (t.serve k).names key = t.names key := by
  rw [names, queue_serve, List.map_map]
  refine List.map_congr_left fun k' _ => ?_
  rw [Function.comp_apply]
  split <;> rfl

theorem Kept.owner?_eq (h : t.Kept) : t.owner? key = (t.names key).head? := by
  rw [owner?, Turns.names]
  cases hq : t.queue key with
  | nil => rfl
  | cons k rest =>
    have there : k ∈ t.queue key := hq ▸ List.mem_cons_self
    have owns : t.Owns k := (h.owns_iff there).mpr (by rw [hq]; rfl)
    rw [List.find?_cons_of_pos (by simpa using owns)]
    rfl

theorem Kept.arrive (h : t.Kept) (key : String) (s : Step ρ β) :
    (t.arrive s).Kept ∧ (t.arrive s).names key = t.names key ++ t.arrived key s := by
  have joins (name : ρ) (asked : String) (job : Option β) :
      (t.join name asked job).Kept ∧ (t.join name asked job).names key =
        t.names key ++ if t.ticket? name = none ∧ some asked = some key then [name] else [] := by
    rw [join]
    by_cases hn : t.ticket? name = none
    · rw [if_pos hn]
      refine ⟨h.enlist (ticket?_eq_none_iff.mp hn), ?_⟩
      rw [Turns.names, queue_enlist, List.map_append, Turns.names]
      simp only [hn, true_and, Option.some.injEq]
      split <;> rfl
    · rw [if_neg hn, if_neg fun e => hn e.1, List.append_nil]
      exact ⟨h, rfl⟩
  have nobody (hs : s.key? = none) : t.arrived key s = [] := by
    rw [arrived, hs, if_neg fun e => absurd e.2 (by simp)]
  cases s with
  | acquire name asked => exact joins name asked none
  | run name asked result => exact joins name asked (some result)
  | poll name => exact ⟨h, by rw [nobody rfl, List.append_nil]; rfl⟩
  | drop name => exact ⟨h, by rw [nobody rfl, List.append_nil]; rfl⟩

/-- What becomes of the line of a key while one request looks or is given up, with the requests for
the key that are skipped. -/
inductive Leaves (t : Turns ρ β) (key : String) : Turns ρ β → List ρ → Prop where
  | nobody {t' : Turns ρ β} (same : t'.names key = t.names key) : Leaves t key t' []
  | owner {k : Ticket ρ β} (hk : k ∈ t.tickets) (owns : t.Owns k) : Leaves t key (t.finish k) []
  | waiter {k : Ticket ρ β} (hk : k ∈ t.tickets) (waits : ¬ t.Owns k) :
    Leaves t key (t.finish k) (if k.key = key then [k.name] else [])

theorem leaves_poll (t : Turns ρ β) (key : String) (name : ρ) : t.Leaves key (t.poll name).1 [] := by
  rw [poll]
  cases hk : t.ticket? name with
  | none => exact .nobody rfl
  | some k =>
    show t.Leaves key (t.look k).1 []
    rw [look]
    split
    · exact .nobody rfl
    · split
      · next owns =>
        split
        · exact .nobody names_serve
        · exact .owner (List.mem_of_find?_eq_some hk) owns
      · exact .nobody rfl

theorem leaves_start (t : Turns ρ β) (key : String) (name : ρ) (asked : String) (job : Option β) :
    (t.join name asked job).Leaves key (t.start name asked job).1 [] := by
  rw [start, join]
  cases hk : t.ticket? name with
  | some k => exact .nobody (by rw [if_neg (by simp)])
  | none =>
    rw [if_pos rfl]
    exact leaves_poll _ key name

theorem leaves_drop (t : Turns ρ β) (key : String) (name : ρ) :
    t.Leaves key (t.drop name).1 (t.skipped key (.drop name)) := by
  rw [drop, skipped]
  cases hk : t.ticket? name with
  | none => exact .nobody rfl
  | some k =>
    have there := List.mem_of_find?_eq_some hk
    by_cases owns : t.Owns k
    · simp only [owns, not_true_eq_false, and_false, if_false]
      exact .owner there owns
    · simp only [owns, not_false_eq_true, and_true]
      exact .waiter there owns

/-- Once a new request has arrived, a step leaves the line as it is, or one request ends. -/
theorem leaves_step (t : Turns ρ β) (key : String) (s : Step ρ β) :
    (t.arrive s).Leaves key (t.step s).1 (t.skipped key s) := by
  cases s with
  | acquire name asked => exact t.leaves_start key name asked none
  | run name asked result => exact t.leaves_start key name asked (some result)
  | poll name => exact t.leaves_poll key name
  | drop name => exact t.leaves_drop key name

theorem Kept.names_finish_other (h : t.Kept) (hk : k ∈ t.tickets) (ho : key ≠ k.key) :
    (t.finish k).names key = t.names key := by
  rw [names_finish]
  refine List.filter_eq_self.mpr fun name hn => ?_
  obtain ⟨k', hk', rfl⟩ := List.mem_map.mp hn
  simpa using h.names_other hk ho k' hk'

/-- The order is kept when a request leaves. -/
theorem Leaves.inOrder {h : History ρ} {gone : List ρ} (leaves : t.Leaves key t' gone)
    (kept : t.Kept) (o : h.InOrder (t.names key)) :
    (History.mk h.arrived (h.granted ++ handed (t.names key).head? (t'.names key).head?)
      (h.skipped ++ gone)).InOrder (t'.names key) := by
  have same (e : t'.names key = t.names key) :
      (History.mk h.arrived (h.granted ++ handed (t.names key).head? (t'.names key).head?)
        (h.skipped ++ [])).InOrder (t'.names key) := by
    rw [e, handed_self, List.append_nil, List.append_nil]
    exact o
  have distinct : (t.names key).Pairwise (· ≠ ·) := kept.distinct key
  cases leaves with
  | nobody e => exact same e
  | @owner k hk owns =>
    by_cases hkey : key = k.key
    · subst hkey
      -- The owner stands first in line, so the one behind it comes next.
      have first := (kept.owns_iff (mem_queue.mpr ⟨hk, rfl⟩)).mp owns
      obtain ⟨rest, hq⟩ := List.head?_eq_some_iff.mp first
      have line : t.names k.key = k.name :: rest.map (·.name) := by rw [Turns.names, hq]; rfl
      rw [line] at distinct
      have others := (List.pairwise_cons.mp distinct).1
      have left : (t.finish k).names k.key = rest.map (·.name) := by
        rw [names_finish, line, List.filter_cons_of_neg (by simp)]
        exact List.filter_eq_self.mpr fun n hn => by simpa using (others n hn).symm
      rw [left, line, List.append_nil]
      exact (line ▸ o).handOn fun hn => others _ hn rfl
    · exact same (kept.names_finish_other hk hkey)
  | @waiter k hk waits =>
    by_cases hkey : key = k.key
    · subst hkey
      have there := mem_queue.mpr ⟨hk, rfl⟩
      rw [if_pos rfl, names_finish]
      refine o.skip (List.mem_map_of_mem there) (fun e => waits ?_) distinct
      rw [kept.owns_iff_owner? hk, owner?_line, ← List.head?_map]
      exact e
    · rw [if_neg fun e => hkey e.symm]
      exact same (kept.names_finish_other hk hkey)

/-- The order is kept by every step. -/
theorem Kept.inOrder_note {h : History ρ} (kept : t.Kept) (o : h.InOrder (t.names key))
    (s : Step ρ β) : (h.note key t s).InOrder ((t.step s).1.names key) := by
  obtain ⟨joined, names⟩ := kept.arrive key s
  -- The step is taken apart: a request may arrive, and then one may leave.
  have came : (History.mk (h.arrived ++ t.arrived key s)
      (h.granted ++ handed (t.names key).head? ((t.arrive s).names key).head?)
      h.skipped).InOrder ((t.arrive s).names key) := by
    rw [names, arrived]
    split
    · exact o.arrive s.name
    · rw [List.append_nil, List.append_nil, handed_self, List.append_nil]
      exact o
  rw [History.note, kept.owner?_eq, joined.owner?_eq, (kept.step s).owner?_eq]
  exact (t.leaves_step key s).inOrder joined came

/-! ## Runs -/

/-- The key is held by at most one request, the oldest, and was granted in order. -/
structure Fair (t : Turns ρ β) (key : String) (h : History ρ) : Prop where
  /-- At most one live request owns the key. -/
  alone : ∀ k ∈ t.queue key, ∀ k' ∈ t.queue key, t.Owns k → t.Owns k' → k = k'
  /-- Of the live requests the oldest owns the key. -/
  oldest : ∀ k, (t.queue key).head? = some k → t.Owns k
  /-- The grants went, in the order of arrival, to all who were not skipped and do not wait. -/
  order : h.InOrder (t.names key)

omit [DecidableEq ρ] in
theorem Kept.fair {h : History ρ} (kept : t.Kept) (o : h.InOrder (t.names key)) :
    t.Fair key h where
  alone k hk k' hk' owns owns' := by
    have first := (kept.owns_iff hk).mp owns
    have first' := (kept.owns_iff hk').mp owns'
    exact Option.some.inj (first.symm.trans first')
  oldest k hk := (kept.owns_iff (List.mem_of_mem_head? hk)).mpr hk
  order := o

theorem Kept.inOrder_history : ∀ (ss : List (Step ρ β)) {t : Turns ρ β} {h : History ρ}, t.Kept →
    h.InOrder (t.names key) → (history key h t ss).InOrder ((t.steps ss).1.names key)
  | [], _, _, _, o => o
  | s :: rest, _, _, kept, o => inOrder_history rest (kept.step s) (kept.inOrder_note o s)

/-- Whatever requests for whatever keys do, from idle turns on:

* the key is never owned by two requests; as long as it has live requests, the oldest owns it; and it
  was granted in the order of arrival, to all but the requests given up while they waited;
* what happened on the key is what happens in its line alone;
* and it would have happened just so without the steps that are about other keys. -/
theorem steps_serve_in_order (ss : List (Step ρ β)) (key : String) :
    let start : Turns ρ β := idle
    let own := start.stepsOn key ss
    (start.steps ss).1.Fair key (history key ⟨[], [], []⟩ start ss) ∧
      Line.steps [] (own.map (·.1)) = ((start.steps ss).1.line key, own.map (·.2)) ∧
      (start.steps (own.map (·.1))).2.map (·.1) = own.map (·.2) := by
  refine ⟨?_, ?_, ?_⟩
  · have nobody : (⟨[], [], []⟩ : History ρ).InOrder ((idle : Turns ρ β).names key) :=
      ⟨[], rfl, .slnil, .nil⟩
    exact (kept_idle.steps ss).fair (kept_idle.inOrder_history ss nobody)
  · exact kept_idle.steps_line ss
  · exact kept_idle.replies_alone ss kept_idle rfl fun _ _ => rfl

-- The second request is given up while it waits, the third one is handed the key and never looks.
example :
    let steps : List (Step Nat Nat) := [.acquire 1 "k", .run 2 "k" 0, .acquire 3 "k", .acquire 4 "k",
      .drop 2, .drop 1, .drop 3]
    history "k" ⟨[], [], []⟩ (idle : Turns Nat Nat) steps = ⟨[1, 2, 3, 4], [1, 3, 4], [2]⟩ := rfl

end ChatMemory.Turns
