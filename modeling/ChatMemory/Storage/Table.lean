import ChatMemory.Storage.Rows

/-!
# Tables

The four tables that conversations are kept in, and their contents.
-/

namespace ChatMemory

/-- A table of the store. -/
inductive Table where
  | threads
  | messages
  | resources
  /-- For each message the thread that holds it. It only saves searching. -/
  | messageThreads
deriving DecidableEq, Repr

namespace Table

/-- The name of a table, as it appears in keys. -/
def name : Table → String
  | .threads => "threads"
  | .messages => "messages"
  | .resources => "resources"
  | .messageThreads => "message_threads"

def all : List Table := [.threads, .messages, .resources, .messageThreads]

end Table

/-- The contents of all tables. -/
structure Tables where
  threads : Rows
  messages : Rows
  resources : Rows
  messageThreads : Rows

namespace Tables

/-- Nothing stored. -/
def empty : Tables := ⟨.empty, .empty, .empty, .empty⟩

/-- The rows of a table. -/
def rows (t : Tables) : Table → Rows
  | .threads => t.threads
  | .messages => t.messages
  | .resources => t.resources
  | .messageThreads => t.messageThreads

/-- Replaces the rows of a table. -/
def setRows (t : Tables) : Table → Rows → Tables
  | .threads, r => { t with threads := r }
  | .messages, r => { t with messages := r }
  | .resources, r => { t with resources := r }
  | .messageThreads, r => { t with messageThreads := r }

def get? (t : Tables) (table : Table) (key : String) : Option Json := (t.rows table).get? key

def put (t : Tables) (table : Table) (key : String) (value : Json) : Tables :=
  t.setRows table ((t.rows table).put key value)

def delete (t : Tables) (table : Table) (key : String) : Tables :=
  t.setRows table ((t.rows table).delete key)

def keysFrom (t : Tables) (table : Table) (start : String) : List String :=
  (t.rows table).keysFrom start

theorem rows_setRows (t : Tables) (table other : Table) (r : Rows) :
    (t.setRows table r).rows other = if other = table then r else t.rows other := by
  cases table <;> cases other <;> rfl

theorem get?_put (t : Tables) (table other : Table) (key k : String) (value : Json) :
    (t.put table key value).get? other k
      = if other = table ∧ k = key then some value else t.get? other k := by
  rw [get?, put, rows_setRows]
  by_cases h : other = table
  · subst h; simp [Rows.get?_put, get?]
  · simp [h, get?]

theorem get?_delete (t : Tables) (table other : Table) (key k : String) :
    (t.delete table key).get? other k
      = if other = table ∧ k = key then none else t.get? other k := by
  rw [get?, delete, rows_setRows]
  by_cases h : other = table
  · subst h; simp [Rows.get?_delete, get?]
  · simp [h, get?]

/-- Tables that answer every look-up alike are equal. -/
theorem ext {a b : Tables} (h : ∀ table key, a.get? table key = b.get? table key) : a = b := by
  obtain ⟨_, _, _, _⟩ := a
  obtain ⟨_, _, _, _⟩ := b
  rw [Tables.mk.injEq]
  exact ⟨Rows.ext (h .threads), Rows.ext (h .messages), Rows.ext (h .resources),
    Rows.ext (h .messageThreads)⟩

end Tables

end ChatMemory
