import ChatMemory.Query.Messages
import ChatMemory.Store.Messages

/-!
# Listing messages

A question for messages is answered with a page and, besides, with single messages that were to be
included, each with its neighbours in the order of its thread.

The page of a single thread without filters is read straight from the order index. Otherwise all
messages of all threads are read, filtered, sorted and cut.

Messages are sorted by their scores in the orders that were loaded for the question. A message that
none of them holds is sorted by its date.
-/

namespace ChatMemory.Store

variable (s : Store)

/-! ## Loaded orders -/

/-- The orders loaded for a question, by thread. -/
abbrev Orders := List (String × OrderSnapshot)

/-- The order of a thread, which is loaded if need be. -/
def loadOrder (orders : Orders) (thread : String) : Action (OrderSnapshot × Orders) :=
  match orders.lookup thread with
  | some order => return (order, orders)
  | none => do
    let order ← OrderIndex.snapshot s.keys thread
    return (order, orders ++ [(thread, order)])

/-- The place of a message: its score, or its date if no loaded order holds it. -/
def scoreIn (orders : Orders) (m : Message) : Binary64 :=
  (((orders.lookup m.threadId).bind (·.score? m.id))).getD (Binary64.ofInt m.createdAt.micros)

/-- The order of a listing, by score and id. -/
def listedBefore (orders : Orders) (direction : SortDirection) : Message → Message → Bool :=
  let ascending := Sorting.byRank (fun m => (scoreIn orders m).order) (·.id)
  match direction with
  | .ascending => ascending
  | .descending => fun a b => ascending b a

/-- Sorts messages for a listing; of messages with the same id the first counts. -/
def arrange (orders : Orders) (direction : SortDirection) (messages : List Message) :
    List Message :=
  Sorting.sort (listedBefore orders direction) (distinctBy (·.id) messages)

/-! ## Pages -/

/-- A page before anything is included, and the number of messages on all pages. -/
structure Window where
  messages : List Message
  total : Nat

/-- The first position of a window of an order, and the position after its last. -/
def windowBounds (direction : SortDirection) (total offset limit : Nat) : Nat × Nat :=
  match direction with
  | .ascending => (offset, min (offset + limit) total)
  | .descending => (total - offset - limit, total - offset)

/-- The ids of an order from one position up to another, which is left out. -/
def idsBetween (order : OrderSnapshot) (bounds : Nat × Nat) : List String :=
  if bounds.1 < bounds.2 then order.range bounds.1 ((bounds.2 : Int) - 1) else []

/-- The page of a single thread, read from its order. -/
def indexedWindow (q : MessageQuery) (thread : String) (limit : Nat) :
    Action (Window × Orders) := do
  let order ← OrderIndex.snapshot s.keys thread
  let ids := idsBetween order (windowBounds q.order order.length (q.perPage.offset q.page) limit)
  let messages ← s.fetchMany (ids.map fun id => (thread, id))
  return (⟨messages, order.length⟩, [(thread, order)])

/-- Loads the orders of some threads; gives the messages in them, thread by thread. -/
def loadTargets (orders : Orders) : List String → Action (List (String × String) × Orders)
  | [] => return ([], orders)
  | thread :: rest => do
    if (orders.lookup thread).isSome then loadTargets orders rest
    else
      let (order, orders) ← s.loadOrder orders thread
      let (targets, orders) ← loadTargets orders rest
      return (order.ids.map (fun id => (thread, id)) ++ targets, orders)

/-- The page of any threads and filters. -/
def filteredWindow (q : MessageQuery) : Action (Window × Orders) := do
  let (targets, orders) ← s.loadTargets [] q.threadIds
  let messages ← s.fetchMany targets
  let sorted := arrange orders q.order (messages.filter q.matches?)
  return (⟨q.perPage.slice q.page sorted, sorted.length⟩, orders)

/-- The page of a question, by the shorter way if there is one. -/
def window (q : MessageQuery) : Action (Window × Orders) :=
  match q.perPage, q.threadIds with
  | .limit limit, [thread] =>
    if q.hasFilters then s.filteredWindow q else s.indexedWindow q thread limit
  | _, _ => s.filteredWindow q

/-! ## Included messages -/

/-- The first of some threads whose order holds a message. -/
def firstIndexing (orders : Orders) (message : String) :
    List String → Action (Option String × Orders)
  | [] => return (none, orders)
  | thread :: rest => do
    let (order, orders) ← s.loadOrder orders thread
    if order.contains message then return (some thread, orders)
    else firstIndexing orders message rest

/-- The thread of a message to be included: the one that is given, else one of those asked for, else
the one that holds it. -/
def includeThread (q : MessageQuery) (orders : Orders) (r : IncludeRequest) :
    Action (Option String × Orders) :=
  match r.threadId with
  | some thread => return (some thread, orders)
  | none => do
    match ← s.firstIndexing orders r.id q.threadIds with
    | (some thread, orders) => return (some thread, orders)
    | (none, orders) => return (← s.findMessage r.id, orders)

/-- The ids around a message of an order. -/
def neighbours (order : OrderSnapshot) (r : IncludeRequest) : List String :=
  match order.rank? r.id with
  | none => []
  | some rank => order.range (rank - r.before : Nat) (min (rank + r.after) (order.length - 1) : Nat)

/-- The messages to be included for each request, one after the other. -/
def includeTargets (q : MessageQuery) (orders : Orders) :
    List IncludeRequest → Action (List (String × String) × Orders)
  | [] => return ([], orders)
  | r :: rest => do
    match ← s.includeThread q orders r with
    | (none, orders) => includeTargets q orders rest
    | (some thread, orders) => do
      let (order, orders) ← s.loadOrder orders thread
      let (targets, orders) ← includeTargets q orders rest
      return ((neighbours order r).map (fun id => (thread, id)) ++ targets, orders)

/-! ## The answer -/

/-- Whether there are messages on later pages that are not in the answer. -/
def hasMore (q : MessageQuery) (w : Window) (selected : List Message) : Bool :=
  match q.perPage with
  | .all => false
  | .limit limit =>
    let offset := q.perPage.offset q.page
    if w.total ≤ (selected.filter q.matches?).length then false
    else
      match q.order with
      | .ascending => offset + w.messages.length < w.total
      | .descending => offset + limit < w.total

/-- The answer to a question that has no problems. -/
def collectPage (q : MessageQuery) : Action MessagePage := do
  let (w, orders) ← s.window q
  let (targets, orders) ← s.includeTargets q orders q.includes
  let included ← s.fetchMany (distinct targets)
  let selected := arrange orders q.order (w.messages ++ included)
  return ⟨selected, w.total, q.page, q.perPage, hasMore q w selected⟩

/-! ## Problems with a question -/

/-- The label of an item of a list. -/
def itemLabel (list : String) (position : Nat) (field : String) : String :=
  list ++ "[" ++ Text.natText position ++ "]" ++ field

/-- What is wrong with an item of a list, for all items in order. -/
def itemViolations {α : Type} (f : Nat → α → List Violation) (items : List α) : List Violation :=
  items.zipIdx.flatMap fun (item, position) => f position item

/-- What is wrong with a question, except for its page number. -/
def queryViolations (q : MessageQuery) : List Violation :=
  (if q.threadIds.isEmpty then [.required "threadId"] else [])
    ++ itemViolations (fun i id => Identifier.violations (itemLabel "threadIds" i "") id) q.threadIds
    ++ itemViolations (fun i (r : IncludeRequest) =>
        Identifier.messageViolations (itemLabel "include" i ".id") r.id
          ++ (match r.threadId with
            | some id => Identifier.violations (itemLabel "include" i ".threadId") id
            | none => [])) q.includes
    ++ (match q.resourceId with
      | some id => Identifier.violations "resourceId" id
      | none => [])

/-- The messages of some threads, page by page, with the messages to be included. -/
def listMessages (q : MessageQuery) : Action MessagePage := do
  check (Identifier.pageViolations q.page)
  check (queryViolations q)
  Action.orEmpty (s.collectPage q) (.empty q)

end ChatMemory.Store
