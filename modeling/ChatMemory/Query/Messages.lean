import ChatMemory.Message.Basic
import ChatMemory.Query.Paging

/-!
# Asking for messages
-/

namespace ChatMemory

/-- A message to be listed in any case, together with its neighbours in the order of its thread. -/
structure IncludeRequest where
  id : String
  /-- The thread to look in; without one, it is searched for. -/
  threadId : Option String := none
  before : Nat := 0
  after : Nat := 0
deriving DecidableEq

namespace IncludeRequest

def inThread (r : IncludeRequest) (threadId : String) : IncludeRequest :=
  { r with threadId := some threadId }

def withContext (r : IncludeRequest) (before after : Nat) : IncludeRequest :=
  { r with before, after }

def toJson (r : IncludeRequest) : Json :=
  .obj [("id", .str r.id), ("threadId", .ofText? r.threadId),
    ("withNextMessages", .ofNat r.after), ("withPreviousMessages", .ofNat r.before)]

def record : Record IncludeRequest :=
  Record.constructor mk
    |>.and (.required "id" Decoder.text)
    |>.and (.optional "threadId" (Decoder.nullable Decoder.text) none)
    |>.and (.optional "withPreviousMessages" Decoder.nat64 0)
    |>.and (.optional "withNextMessages" Decoder.nat64 0)

def ofJson : Decoder IncludeRequest := record.decode

end IncludeRequest

/-- A range of dates. An end that is not given is open. -/
structure DateRange where
  start : Option Instant := none
  stop : Option Instant := none
  startExclusive : Bool := false
  stopExclusive : Bool := false
deriving DecidableEq

namespace DateRange

/-- Whether a date is not before the range. -/
def afterStart (r : DateRange) (date : Instant) : Bool :=
  match r.start with
  | some start => if r.startExclusive then start < date else start ≤ date
  | none => true

/-- Whether a date is not past the range. -/
def beforeStop (r : DateRange) (date : Instant) : Bool :=
  match r.stop with
  | some stop => if r.stopExclusive then date < stop else date ≤ stop
  | none => true

def contains (r : DateRange) (date : Instant) : Bool := r.afterStart date && r.beforeStop date

def toJson (r : DateRange) : Json :=
  .obj [("end", (r.stop.map (·.toJson)).getD .null), ("endExclusive", .bool r.stopExclusive),
    ("start", (r.start.map (·.toJson)).getD .null), ("startExclusive", .bool r.startExclusive)]

def record : Record DateRange :=
  Record.constructor mk
    |>.and (.optional "start" (Decoder.nullable Instant.ofArgument) none)
    |>.and (.optional "end" (Decoder.nullable Instant.ofArgument) none)
    |>.and (.optional "startExclusive" Decoder.boolean false)
    |>.and (.optional "endExclusive" Decoder.boolean false)

def ofJson : Decoder DateRange := record.decode

end DateRange

/-- What messages must satisfy, besides lying in the right threads. -/
structure MessageFilter where
  dateRange : Option DateRange := none
deriving DecidableEq

namespace MessageFilter

def toJson (f : MessageFilter) : Json :=
  .obj [("dateRange", (f.dateRange.map (·.toJson)).getD .null)]

def record : Record MessageFilter :=
  Record.constructor mk
    |>.and (.optional "dateRange" (Decoder.nullable DateRange.ofJson) none)

def ofJson : Decoder MessageFilter := record.decode

end MessageFilter

/-- A question for the messages of some threads. -/
structure MessageQuery where
  threadIds : List String
  resourceId : Option String := none
  includes : List IncludeRequest := []
  filter : MessageFilter := {}
  page : Int := 0
  perPage : PageSize := .limit 40
  order : SortDirection := .ascending
deriving DecidableEq

namespace MessageQuery

def withPage (q : MessageQuery) (page : Int) : MessageQuery := { q with page }

def withPerPage (q : MessageQuery) (size : PageSize) : MessageQuery := { q with perPage := size }

def withResourceId (q : MessageQuery) (id : String) : MessageQuery :=
  { q with resourceId := some id }

/-- Asks for one more message with its neighbours. -/
def withInclude (q : MessageQuery) (r : IncludeRequest) : MessageQuery :=
  { q with includes := q.includes ++ [r] }

def withDateRange (q : MessageQuery) (range : DateRange) : MessageQuery :=
  { q with filter := { q.filter with dateRange := some range } }

def withOrder (q : MessageQuery) (order : SortDirection) : MessageQuery := { q with order }

/-- Whether messages are asked for by more than their threads. -/
def hasFilters (q : MessageQuery) : Bool := q.resourceId.isSome || q.filter.dateRange.isSome

/-- Whether a message is one of those asked for. -/
def matches? (q : MessageQuery) (m : Message) : Bool :=
  q.threadIds.contains m.threadId
    && (match q.resourceId with
      | some id => m.resourceId = some id
      | none => true)
    && (match q.filter.dateRange with
      | some range => range.contains m.createdAt
      | none => true)

def toJson (q : MessageQuery) : Json :=
  .obj [("filter", q.filter.toJson), ("include", .arr (q.includes.map IncludeRequest.toJson)),
    ("order", q.order.toJson), ("page", .num (.int q.page)), ("perPage", q.perPage.toJson),
    ("resourceId", .ofText? q.resourceId), ("threadIds", .arr (q.threadIds.map Json.str))]

def record : Record MessageQuery :=
  let standard : MessageQuery := { threadIds := [] }
  Record.constructor mk
    |>.and (.required "threadIds" (Decoder.list Decoder.text))
    |>.and (.optional "resourceId" (Decoder.nullable Decoder.text) none)
    |>.and (.optional "include" (Decoder.list IncludeRequest.ofJson) [])
    |>.and (.optional "filter" MessageFilter.ofJson standard.filter)
    |>.and (.optional "page" Decoder.int64 standard.page)
    |>.and (.optional "perPage" PageSize.ofJson standard.perPage)
    |>.and (.optional "order" SortDirection.ofJson standard.order)

def ofJson : Decoder MessageQuery := record.decode

end MessageQuery

/-- A page of messages, with the messages that were to be included. -/
structure MessagePage where
  messages : List Message
  /-- The number of messages on all pages; included messages do not count. -/
  total : Nat
  page : Int
  perPage : PageSize
  hasMore : Bool

namespace MessagePage

/-- The answer to a question that could not be answered. -/
def empty (q : MessageQuery) : MessagePage := ⟨[], 0, q.page, q.perPage, false⟩

def toJson (p : MessagePage) : Json :=
  .obj [("hasMore", .bool p.hasMore), ("messages", .arr (p.messages.map Message.toJson)),
    ("page", .num (.int p.page)), ("perPage", p.perPage.toJson), ("total", .ofNat p.total)]

end MessagePage

end ChatMemory
