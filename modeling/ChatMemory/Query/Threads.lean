import ChatMemory.Query.Paging
import ChatMemory.Thread.Basic

/-!
# Asking for threads
-/

namespace ChatMemory

/-- The date that threads are sorted by. -/
inductive ThreadOrderField where
  | createdAt
  | updatedAt
deriving DecidableEq

namespace ThreadOrderField

def name : ThreadOrderField → String
  | .createdAt => "createdAt"
  | .updatedAt => "updatedAt"

def toJson (f : ThreadOrderField) : Json := .str f.name

def ofJson : Decoder ThreadOrderField :=
  Decoder.choice [("createdAt", .createdAt), ("updatedAt", .updatedAt)]

/-- The date of a thread. -/
def date (f : ThreadOrderField) (t : Thread) : Instant :=
  match f with
  | .createdAt => t.createdAt
  | .updatedAt => t.updatedAt

end ThreadOrderField

/-- How threads are sorted: the newest first, unless something else is asked for. -/
structure ThreadOrder where
  field : ThreadOrderField := .createdAt
  direction : SortDirection := .descending
deriving DecidableEq

namespace ThreadOrder

def toJson (o : ThreadOrder) : Json :=
  .obj [("direction", o.direction.toJson), ("field", o.field.toJson)]

def record : Record ThreadOrder :=
  Record.constructor mk
    |>.and (.required "field" ThreadOrderField.ofJson)
    |>.and (.required "direction" SortDirection.ofJson)

def ofJson : Decoder ThreadOrder := record.decode

end ThreadOrder

/-- A question for the threads of a resource. -/
structure ThreadQuery where
  resourceId : String
  page : Int := 0
  perPage : PageSize := .limit 100
  orderBy : ThreadOrder := {}
deriving DecidableEq

namespace ThreadQuery

def withPage (q : ThreadQuery) (page : Int) : ThreadQuery := { q with page }

def withPerPage (q : ThreadQuery) (size : PageSize) : ThreadQuery := { q with perPage := size }

def withOrderBy (q : ThreadQuery) (field : ThreadOrderField) (direction : SortDirection) :
    ThreadQuery :=
  { q with orderBy := ⟨field, direction⟩ }

def toJson (q : ThreadQuery) : Json :=
  .obj [("orderBy", q.orderBy.toJson), ("page", .num (.int q.page)),
    ("perPage", q.perPage.toJson), ("resourceId", .str q.resourceId)]

def record : Record ThreadQuery :=
  let standard : ThreadQuery := ⟨"", 0, .limit 100, {}⟩
  Record.constructor mk
    |>.and (.required "resourceId" Decoder.text)
    |>.and (.optional "page" Decoder.int64 standard.page)
    |>.and (.optional "perPage" PageSize.ofJson standard.perPage)
    |>.and (.optional "orderBy" ThreadOrder.ofJson standard.orderBy)

def ofJson : Decoder ThreadQuery := record.decode

end ThreadQuery

/-- A page of threads. -/
structure ThreadPage where
  threads : List Thread
  /-- The number of threads on all pages. -/
  total : Nat
  page : Int
  perPage : PageSize
  hasMore : Bool

namespace ThreadPage

/-- The answer to a question that could not be answered. -/
def empty (q : ThreadQuery) : ThreadPage := ⟨[], 0, q.page, q.perPage, false⟩

def toJson (p : ThreadPage) : Json :=
  .obj [("hasMore", .bool p.hasMore), ("page", .num (.int p.page)),
    ("perPage", p.perPage.toJson), ("threads", .arr (p.threads.map Thread.toJson)),
    ("total", .ofNat p.total)]

end ThreadPage

end ChatMemory
