import ChatMemory.Json.Decoder

/-!
# Pages

How a listing is cut into pages: a page number, counted from zero, and a page size. Instead of a
size, all items may be asked for, which is written `false`.
-/

namespace ChatMemory

/-- A page size. -/
inductive PageSize where
  | limit (size : Nat)
  | all
deriving DecidableEq

namespace PageSize

/-- The size, if there is one. -/
def limit? : PageSize → Option Nat
  | .limit size => some size
  | .all => none

def toJson : PageSize → Json
  | .limit size => .ofNat size
  | .all => .bool false

def ofJson : Decoder PageSize
  | .bool true => .error .pageSizeTrue
  | .bool false => .ok .all
  | .num (.int value) =>
    if value < 0 then .error .pageSizeNegative else .ok (.limit value.toNat)
  | _ => .error .unexpected

/-- The number of items before a page. -/
def offset (page : Int) : PageSize → Nat
  | .limit size => page.toNat * size
  | .all => 0

/-- The items of a page. -/
def slice {α : Type} (page : Int) (size : PageSize) (items : List α) : List α :=
  match size with
  | .limit n => (items.drop (size.offset page)).take n
  | .all => items

end PageSize

/-- The direction of a listing. -/
inductive SortDirection where
  | ascending
  | descending
deriving DecidableEq

namespace SortDirection

def name : SortDirection → String
  | .ascending => "ASC"
  | .descending => "DESC"

def toJson (d : SortDirection) : Json := .str d.name

def ofJson : Decoder SortDirection :=
  Decoder.choice [("ASC", .ascending), ("DESC", .descending)]

end SortDirection

end ChatMemory
