import ChatMemory.Json.Basic

/-!
# JSON as it is written

The tree of a JSON text before any of its parts is judged: numbers are literals, strings are code
points in which an escape may have put half of a surrogate pair, and a key may occur twice. What
such a text means depends on the reader. A reader of free-form data wants every number finite and
every string whole, and takes the last value of a repeated key (`Written.value?`). A reader that
skips a field does not look at its value at all.

## Stages

* `Token.scan?` — the tokens of a text, by an automaton that sees one character at a time.
* `Written.ofTokens?` — the tree of the tokens, by a stack of open containers.
* `Written.value?` — the JSON value of a tree.

The first two are folds and the third is recursion on the tree, so nothing here needs a bound on the
number of steps.
-/

namespace ChatMemory.Json

/-! ## Tokens -/

/-- The tokens of a JSON text. A string is given by its code points. -/
inductive Token where
  | openList
  | closeList
  | openRecord
  | closeRecord
  | colon
  | comma
  | null
  | bool (value : Bool)
  | number (literal : Number.Literal)
  | text (points : List Nat)
deriving DecidableEq

namespace Token

/-- What the scanner is in the middle of. Collected parts are in reverse. -/
inductive Mode where
  | between
  | bare (chars : List Char)
  | text (points : List Nat)
  | escape (points : List Nat)
  | unicode (points : List Nat) (digits : List Nat)

/-- The blanks of the format. -/
def isSpace (c : Char) : Bool := c = ' ' || c = '\n' || c = '\t' || c = '\r'

/-- The characters of numbers and of the three words. -/
def isBare (c : Char) : Bool := c.isAlphanum || c = '+' || c = '-' || c = '.'

/-- The value of a hexadecimal digit. -/
def hexValue? (c : Char) : Option Nat :=
  if '0' ≤ c && c ≤ '9' then some (c.toNat - '0'.toNat)
  else if 'a' ≤ c && c ≤ 'f' then some (c.toNat - 'a'.toNat + 10)
  else if 'A' ≤ c && c ≤ 'F' then some (c.toNat - 'A'.toNat + 10)
  else none

/-- The token of a run of bare characters. -/
def ofBare? (chars : List Char) : Option Token :=
  if chars = ['n', 'u', 'l', 'l'] then some .null
  else if chars = ['t', 'r', 'u', 'e'] then some (.bool true)
  else if chars = ['f', 'a', 'l', 's', 'e'] then some (.bool false)
  else (Number.Literal.read? chars).map .number

/-- The token of a single mark. -/
def ofMark? (c : Char) : Option Token :=
  if c = '[' then some .openList
  else if c = ']' then some .closeList
  else if c = '\x7b' then some .openRecord
  else if c = '\x7d' then some .closeRecord
  else if c = ':' then some .colon
  else if c = ',' then some .comma
  else none

/-- The code point of a one-letter escape. -/
def ofEscape? (c : Char) : Option Nat :=
  if c = '"' ∨ c = '\\' ∨ c = '/' then some c.toNat
  else if c = 'b' then some 0x08
  else if c = 'f' then some 0x0C
  else if c = 'n' then some 0x0A
  else if c = 'r' then some 0x0D
  else if c = 't' then some 0x09
  else none

/-- A character outside strings and bare runs. -/
def begin? (done : List Token) (c : Char) : Option (List Token × Mode) :=
  if isSpace c then some (done, .between)
  else if c = '"' then some (done, .text [])
  else if isBare c then some (done, .bare [c])
  else (ofMark? c).map fun t => (t :: done, .between)

/-- One more character; the tokens found so far are in reverse. -/
def step? : List Token × Mode → Char → Option (List Token × Mode)
  | (done, .between), c => begin? done c
  | (done, .bare chars), c =>
    if isBare c then some (done, .bare (c :: chars))
    else do
      let t ← ofBare? chars.reverse
      begin? (t :: done) c
  | (done, .text points), c =>
    if c = '"' then some (.text points.reverse :: done, .between)
    else if c = '\\' then some (done, .escape points)
    else if c.toNat < 0x20 then none
    else some (done, .text (c.toNat :: points))
  | (done, .escape points), c =>
    if c = 'u' then some (done, .unicode points [])
    else (ofEscape? c).map fun p => (done, .text (p :: points))
  | (done, .unicode points digits), c => do
    let d ← hexValue? c
    match digits with
    | [d₃, d₂, d₁] => return (done, .text ((((d₁ * 16 + d₂) * 16 + d₃) * 16 + d) :: points))
    | _ => return (done, .unicode points (d :: digits))

/-- The tokens of a text, if it has no foreign character and no unfinished string. -/
def scan? (cs : List Char) : Option (List Token) := do
  match ← cs.foldlM step? ([], .between) with
  | (done, .between) => return done.reverse
  | (done, .bare chars) => return (((← ofBare? chars.reverse) :: done).reverse)
  | _ => none

end Token

/-! ## Trees -/

/-- The tree of a JSON text. -/
inductive Written where
  | null
  | bool (value : Bool)
  | number (literal : Number.Literal)
  | text (points : List Nat)
  | list (items : List Written)
  | record (fields : List (List Nat × Written))

namespace Written

/-- A container that is still open, with its contents in reverse. -/
inductive Frame where
  | list (items : List Written)
  | record (fields : List (List Nat × Written)) (key : List Nat)

/-- What may come next. -/
inductive Expected where
  /-- A value. -/
  | value
  /-- A value or the end of the list just opened. -/
  | item
  /-- A key of the record with these fields, or its end if it was just opened. -/
  | key (fields : List (List Nat × Written)) (closable : Bool)
  /-- The colon after a key. -/
  | colon (fields : List (List Nat × Written)) (key : List Nat)
  /-- A comma or an end, after this value. -/
  | next (value : Written)

/-- A token where a value may begin. -/
def beginValue? (stack : List Frame) : Token → Option (List Frame × Expected)
  | .null => some (stack, .next .null)
  | .bool value => some (stack, .next (.bool value))
  | .number literal => some (stack, .next (.number literal))
  | .text points => some (stack, .next (.text points))
  | .openList => some (.list [] :: stack, .item)
  | .openRecord => some (stack, .key [] true)
  | _ => none

/-- One more token. -/
def step? : List Frame × Expected → Token → Option (List Frame × Expected)
  | (stack, .value), t => beginValue? stack t
  | (.list _ :: stack, .item), .closeList => some (stack, .next (.list []))
  | (stack, .item), t => beginValue? stack t
  | (stack, .key fields _), .text points => some (stack, .colon fields points)
  | (stack, .key _ true), .closeRecord => some (stack, .next (.record []))
  | (stack, .colon fields key), .colon => some (.record fields key :: stack, .value)
  | (.list items :: stack, .next v), .comma => some (.list (v :: items) :: stack, .value)
  | (.list items :: stack, .next v), .closeList =>
    some (stack, .next (.list (v :: items).reverse))
  | (.record fields key :: stack, .next v), .comma =>
    some (stack, .key ((key, v) :: fields) false)
  | (.record fields key :: stack, .next v), .closeRecord =>
    some (stack, .next (.record ((key, v) :: fields).reverse))
  | _, _ => none

/-- The tree of a list of tokens, if they are those of one value. -/
def ofTokens? (tokens : List Token) : Option Written := do
  match ← tokens.foldlM step? ([], .value) with
  | ([], .next v) => some v
  | _ => none

/-- The tree of a text. -/
def ofText? (s : String) : Option Written := Token.scan? s.toList >>= ofTokens?

/-! ## Values -/

/-- The text of some code points. The halves of a surrogate pair must stand together. -/
def chars? : List Nat → Option (List Char)
  | [] => some []
  | [p] => if 0xD800 ≤ p ∧ p < 0xE000 then none else some [Char.ofNat p]
  | p :: q :: rest =>
    if 0xD800 ≤ p ∧ p < 0xDC00 then
      if 0xDC00 ≤ q ∧ q < 0xE000 then
        (chars? rest).map (Char.ofNat (0x10000 + (p - 0xD800) * 0x400 + (q - 0xDC00)) :: ·)
      else none
    else if 0xDC00 ≤ p ∧ p < 0xE000 then none
    else (chars? (q :: rest)).map (Char.ofNat p :: ·)

/-- The string of some code points. -/
def string? (points : List Nat) : Option String := (chars? points).map String.ofList

/-- The number of containers inside each other that free-form data may have. -/
def nestingLimit : Nat := 127

mutual

/-- The value of a tree that has at most `depth` containers inside each other. -/
def valueWithin? (depth : Nat) : Written → Option Json
  | .null => some .null
  | .bool value => some (.bool value)
  | .number literal => literal.value?.map .num
  | .text points => (string? points).map .str
  | .list items =>
    match depth with
    | 0 => none
    | d + 1 => (itemsWithin? d items).map .arr
  | .record fields =>
    match depth with
    | 0 => none
    | d + 1 => (fieldsWithin? d fields).map fun fs => .obj (Object.ofFields fs)

/-- The values of the items of a list. -/
def itemsWithin? (depth : Nat) : List Written → Option (List Json)
  | [] => some []
  | item :: items => do
    let v ← valueWithin? depth item
    let vs ← itemsWithin? depth items
    return v :: vs

/-- The fields of a record. -/
def fieldsWithin? (depth : Nat) : List (List Nat × Written) → Option (List (String × Json))
  | [] => some []
  | (key, value) :: fields => do
    let k ← string? key
    let v ← valueWithin? depth value
    let vs ← fieldsWithin? depth fields
    return (k, v) :: vs

end

/-- The JSON value of a tree. -/
def value? (w : Written) : Option Json := valueWithin? nestingLimit w

end Written

/-- The JSON value of a text. -/
def ofString? (s : String) : Option Json := Written.ofText? s >>= Written.value?

end ChatMemory.Json
