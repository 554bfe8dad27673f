import ChatMemory.Json.Basic

/-!
# The compact text of a JSON value

No blanks between tokens, fields in stored order, and in strings only what has to be escaped: the
quote, the backslash and the control characters, five of which have short escapes.
-/

namespace ChatMemory.Json

/-- A hexadecimal digit, in lower case. -/
def hexDigit (n : Nat) : Char :=
  if n < 10 then Char.ofNat ('0'.toNat + n) else Char.ofNat ('a'.toNat + (n - 10))

/-- A character inside a quoted string. -/
def escaped (c : Char) : List Char :=
  if c = '"' then ['\\', '"']
  else if c = '\\' then ['\\', '\\']
  else if c.toNat = 0x08 then ['\\', 'b']
  else if c.toNat = 0x09 then ['\\', 't']
  else if c.toNat = 0x0A then ['\\', 'n']
  else if c.toNat = 0x0C then ['\\', 'f']
  else if c.toNat = 0x0D then ['\\', 'r']
  else if c.toNat < 0x20 then
    ['\\', 'u', '0', '0', hexDigit (c.toNat / 16), hexDigit (c.toNat % 16)]
  else [c]

/-- A quoted string. -/
def quoted (s : String) : List Char := '"' :: s.toList.flatMap escaped ++ ['"']

mutual

/-- The text of a value. -/
def chars : Json → List Char
  | .null => ['n', 'u', 'l', 'l']
  | .bool true => ['t', 'r', 'u', 'e']
  | .bool false => ['f', 'a', 'l', 's', 'e']
  | .num value => value.text
  | .str value => quoted value
  | .arr [] => ['[', ']']
  | .arr (item :: items) => '[' :: chars item ++ itemsChars items
  | .obj [] => ['\x7b', '\x7d']
  | .obj ((key, value) :: fields) =>
    '\x7b' :: quoted key ++ ':' :: chars value ++ fieldsChars fields

/-- The text after the first item of an array. -/
def itemsChars : List Json → List Char
  | [] => [']']
  | item :: items => ',' :: chars item ++ itemsChars items

/-- The text after the first field of an object. -/
def fieldsChars : List (String × Json) → List Char
  | [] => ['\x7d']
  | (key, value) :: fields => ',' :: quoted key ++ ':' :: chars value ++ fieldsChars fields

end

/-- The compact text of a value. -/
def text (value : Json) : String := String.ofList value.chars

end ChatMemory.Json
