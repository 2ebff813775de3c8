import ChunkDirectory.Json.Basic

/-!
# Writing JSON

The compact form of a value: no spaces, and in strings only those characters escaped that have to
be. Control characters without a letter of their own, and surrogates, are written as four
hexadecimal digits in lower case.
-/

namespace ChunkDirectory.Json

/-- A unit as an escape of four hexadecimal digits. -/
def hexEscape (n : Nat) : List Char :=
  ['\\', 'u', Nat.digitChar (n / 4096 % 16), Nat.digitChar (n / 256 % 16),
    Nat.digitChar (n / 16 % 16), Nat.digitChar (n % 16)]

/-- A code point within a string. -/
def pointChars (n : Nat) : List Char :=
  if n = 34 then ['\\', '"']
  else if n = 92 then ['\\', '\\']
  else if n = 8 then ['\\', 'b']
  else if n = 9 then ['\\', 't']
  else if n = 10 then ['\\', 'n']
  else if n = 12 then ['\\', 'f']
  else if n = 13 then ['\\', 'r']
  else if n < 32 then hexEscape n
  else
    match JsonText.char? n with
    | some c => [c]
    | none => hexEscape n

/-- A string with its quotes. -/
def textChars (t : JsonText) : List Char := '"' :: t.points.flatMap pointChars ++ ['"']

mutual

/-- A value. -/
def chars : Json → List Char
  | .null => ['n', 'u', 'l', 'l']
  | .bool true => ['t', 'r', 'u', 'e']
  | .bool false => ['f', 'a', 'l', 's', 'e']
  | .number spelling => spelling
  | .text t => textChars t
  | .list items => '[' :: itemChars items ++ [']']
  | .object fields => '\x7b' :: fieldChars fields ++ ['\x7d']

/-- Items with commas between them. -/
def itemChars : List Json → List Char
  | [] => []
  | [item] => chars item
  | item :: rest => chars item ++ ',' :: itemChars rest

/-- Fields with commas between them. -/
def fieldChars : List (JsonText × Json) → List Char
  | [] => []
  | [(name, value)] => textChars name ++ ':' :: chars value
  | (name, value) :: rest => textChars name ++ ':' :: chars value ++ ',' :: fieldChars rest

end

/-- The compact text of a value. -/
def print (j : Json) : String := String.ofList j.chars

/-- An object of named fields. -/
def ofFields (fields : List (String × Json)) : Json :=
  .object (fields.map fun (name, value) => (.ofString name, value))

/-- A value that may be missing. -/
def ofOption {α : Type} (f : α → Json) : Option α → Json
  | some a => f a
  | none => .null

end ChunkDirectory.Json
