/-!
# JSON values

The data of a JSON document, close to its text: a number keeps its spelling, an object keeps its
fields in order with repetitions, and a text is a list of code points, because an escape may name a
surrogate, which is no character.
-/

namespace ChunkDirectory

/-- The content of a JSON string. -/
structure JsonText where
  points : List Nat
deriving DecidableEq

namespace JsonText

def ofString (s : String) : JsonText := ⟨s.toList.map Char.toNat⟩

/-- The character at a code point, unless it is a surrogate or out of range. -/
def char? (n : Nat) : Option Char :=
  if h : n.isValidChar then some (Char.ofNatAux n h) else none

/-- The text as characters, `none` if it holds a surrogate. -/
def toString? (t : JsonText) : Option String := (t.points.mapM char?).map String.ofList

end JsonText

/-- A JSON value. -/
inductive Json where
  | null
  | bool (b : Bool)
  | number (spelling : List Char)
  | text (t : JsonText)
  | list (items : List Json)
  | object (fields : List (JsonText × Json))

namespace Json

def ofNat (n : Nat) : Json := .number (Nat.toDigits 10 n)

def ofString (s : String) : Json := .text (.ofString s)

end Json

end ChunkDirectory
