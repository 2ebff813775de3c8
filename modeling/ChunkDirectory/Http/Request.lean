import ChunkDirectory.Http.Target
import ChunkDirectory.Text.Number

/-!
# Request heads

A request begins with a head: a line with its method, its target and the version of the protocol,
then lines with fields, then an empty line. Empty lines in front are skipped. A head that departs
from this is refused as a whole, whatever it asks for, and so is one whose fields leave open where
its body ends.
-/

namespace ChunkDirectory.Http

/-- A request that could be read. -/
structure Request where
  method : String
  target : Target
deriving DecidableEq

/-- Why a request cannot be read. -/
inductive Refusal where
  | malformed
  | targetTooLong
  | bodyTooLarge
deriving DecidableEq

/-- The status that says why. -/
def Refusal.status : Refusal → Nat
  | .malformed => 400
  | .targetTooLong => 414
  | .bodyTooLarge => 431

/-! ## Lines -/

/-- Whether a character may stand in a method or in the name of a field. -/
def isTokenChar (c : Char) : Bool := c.isAlphanum || "!#$%&'*+-.^_`|~".toList.contains c

/-- Whether a character may stand in the value of a field. -/
def isValueChar (c : Char) : Bool := c = '\t' || (' ' ≤ c && c ≠ '\x7f')

/-- A text without the blanks at its ends. -/
def trimBlanks (text : List Char) : List Char :=
  let isBlank (c : Char) : Bool := c = ' ' || c = '\t'
  ((text.dropWhile isBlank).reverse.dropWhile isBlank).reverse

/-- A line without the carriage return at its end. -/
def dropReturn (line : List Char) : List Char :=
  if line.getLast? = some '\r' then line.dropLast else line

/-- The lines of a text. -/
def lines (text : List Char) : List (List Char) :=
  let divided := text.foldr
    (fun c lines =>
      match c, lines with
      | '\n', lines => [] :: lines
      | c, line :: rest => (c :: line) :: rest
      | c, [] => [[c]])
    [[]]
  divided.map dropReturn

/-- The first line of a head. -/
structure RequestLine where
  method : List Char
  target : List Char
  /-- Whether it is version 1.1 of the protocol, and not 1.0. -/
  current : Bool

def RequestLine.read (line : List Char) : Option RequestLine := do
  let method := line.takeWhile isTokenChar
  let ' ' :: rest := line.dropWhile isTokenChar | none
  let target := rest.takeWhile isTargetChar
  let ' ' :: version := rest.dropWhile isTargetChar | none
  guard (!method.isEmpty && !target.isEmpty)
  guard (version = "HTTP/1.1".toList || version = "HTTP/1.0".toList)
  return ⟨method, target, version = "HTTP/1.1".toList⟩

/-- A field of a head. Upper and lower case make no difference in its name, which is kept in lower
case. -/
structure Field where
  name : List Char
  value : List Char

def Field.read (line : List Char) : Option Field := do
  let name := line.takeWhile isTokenChar
  let ':' :: value := line.dropWhile isTokenChar | none
  guard (!name.isEmpty && value.all isValueChar)
  return ⟨name.map (·.toLower), trimBlanks value⟩

/-! ## Bodies -/

/-- What the fields read so far say of the body. -/
structure BodyNote where
  /-- Whether the last transfer coding is the one in chunks, if codings are named. -/
  chunked : Option Bool
  length : Option Nat

/-- Whether the last coding of a list is the one in chunks. -/
def endsInChunks (codings : List Char) : Bool :=
  let last := (codings.reverse.takeWhile (· ≠ ',')).reverse
  codings.all (·.toNat < 0x80) && (trimBlanks last).map (·.toLower) = "chunked".toList

/-- A length in bare digits. -/
def readLength (value : List Char) : Option Nat :=
  if value.all Char.isDigit then Text.readNumber 10 UInt64.size value else none

/-- The longest body that can be announced. -/
def maxBodyLength : Nat := UInt64.size - 3

/-- Takes account of a field. A length is of no interest once codings are named. -/
def BodyNote.next (current : Bool) (note : BodyNote) (field : Field) : Except Refusal BodyNote :=
  if field.name = "transfer-encoding".toList then
    if current then .ok { note with chunked := some (endsInChunks field.value) }
    else .error .malformed
  else if field.name = "content-length".toList && note.chunked.isNone then
    match readLength field.value with
    | none => .error .malformed
    | some length =>
      if note.length.any (· ≠ length) then .error .malformed
      else if maxBodyLength < length then .error .bodyTooLarge
      else .ok { note with length := some length }
  else .ok note

/-- Refuses a head that does not say where its body ends. -/
def checkBody (current : Bool) (fields : List Field) : Except Refusal Unit := do
  let note ← fields.foldlM (BodyNote.next current) ⟨none, none⟩
  if note.chunked = some false then throw .malformed

/-! ## Heads -/

namespace Request

/-- The longest target allowed, in bytes. -/
def maxTargetLength : Nat := 65534

/-- Reads a head. -/
def read (text : List Char) : Except Refusal Request := do
  let line :: rest := (lines text).dropWhile (·.isEmpty) | throw .malformed
  let some first := RequestLine.read line | throw .malformed
  let some fields := (rest.takeWhile (!·.isEmpty)).mapM Field.read | throw .malformed
  if maxTargetLength < (String.ofList first.target).utf8ByteSize then throw .targetTooLong
  let some target := Target.read first.target | throw .malformed
  checkBody first.current fields
  return ⟨String.ofList first.method, target⟩

/-- The head of a request without fields. -/
def head (method target : String) : List Char :=
  (method ++ " " ++ target ++ " HTTP/1.1\r\n\r\n").toList

end Request

end ChunkDirectory.Http
