import ChunkDirectory.SortedMap

/-!
# Binary codecs

A codec writes a value as bytes and reads it back from the front of a byte string, leaving the rest.
Integers have fixed width and are little-endian; a boolean is one byte, 0 or 1; an optional value
follows a byte that says whether it is there; a sequence, a map or a text follows its length in
eight bytes. Reading fails on anything else and on input that ends early. Of several values for a
key of a map the last one counts.
-/

namespace ChunkDirectory.Wire

/-- Reads a value from the front of a byte string. -/
abbrev Reader (α : Type) := List UInt8 → Option (α × List UInt8)

/-- How values of a type are written and read. -/
structure Codec (α : Type) where
  write : α → List UInt8
  read : Reader α

/-- Reads with `r`, then with the reader chosen by what was read. -/
def Reader.bind {α β : Type} (r : Reader α) (f : α → Reader β) : Reader β := fun bytes =>
  match r bytes with
  | some (a, rest) => f a rest
  | none => none

/-- Reads nothing. -/
def Reader.pure {α : Type} (a : α) : Reader α := fun bytes => some (a, bytes)

/-- Reads nothing and fails. -/
def Reader.fail {α : Type} : Reader α := fun _ => none

instance : Monad Reader := { pure := Reader.pure, bind := Reader.bind }

namespace Codec

variable {α β γ : Type}

def byte : Codec UInt8 where
  write b := [b]
  read
    | b :: rest => some (b, rest)
    | [] => none

/-- One value after another. -/
def pair (a : Codec α) (b : Codec β) : Codec (α × β) where
  write v := a.write v.1 ++ b.write v.2
  read := do
    let x ← a.read
    let y ← b.read
    return (x, y)

/-- Another view of the values of a codec. -/
def via (a : Codec α) (view : β → α) (build : α → β) : Codec β where
  write v := a.write (view v)
  read := do return build (← a.read)

def word16 : Codec UInt16 :=
  (pair byte byte).via (fun n => (n.toUInt8, (n >>> 8).toUInt8))
    fun (low, high) => high.toUInt16 <<< 8 ||| low.toUInt16

def word32 : Codec UInt32 :=
  (pair word16 word16).via (fun n => (n.toUInt16, (n >>> 16).toUInt16))
    fun (low, high) => high.toUInt32 <<< 16 ||| low.toUInt32

def word64 : Codec UInt64 :=
  (pair word32 word32).via (fun n => (n.toUInt32, (n >>> 32).toUInt32))
    fun (low, high) => high.toUInt64 <<< 32 ||| low.toUInt64

def bool : Codec Bool where
  write b := [if b then 1 else 0]
  read := do
    match ← byte.read with
    | 0 => return false
    | 1 => return true
    | _ => .fail

def option (a : Codec α) : Codec (Option α) where
  write
    | none => [0]
    | some v => 1 :: a.write v
  read := do
    match ← bool.read with
    | false => return none
    | true => return some (← a.read)

/-- A length as it is written in front of a sequence. -/
def length (n : Nat) : List UInt8 := word64.write (UInt64.ofNat n)

/-- Reads `n` values. -/
def readMany (a : Codec α) : Nat → Reader (List α)
  | 0 => .pure []
  | n + 1 => do
    let v ← a.read
    let rest ← readMany a n
    return v :: rest

def list (a : Codec α) : Codec (List α) where
  write l := length l.length ++ l.flatMap a.write
  read := do
    let n ← word64.read
    readMany a n.toNat

def map {κ : Type} [Ranked κ] (key : Codec κ) (value : Codec β) : Codec (SortedMap κ β) :=
  (list (pair key value)).via (·.entries) SortedMap.ofList

/-- Reads `n` bytes. -/
def readBytes (n : Nat) : Reader (List UInt8) := fun bytes =>
  if n ≤ bytes.length then some (bytes.take n, bytes.drop n) else none

/-- Text in UTF-8. -/
def text : Codec String where
  write s :=
    let bytes := s.toUTF8.toList
    length bytes.length ++ bytes
  read := do
    let n ← word64.read
    let bytes ← readBytes n.toNat
    match String.fromUTF8? (ByteArray.mk bytes.toArray) with
    | some s => return s
    | none => .fail

end Codec

end ChunkDirectory.Wire
