import ChunkDirectory.Text.Blank

/-!
# Numbers in text

Unsigned numbers as they are written in environment variables, addresses and request paths: digits
of a base after at most one plus sign, with a value below a bound. A minus sign is never accepted.
-/

namespace ChunkDirectory.Text

/-- The value of a digit in bases up to 36, in either case. -/
def digitValue (c : Char) : Option Nat :=
  if '0' ≤ c ∧ c ≤ '9' then some (c.toNat - '0'.toNat)
  else if 'a' ≤ c ∧ c ≤ 'z' then some (c.toNat - 'a'.toNat + 10)
  else if 'A' ≤ c ∧ c ≤ 'Z' then some (c.toNat - 'A'.toNat + 10)
  else none

/-- Goes on with the digits of a number after those with value `n`. -/
def readDigits (base n : Nat) : List Char → Option Nat
  | [] => some n
  | c :: rest =>
    match digitValue c with
    | some d => if d < base then readDigits base (base * n + d) rest else none
    | none => none

/-- Drops one plus sign. -/
def dropPlus : List Char → List Char
  | '+' :: rest => rest
  | cs => cs

/-- Reads a number below `bound`. -/
def readNumber (base bound : Nat) (cs : List Char) : Option Nat :=
  match dropPlus cs with
  | [] => none
  | digits => (readDigits base 0 digits).filter (· < bound)

end ChunkDirectory.Text
