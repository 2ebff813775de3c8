import ChunkDirectory.Json.Basic

/-!
# Reading JSON

A strict reader: one value with only spaces, tabs and line ends around it, no comments, no trailing
commas, no superfluous zeros, no control characters in strings. A high surrogate escape followed by
a low one names one character.
-/

namespace ChunkDirectory.Json

def isSpace (c : Char) : Bool := c = ' ' || c = '\t' || c = '\n' || c = '\r'

def skipSpace (cs : List Char) : List Char := cs.dropWhile isSpace

/-- Skips a given text. -/
def skipWord : List Char → List Char → Option (List Char)
  | [], cs => some cs
  | _ :: _, [] => none
  | w :: ws, c :: cs => if w = c then skipWord ws cs else none

def hexValue (c : Char) : Option Nat :=
  if '0' ≤ c ∧ c ≤ '9' then some (c.toNat - '0'.toNat)
  else if 'a' ≤ c ∧ c ≤ 'f' then some (c.toNat - 'a'.toNat + 10)
  else if 'A' ≤ c ∧ c ≤ 'F' then some (c.toNat - 'A'.toNat + 10)
  else none

/-- The unit named by four hexadecimal digits. -/
def hexUnit (a b c d : Char) : Option Nat := do
  return (((← hexValue a) * 16 + (← hexValue b)) * 16 + (← hexValue c)) * 16 + (← hexValue d)

/-- What a letter stands for after a backslash. -/
def escaped (c : Char) : Option Nat :=
  if c = '"' ∨ c = '\\' ∨ c = '/' then some c.toNat
  else if c = 'b' then some 8
  else if c = 'f' then some 12
  else if c = 'n' then some 10
  else if c = 'r' then some 13
  else if c = 't' then some 9
  else none

/-- Code points and units up to the closing quote, and what follows it. -/
def readUnits : List Char → Option (List Nat × List Char)
  | [] => none
  | '"' :: rest => some ([], rest)
  | '\\' :: 'u' :: a :: b :: c :: d :: rest => do
    let n ← hexUnit a b c d
    let (units, rest) ← readUnits rest
    return (n :: units, rest)
  | '\\' :: e :: rest => do
    let n ← escaped e
    let (units, rest) ← readUnits rest
    return (n :: units, rest)
  | c :: rest =>
    if c.toNat < 32 ∨ c = '\\' then none
    else do
      let (units, rest) ← readUnits rest
      return (c.toNat :: units, rest)

/-- Joins each high surrogate with a low one right after it. -/
def joinSurrogates : List Nat → List Nat
  | high :: low :: rest =>
    if 0xD800 ≤ high ∧ high < 0xDC00 ∧ 0xDC00 ≤ low ∧ low < 0xE000 then
      (0x10000 + (high - 0xD800) * 0x400 + (low - 0xDC00)) :: joinSurrogates rest
    else high :: joinSurrogates (low :: rest)
  | l => l

/-- A string after its opening quote. -/
def readText (cs : List Char) : Option (JsonText × List Char) := do
  let (units, rest) ← readUnits cs
  return (⟨joinSurrogates units⟩, rest)

/-- One or more digits. -/
def readDigits (cs : List Char) : Option (List Char × List Char) :=
  match cs.takeWhile Char.isDigit with
  | [] => none
  | digits => some (digits, cs.dropWhile Char.isDigit)

/-- Digits without a superfluous zero in front. -/
def readInteger (cs : List Char) : Option (List Char × List Char) := do
  let (digits, rest) ← readDigits cs
  if digits.head? = some '0' ∧ digits.length ≠ 1 then none
  return (digits, rest)

/-- A point and the digits after it, if there is a point. -/
def readFraction : List Char → Option (List Char × List Char)
  | '.' :: cs => do
    let (digits, rest) ← readDigits cs
    return ('.' :: digits, rest)
  | cs => some ([], cs)

/-- An exponent, if there is one. -/
def readExponent : List Char → Option (List Char × List Char)
  | e :: cs =>
    if e = 'e' ∨ e = 'E' then do
      let (sign, cs) :=
        match cs with
        | s :: cs' => if s = '+' ∨ s = '-' then ([s], cs') else ([], cs)
        | [] => ([], cs)
      let (digits, rest) ← readDigits cs
      return (e :: sign ++ digits, rest)
    else some ([], e :: cs)
  | [] => some ([], [])

/-- A number. -/
def readNumber (cs : List Char) : Option (List Char × List Char) := do
  let (sign, cs) :=
    match cs with
    | '-' :: rest => (['-'], rest)
    | _ => ([], cs)
  let (whole, cs) ← readInteger cs
  let (fraction, cs) ← readFraction cs
  let (exponent, cs) ← readExponent cs
  return (sign ++ whole ++ fraction ++ exponent, cs)

mutual

/-- A value, after blanks. The fuel bounds the depth and the number of parts. -/
def readValue : Nat → List Char → Option (Json × List Char)
  | 0, _ => none
  | fuel + 1, cs =>
    match skipSpace cs with
    | 'n' :: rest => do return (.null, ← skipWord "ull".toList rest)
    | 't' :: rest => do return (.bool true, ← skipWord "rue".toList rest)
    | 'f' :: rest => do return (.bool false, ← skipWord "alse".toList rest)
    | '"' :: rest => do
      let (t, rest) ← readText rest
      return (.text t, rest)
    | '[' :: rest =>
      match skipSpace rest with
      | ']' :: rest => some (.list [], rest)
      | _ => do
        let (items, rest) ← readItems fuel rest
        return (.list items, rest)
    | '{' :: rest =>
      match skipSpace rest with
      | '}' :: rest => some (.object [], rest)
      | _ => do
        let (fields, rest) ← readFields fuel rest
        return (.object fields, rest)
    | cs => do
      let (spelling, rest) ← readNumber cs
      return (.number spelling, rest)

/-- The values of a list up to its end. -/
def readItems : Nat → List Char → Option (List Json × List Char)
  | 0, _ => none
  | fuel + 1, cs => do
    let (item, rest) ← readValue fuel cs
    match skipSpace rest with
    | ',' :: rest =>
      let (items, rest) ← readItems fuel rest
      return (item :: items, rest)
    | ']' :: rest => return ([item], rest)
    | _ => none

/-- The fields of an object up to its end. -/
def readFields : Nat → List Char → Option (List (JsonText × Json) × List Char)
  | 0, _ => none
  | fuel + 1, cs =>
    match skipSpace cs with
    | '"' :: rest => do
      let (key, rest) ← readText rest
      match skipSpace rest with
      | ':' :: rest =>
        let (value, rest) ← readValue fuel rest
        match skipSpace rest with
        | ',' :: rest =>
          let (fields, rest) ← readFields fuel rest
          return ((key, value) :: fields, rest)
        | '}' :: rest => return ([(key, value)], rest)
        | _ => none
      | _ => none
    | _ => none

end

/-- Reads a document: one value and nothing else. -/
def parse (s : String) : Option Json := do
  let cs := s.toList
  let (value, rest) ← readValue (2 * cs.length + 1) cs
  if (skipSpace rest).isEmpty then return value else none

end ChunkDirectory.Json
