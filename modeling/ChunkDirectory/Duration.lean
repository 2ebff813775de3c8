import ChunkDirectory.Text.Blank

/-!
# Durations

Spans of time in whole nanoseconds and the notation people write them in: items of a number and a
unit, such as `1h 30m`. The number may have a fraction, as long as the item comes to whole
nanoseconds, or whole seconds for units of an hour and above. A month is a twelfth of a year of
365.25 days, rounded to 30.44 days. White space may stand between items and inside them, and a bare
`0` needs no unit. Seconds are limited to 64 bits, as is every number that is multiplied out on the
way.

Written out, a duration names the largest units first and leaves out those that are zero.
-/

namespace ChunkDirectory

/-- A span of time. -/
structure Duration where
  nanos : Nat
deriving DecidableEq, Inhabited

namespace Duration

def nanosPerSecond : Nat := 1000000000

def ofMillis (n : Nat) : Duration := ⟨n * 1000000⟩

def ofSeconds (n : Nat) : Duration := ⟨n * nanosPerSecond⟩

/-- The bound of a 64-bit number. -/
def bound : Nat := UInt64.size

/-- A number if it fits into 64 bits. -/
def fits (n : Nat) : Option Nat := if n < bound then some n else none

/-- What a unit is worth: nanoseconds for units below a second, otherwise seconds. -/
inductive Worth where
  | nanos (n : Nat)
  | seconds (n : Nat)
deriving DecidableEq

/-- The units and their spellings. -/
def units : List (List String × Worth) :=
  [(["nanos", "nsec", "ns"], .nanos 1),
    (["usec", "us", "µs"], .nanos 1000),
    (["millis", "msec", "ms"], .nanos 1000000),
    (["seconds", "second", "secs", "sec", "s"], .seconds 1),
    (["minutes", "minute", "mins", "min", "m"], .seconds 60),
    (["hours", "hour", "hrs", "hr", "h"], .seconds 3600),
    (["days", "day", "d"], .seconds 86400),
    (["weeks", "week", "wks", "wk", "w"], .seconds 604800),
    (["months", "month", "M"], .seconds 2630016),
    (["years", "year", "yrs", "yr", "y"], .seconds 31557600)]

def unit? (name : String) : Option Worth := (units.find? fun u => u.1.contains name).map (·.2)

/-- Adds seconds and nanoseconds. -/
def add (d : Duration) (seconds nanos : Nat) : Option Duration := do
  let nanos ← fits (d.nanos % nanosPerSecond + nanos)
  let _ ← fits (d.nanos / nanosPerSecond + seconds + nanos / nanosPerSecond)
  return ⟨d.nanos / nanosPerSecond * nanosPerSecond + seconds * nanosPerSecond + nanos⟩

/-- `n` units. -/
def addWhole (d : Duration) (unit : Worth) (n : Nat) : Option Duration := do
  match unit with
  | .nanos w => d.add 0 (← fits (n * w))
  | .seconds w => d.add (← fits (n * w)) 0

/-- A quotient without remainder. -/
def exactly (n divisor : Nat) : Option Nat := if n % divisor = 0 then some (n / divisor) else none

/-- The part `numerator / 10 ^ places` of a unit. Up to a minute it has to come to nanoseconds,
above to seconds; a nanosecond has no parts. -/
def addPart (d : Duration) (unit : Worth) (numerator places : Nat) : Option Duration := do
  let part (w : Nat) : Option Nat := do exactly (← fits (numerator * w)) (Nat.pow 10 places)
  match unit with
  | .nanos w => if w = 1 then none else d.add 0 (← part w)
  | .seconds w =>
    if w ≤ 60 then d.add 0 (← part (w * nanosPerSecond)) else d.add (← part w) 0

/-- The letters of unit names. -/
def isUnitLetter (c : Char) : Bool := c.isAlpha || c = 'µ'

def digit (c : Char) : Nat := c.toNat - '0'.toNat

/-- What is being read: a number, its fraction with the digits so far, or a unit whose letters so far
come in reverse. -/
inductive Reading where
  | between
  | number (n : Nat)
  | fraction (n numerator places : Nat)
  | unit (n : Nat) (part : Option (Nat × Nat)) (letters : List Char)

/-- Adds a finished item. -/
def finish (d : Duration) (n : Nat) (part : Option (Nat × Nat)) (letters : List Char) :
    Option Duration := do
  let unit ← unit? (String.ofList letters.reverse)
  let d ← d.addWhole unit n
  match part with
  | some (numerator, places) => d.addPart unit numerator places
  | none => return d

/-- Goes on with a text after items that come to `d`. -/
def readItems (d : Duration) : Reading → List Char → Option Duration
  | .between, [] => some d
  | .unit n part letters, [] => finish d n part letters
  | _, [] => none
  | .between, c :: rest =>
    if c.isDigit then readItems d (.number (digit c)) rest
    else if Text.isBlank c then readItems d .between rest
    else none
  | .number n, c :: rest =>
    if c.isDigit then
      match fits (10 * n + digit c) with
      | some n => readItems d (.number n) rest
      | none => none
    else if Text.isBlank c then readItems d (.number n) rest
    else if isUnitLetter c then readItems d (.unit n none [c]) rest
    else if c = '.' then readItems d (.fraction n 0 0) rest
    else none
  | .fraction n numerator places, c :: rest =>
    if c.isDigit then
      match fits (10 * numerator + digit c), fits (Nat.pow 10 (places + 1)) with
      | some numerator, some _ => readItems d (.fraction n numerator (places + 1)) rest
      | _, _ => none
    else if Text.isBlank c then readItems d (.fraction n numerator places) rest
    else if isUnitLetter c && places ≠ 0 then
      readItems d (.unit n (some (numerator, places)) [c]) rest
    else none
  | .unit n part letters, c :: rest =>
    if isUnitLetter c then readItems d (.unit n part (c :: letters)) rest
    else if c.isDigit then
      match finish d n part letters with
      | some d => readItems d (.number (digit c)) rest
      | none => none
    else if Text.isBlank c then
      match finish d n part letters with
      | some d => readItems d .between rest
      | none => none
    else none

/-- Reads a duration. -/
def parse (s : String) : Option Duration :=
  if s = "0" then some ⟨0⟩
  else if s.toList.all Text.isBlank then none
  else readItems ⟨0⟩ .between s.toList

/-- A count with its unit, nothing for zero. -/
def item (n : Nat) (unit : String) : List String := if n = 0 then [] else [toString n ++ unit]

/-- A count with a unit whose name has a plural. -/
def itemPlural (n : Nat) (unit : String) : List String := item n (if n = 1 then unit else unit ++ "s")

/-- Writes a duration. -/
def text (d : Duration) : String :=
  if d.nanos = 0 then "0s"
  else
    let seconds := d.nanos / nanosPerSecond
    let nanos := d.nanos % nanosPerSecond
    let yearRest := seconds % 31557600
    let monthRest := yearRest % 2630016
    let dayRest := monthRest % 86400
    " ".intercalate <|
      itemPlural (seconds / 31557600) "year" ++ itemPlural (yearRest / 2630016) "month"
        ++ itemPlural (monthRest / 86400) "day" ++ item (dayRest / 3600) "h"
        ++ item (dayRest % 3600 / 60) "m" ++ item (dayRest % 60) "s"
        ++ item (nanos / 1000000) "ms" ++ item (nanos / 1000 % 1000) "us" ++ item (nanos % 1000) "ns"

end Duration

end ChunkDirectory
