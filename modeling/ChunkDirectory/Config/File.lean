import ChunkDirectory.Config.Basic
import ChunkDirectory.Json.Reader

/-!
# Configuration from a JSON file

A configuration is an object of named fields, or the list of its fields in declaration order. In an
object a field may stand once, unknown fields are ignored, and fields that have a default or may be
absent may be left out; in a list only fields with a default may be left out, at the end, and
nothing may follow. A number is a natural number without fraction or exponent.
-/

namespace ChunkDirectory.Config

/-- Reads a JSON value as a value of another type. -/
abbrev JsonReader (α : Type) := Json → Option α

/-- What stands for a missing field. -/
inductive Missing (α : Type) where
  /-- The field is required. -/
  | refused
  /-- The field may be left out of an object. -/
  | inObject (value : α)
  /-- The field has a default, also at the end of a list. -/
  | anywhere (value : α)

namespace Missing

/-- What a field missing from an object stands for. -/
def object? {α : Type} : Missing α → Option α
  | .refused => none
  | .inObject value => some value
  | .anywhere value => some value

/-- What a field missing from the end of a list stands for. -/
def list? {α : Type} : Missing α → Option α
  | .anywhere value => some value
  | _ => none

end Missing

/-- The fields of an object or a list, each found by its name and its place. -/
inductive Fields where
  | named (fields : List (String × Json))
  | placed (items : List Json)

namespace Fields

/-- The fields of a value whose fields have these names in this order. -/
def ofJson (names : List String) : Json → Option Fields
  | .object fields => do
    let fields ← fields.mapM fun (key, value) => do return (← key.toString?, value)
    let known := (fields.map (·.1)).filter names.contains
    if known.Nodup then return .named fields else none
  | .list items => if items.length ≤ names.length then some (.placed items) else none
  | _ => none

/-- The field with a name and a place. -/
def get {α : Type} (fields : Fields) (name : String) (place : Nat) (read : JsonReader α)
    (missing : Missing α) : Option α :=
  match fields with
  | .named fields =>
    match fields.find? fun f => f.1 = name with
    | some (_, value) => read value
    | none => missing.object?
  | .placed items =>
    match items[place]? with
    | some value => read value
    | none => missing.list?

end Fields

/-- Reads a natural number below `bound`. -/
def readNat (bound : Nat) : JsonReader Nat
  | .number spelling =>
    if spelling.all Char.isDigit then
      (some (Nat.ofDigitChars 10 spelling 0)).filter (· < bound)
    else none
  | _ => none

def readText : JsonReader String
  | .text t => t.toString?
  | _ => none

/-- Reads a value that may be null. -/
def readOption {α : Type} (read : JsonReader α) : JsonReader (Option α)
  | .null => some none
  | value => (read value).map some

def readList {α : Type} (read : JsonReader α) : JsonReader (List α)
  | .list items => items.mapM read
  | _ => none

def readNodeId : JsonReader NodeId := fun j => (readNat 65536 j).map .ofNat

def readDuration : JsonReader Duration := fun j => (readText j).bind Duration.parse

/-- A role is its name, or an object with its name as the only field, which is null. -/
def readStartRole : JsonReader StartRole
  | .object [(key, .null)] => key.toString?.bind StartRole.ofName?
  | j => (readText j).bind StartRole.ofName?

def readRetry : JsonReader RetryPolicy := fun j => do
  let fields ← Fields.ofJson ["interval", "max_attempts"] j
  return {
    interval := ← fields.get "interval" 0 readDuration .refused
    maxAttempts := ← fields.get "max_attempts" 1 (readOption (readNat UInt32.size)) (.inObject none) }

def readNode : JsonReader NodeAddress := fun j => do
  let fields ← Fields.ofJson ["id", "address"] j
  return {
    id := ← fields.get "id" 0 readNodeId .refused
    address := ← fields.get "address" 1 readText .refused }

/-- The names of the fields in declaration order. -/
def fieldNames : List String :=
  ["node_id", "role", "bootstrap", "expected_superpeers", "sleep_interval", "retry",
    "unstable_ticks_before_promotion", "bind_address", "api_port", "nodes"]

def readConfig : JsonReader Config := fun j => do
  let fields ← Fields.ofJson fieldNames j
  return {
    nodeId := ← fields.get "node_id" 0 readNodeId .refused
    role := ← fields.get "role" 1 readStartRole .refused
    bootstrap := ← fields.get "bootstrap" 2 readNodeId .refused
    expectedSuperpeers := ← fields.get "expected_superpeers" 3 (readNat UInt64.size) .refused
    sleepInterval := ← fields.get "sleep_interval" 4 readDuration .refused
    retry := ← fields.get "retry" 5 readRetry (.anywhere .default)
    unstableTicksBeforePromotion :=
      ← fields.get "unstable_ticks_before_promotion" 6 (readOption (readNat UInt32.size))
        (.anywhere none)
    bindAddress := ← fields.get "bind_address" 7 readText .refused
    apiPort := ← fields.get "api_port" 8 (readOption (readNat 65536)) (.anywhere none)
    nodes := ← fields.get "nodes" 9 (readList readNode) (.anywhere []) }

/-- Reads the text of a configuration file, `none` if there is no such file, and checks it. -/
def ofFile (text : Option String) : Except ConfigError Config :=
  match text with
  | none => .error .unreadable
  | some text =>
    match (Json.parse text).bind readConfig with
    | some config => validate config
    | none => .error .malformed

end ChunkDirectory.Config
