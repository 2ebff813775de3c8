import ChunkDirectory.Config.Basic
import ChunkDirectory.Text.Number

/-!
# Configuration from environment variables

Each variable overrides one default; the contact defaults to the node itself. Numbers may have white
space around them. The address book is a list of entries `id=address` separated by commas, in which
blank entries are skipped and an address ends where the entry does.
-/

namespace ChunkDirectory.Config

/-- Reads a number below `bound`, with white space around it. -/
def readValue (key : String) (bound : Nat) (value : List Char) : Except ConfigError Nat :=
  match Text.readNumber 10 bound (Text.trim value) with
  | some n => .ok n
  | none => .error (.invalidValue key (String.ofList value))

/-- The parts of a text between separators. -/
def splitAt (separator : Char) : List Char → List (List Char)
  | [] => [[]]
  | c :: rest =>
    if c = separator then [] :: splitAt separator rest
    else
      match splitAt separator rest with
      | part :: parts => (c :: part) :: parts
      | [] => [[c]]

def addressesKey : String := "PEER_ADDRESSES"

/-- Reads `id=address`; the first equals sign counts. -/
def readAddress (entry : List Char) : Except ConfigError NodeAddress :=
  match entry.dropWhile (· ≠ '=') with
  | [] => .error (.invalidValue addressesKey (String.ofList entry))
  | _ :: address => do
    let id ← readValue addressesKey 65536 (entry.takeWhile (· ≠ '='))
    return ⟨.ofNat id, String.ofList (Text.trim address)⟩

/-- Reads an address book. -/
def readAddresses (value : String) : Except ConfigError (List NodeAddress) :=
  (((splitAt ',' value.toList).map Text.trim).filter fun entry => !entry.isEmpty).mapM readAddress

/-- A letter of the English alphabet in lower case. -/
def lower (c : Char) : Char :=
  if 'A' ≤ c ∧ c ≤ 'Z' then Char.ofNat (c.toNat + 32) else c

def readRole (value : String) : Except ConfigError StartRole :=
  match StartRole.ofName? (String.ofList (value.toList.map lower)) with
  | some role => .ok role
  | none => .error (.invalidValue "NODE_ROLE" value)

/-- The value of a variable, read, or what stands for it when it is not set. -/
def setting {α : Type} (lookup : String → Option String) (key : String)
    (read : String → Except ConfigError α) (unset : α) : Except ConfigError α :=
  match lookup key with
  | some value => read value
  | none => .ok unset

/-- Builds the configuration from environment variables. The first variable that cannot be read
decides the error; the whole is checked last. -/
def ofEnvironment (lookup : String → Option String) : Except ConfigError Config := do
  let number (key : String) (bound : Nat) (value : String) : Except ConfigError Nat :=
    readValue key bound value.toList
  let base := Config.default
  let nodeId ← setting lookup "NODE_ID"
    (fun v => return .ofNat (← number "NODE_ID" 65536 v)) base.nodeId
  let bootstrap ← setting lookup "BOOTSTRAP_ID"
    (fun v => return .ofNat (← number "BOOTSTRAP_ID" 65536 v)) nodeId
  let role ← setting lookup "NODE_ROLE" readRole base.role
  let expectedSuperpeers ← setting lookup "EXPECTED_SUPERPEERS"
    (number "EXPECTED_SUPERPEERS" UInt64.size) base.expectedSuperpeers
  let sleepInterval ← setting lookup "SLEEP_INTERVAL"
    (fun v => return .ofMillis (← number "SLEEP_INTERVAL" UInt64.size v)) base.sleepInterval
  let bindAddress ← setting lookup "BIND_ADDRESS" .ok base.bindAddress
  let apiPort ← setting lookup "API_PORT"
    (fun v => return some (← number "API_PORT" 65536 v)) base.apiPort
  let nodes ← setting lookup addressesKey readAddresses base.nodes
  validate { base with
    nodeId, role, bootstrap, expectedSuperpeers, sleepInterval, bindAddress, apiPort, nodes }

end ChunkDirectory.Config
