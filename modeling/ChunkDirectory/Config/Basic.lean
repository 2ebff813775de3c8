import ChunkDirectory.Duration
import ChunkDirectory.SortedMap
import ChunkDirectory.Tree.Basic
import ChunkDirectory.Directory.TreeTable

/-!
# Node configuration

What a node is told before it starts: its identifier and role, whom to contact, how large the ring
is meant to be, how patient to be, and where other nodes live.
-/

namespace ChunkDirectory

/-- The role a node starts in. -/
inductive StartRole where
  | superpeer
  | peer
deriving DecidableEq

namespace StartRole

def name : StartRole → String
  | .superpeer => "superpeer"
  | .peer => "peer"

def ofName? (s : String) : Option StartRole :=
  if s = "superpeer" then some .superpeer else if s = "peer" then some .peer else none

end StartRole

/-- Where a node can be reached. -/
structure NodeAddress where
  id : NodeId
  address : String
deriving DecidableEq

/-- How often a request is repeated after its target turned out to be wrong or unreachable. -/
structure RetryPolicy where
  /-- The pause before another attempt. -/
  interval : Duration
  /-- The number of attempts, without limit if `none`. -/
  maxAttempts : Option Nat
deriving DecidableEq

namespace RetryPolicy

/-- A second between attempts, without end. -/
def default : RetryPolicy := ⟨.ofSeconds 1, none⟩

/-- Whether another attempt may follow `attempts` failed ones. -/
def allows (policy : RetryPolicy) (attempts : Nat) : Bool :=
  match policy.maxAttempts with
  | some limit => attempts < limit
  | none => true

end RetryPolicy

/-- Why a configuration is refused. -/
inductive ConfigError where
  | reservedNodeId (id : NodeId)
  | noSuperpeersExpected
  | invalidValue (key value : String)
  /-- The file cannot be read. -/
  | unreadable
  /-- The file's text is not a configuration. -/
  | malformed
deriving DecidableEq

/-- The name of an error in reports. -/
def ConfigError.kind : ConfigError → String
  | .reservedNodeId _ => "ReservedNodeId"
  | .noSuperpeersExpected => "NoSuperpeersExpected"
  | .invalidValue .. => "InvalidValue"
  | .unreadable => "Io"
  | .malformed => "Parse"

/-- The wording of an error; what is wrong with a file is left to the reader of the file. -/
def ConfigError.message : ConfigError → String
  | .reservedNodeId id => "node ID " ++ id.text ++ " is reserved"
  | .noSuperpeersExpected => "expected superpeer count must be at least 1"
  | .invalidValue key value => "invalid value for " ++ key ++ ": " ++ value
  | .unreadable => "failed to read configuration"
  | .malformed => "failed to parse configuration"

/-- The configuration of a node. -/
structure Config where
  nodeId : NodeId
  role : StartRole
  /-- The superpeer contacted first when joining. -/
  bootstrap : NodeId
  /-- How many superpeers the ring is meant to have. -/
  expectedSuperpeers : Nat
  /-- The pause between two rounds of upkeep. -/
  sleepInterval : Duration
  retry : RetryPolicy
  /-- How many rounds an incomplete ring is tolerated before a peer is promoted. -/
  unstableTicksBeforePromotion : Option Nat
  bindAddress : String
  apiPort : Option Nat
  /-- Every node that may take part. -/
  nodes : List NodeAddress
deriving DecidableEq

namespace Config

/-- The configuration of a single superpeer with identifier 0. -/
def default : Config where
  nodeId := ⟨0⟩
  role := .superpeer
  bootstrap := ⟨0⟩
  expectedSuperpeers := 1
  sleepInterval := .ofSeconds 1
  retry := .default
  unstableTicksBeforePromotion := none
  bindAddress := "127.0.0.1:8000"
  apiPort := none
  nodes := []

/-- Accepts a configuration whose identifiers can name nodes and whose ring has superpeers. -/
def validate (c : Config) : Except ConfigError Config :=
  if c.nodeId.isReserved then .error (.reservedNodeId c.nodeId)
  else if c.bootstrap.isReserved then .error (.reservedNodeId c.bootstrap)
  else if c.expectedSuperpeers = 0 then .error .noSuperpeersExpected
  else .ok c

/-- The rounds of upkeep before a promotion: as configured, else as many as superpeers are expected,
but at least 30 and at most 300. -/
def promotionThreshold (c : Config) : Nat :=
  c.unstableTicksBeforePromotion.getD (min 300 (max 30 c.expectedSuperpeers))

/-- Addresses by node; of several for a node the last one counts. -/
def addressBook (c : Config) : SortedMap NodeId String :=
  .ofList (c.nodes.map fun n => (n.id, n.address))

end Config

end ChunkDirectory
