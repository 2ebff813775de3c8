import ChunkDirectory.Tree.Basic

/-!
# Messages

Everything nodes say to each other: requests, their answers and one-way notices. The order of the
variants is part of the wire format, as is the order of the fields in each.
-/

namespace ChunkDirectory

/-- Ring position and metadata handed to a node that takes over a part of the ring. -/
structure Snapshot where
  predecessor : Option NodeId
  successor : Option NodeId
  superpeers : List NodeId
  peers : List NodeId
  trees : List LookupTree
  mappings : List (ApplicationId × ChunkId)
deriving DecidableEq

/-- Outcome of a request that carries no other payload. -/
inductive RequestStatus where
  | applied
  /-- The receiver does not own the key; the sender looks for the owner again. -/
  | notResponsible
  /-- The receiver owns the key but has no tree for it. -/
  | uninitialized
  | invalidRequest
  /-- Only superpeers answer the request. -/
  | notSuperpeer
deriving DecidableEq

/-- What travels between nodes. -/
inductive Message where
  /-- Asks to enter the overlay. -/
  | join (node : NodeId) (isSuperpeer : Bool)
  /-- The receiver of a join is not responsible and names another superpeer. -/
  | joinRedirect (contact : NodeId)
  /-- What a joining superpeer takes over. -/
  | joinAccepted (snapshot : Snapshot)
  /-- The superpeers a joining peer may use. -/
  | joinAcceptedPeer (superpeers : List NodeId)
  /-- Asks where a chunk lives. -/
  | lookup (chunk : ChunkId)
  | lookupResult (locations : Option Locations)
  /-- Asks for all backup ranges of a creator. -/
  | getBackupRanges (node : NodeId)
  | backupRanges (ranges : Option (List BackupRange))
  /-- `restorer` now holds everything `owner` held. -/
  | updateAll (owner restorer : NodeId) (isBackup : Bool)
  /-- Registers a backup range. -/
  | initRange (start : RangeStart) (owner : NodeId) (backups : BackupPeers) (isBackup : Bool)
  /-- Moves a chunk to another peer. -/
  | migrate (chunk : ChunkId) (node : NodeId) (isBackup : Bool)
  /-- Moves all chunks between two to another peer. -/
  | migrateRange (start stop : ChunkId) (node : NodeId) (isBackup : Bool)
  /-- Forgets chunks of one creator. -/
  | remove (chunks : List ChunkId) (isBackup : Bool)
  /-- Maps an application identifier to a chunk. -/
  | insertId (id : ApplicationId) (chunk : ChunkId) (isBackup : Bool)
  /-- The outcome of a mutation, or why a question could not be answered. -/
  | status (status : RequestStatus)
  | getChunkId (id : ApplicationId)
  | chunkIdResult (chunk : Option ChunkId)
  /-- Asks for the number of mappings the receiver is primary for. -/
  | getMappingCount
  | mappingCount (count : UInt64)
  | askAboutSuccessor
  | successorIs (successor : Option NodeId)
  /-- Asks for the primary trees that are missing or differ from the given digests. -/
  | askAboutBackups (known : List (NodeId × UInt64))
  | backups (trees : List LookupTree) (mappings : List (ApplicationId × ChunkId))
  /-- The sender may precede the receiver. -/
  | notifyAboutNewPredecessor (node : NodeId)
  /-- The sender may succeed the receiver. -/
  | notifyAboutNewSuccessor (node : NodeId)
  | pingSuperpeer
  /-- Asks for a spare peer to take over a promoted peer's objects. -/
  | searchForPeer
  | foundPeer (peer : Option NodeId)
  /-- Turns the receiving peer into a superpeer. -/
  | promotePeer (snapshot : Snapshot) (replacement : NodeId)
  | promotionResult (success : Bool)
  /-- Asks the receiver to promote one of its peers instead of the sender. -/
  | delegatePromotePeer (hops : UInt16)
  | notifyAboutFailedPeer (failed : NodeId)
  /-- Asks to rebuild the primary copies of a failed peer's range. -/
  | startRecovery (failed : NodeId) (range : RangeStart)
  /-- Copies pushed by another superpeer. -/
  | sendBackups (trees : List LookupTree) (mappings : List (ApplicationId × ChunkId))
  /-- The current superpeer list, pushed to peers. -/
  | sendSuperpeers (superpeers : List NodeId)
  | ack
  | error (message : String)
deriving DecidableEq

/-- A message with its sender, as it travels. -/
structure Envelope where
  sender : NodeId
  message : Message
deriving DecidableEq

end ChunkDirectory
