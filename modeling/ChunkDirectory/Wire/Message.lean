import ChunkDirectory.Message
import ChunkDirectory.Wire.Codec

/-!
# Messages on the wire

A message is the number of its variant in four bytes, then its fields in order. Whatever follows a
complete message is ignored.
-/

namespace ChunkDirectory.Wire

namespace Codec

def nodeId : Codec NodeId := word16.via NodeId.val NodeId.mk

def chunkId : Codec ChunkId := word64.via ChunkId.bits ChunkId.mk

def applicationId : Codec ApplicationId := word32.via ApplicationId.val ApplicationId.mk

def backupPeers : Codec BackupPeers := (list nodeId).via BackupPeers.toList BackupPeers.mk

def rangeStart : Codec RangeStart where
  write
    | .created first => word32.write 0 ++ chunkId.write first
    | .migration batch => word32.write 1 ++ word32.write batch
  read := do
    match ← word32.read with
    | 0 => return .created (← chunkId.read)
    | 1 => return .migration (← word32.read)
    | _ => .fail

def backupRange : Codec BackupRange :=
  (pair rangeStart backupPeers).via (fun r => (r.start, r.backups)) fun (start, backups) =>
    ⟨start, backups⟩

def locations : Codec Locations :=
  (pair nodeId (pair backupPeers (pair chunkId chunkId))).via
    (fun l => (l.primary, l.backups, l.first, l.last))
    fun (primary, backups, first, last) => ⟨primary, backups, first, last⟩

def tree : Codec LookupTree :=
  (pair nodeId (pair bool (pair (map word64 (option nodeId))
      (pair (map word64 backupPeers) (map word32 backupPeers))))).via
    (fun t => (t.creator, t.alive, t.owners, t.backupRanges, t.migrationRanges))
    fun (creator, alive, owners, backupRanges, migrationRanges) =>
      ⟨creator, alive, owners, backupRanges, migrationRanges⟩

def mappings : Codec (List (ApplicationId × ChunkId)) := list (pair applicationId chunkId)

def snapshot : Codec Snapshot :=
  (pair (option nodeId) (pair (option nodeId) (pair (list nodeId) (pair (list nodeId)
      (pair (list tree) mappings))))).via
    (fun s => (s.predecessor, s.successor, s.superpeers, s.peers, s.trees, s.mappings))
    fun (predecessor, successor, superpeers, peers, trees, mappings) =>
      ⟨predecessor, successor, superpeers, peers, trees, mappings⟩

/-- An outcome is the number of its variant. -/
def requestStatus : Codec RequestStatus where
  write s := word32.write <|
    match s with
    | .applied => 0
    | .notResponsible => 1
    | .uninitialized => 2
    | .invalidRequest => 3
    | .notSuperpeer => 4
  read := do
    match ← word32.read with
    | 0 => return .applied
    | 1 => return .notResponsible
    | 2 => return .uninitialized
    | 3 => return .invalidRequest
    | 4 => return .notSuperpeer
    | _ => .fail

end Codec

open Codec

/-- The number of a message's variant. -/
def variant : Message → UInt32
  | .join .. => 0
  | .joinRedirect .. => 1
  | .joinAccepted .. => 2
  | .joinAcceptedPeer .. => 3
  | .lookup .. => 4
  | .lookupResult .. => 5
  | .getBackupRanges .. => 6
  | .backupRanges .. => 7
  | .updateAll .. => 8
  | .initRange .. => 9
  | .migrate .. => 10
  | .migrateRange .. => 11
  | .remove .. => 12
  | .insertId .. => 13
  | .status .. => 14
  | .getChunkId .. => 15
  | .chunkIdResult .. => 16
  | .getMappingCount => 17
  | .mappingCount .. => 18
  | .askAboutSuccessor => 19
  | .successorIs .. => 20
  | .askAboutBackups .. => 21
  | .backups .. => 22
  | .notifyAboutNewPredecessor .. => 23
  | .notifyAboutNewSuccessor .. => 24
  | .pingSuperpeer => 25
  | .searchForPeer => 26
  | .foundPeer .. => 27
  | .promotePeer .. => 28
  | .promotionResult .. => 29
  | .delegatePromotePeer .. => 30
  | .notifyAboutFailedPeer .. => 31
  | .startRecovery .. => 32
  | .sendBackups .. => 33
  | .sendSuperpeers .. => 34
  | .ack => 35
  | .error .. => 36

/-- The bytes of a message's fields. -/
def writeFields : Message → List UInt8
  | .join node isSuperpeer => (pair nodeId bool).write (node, isSuperpeer)
  | .joinRedirect contact => nodeId.write contact
  | .joinAccepted s => snapshot.write s
  | .joinAcceptedPeer superpeers => (list nodeId).write superpeers
  | .lookup chunk => chunkId.write chunk
  | .lookupResult l => (option locations).write l
  | .getBackupRanges node => nodeId.write node
  | .backupRanges ranges => (option (list backupRange)).write ranges
  | .updateAll owner restorer isBackup =>
    (pair nodeId (pair nodeId bool)).write (owner, restorer, isBackup)
  | .initRange start owner backups isBackup =>
    (pair rangeStart (pair nodeId (pair backupPeers bool))).write (start, owner, backups, isBackup)
  | .migrate chunk node isBackup =>
    (pair chunkId (pair nodeId bool)).write (chunk, node, isBackup)
  | .migrateRange start stop node isBackup =>
    (pair chunkId (pair chunkId (pair nodeId bool))).write (start, stop, node, isBackup)
  | .remove chunks isBackup => (pair (list chunkId) bool).write (chunks, isBackup)
  | .insertId id chunk isBackup =>
    (pair applicationId (pair chunkId bool)).write (id, chunk, isBackup)
  | .status s => requestStatus.write s
  | .getChunkId id => applicationId.write id
  | .chunkIdResult chunk => (option chunkId).write chunk
  | .getMappingCount => []
  | .mappingCount count => word64.write count
  | .askAboutSuccessor => []
  | .successorIs successor => (option nodeId).write successor
  | .askAboutBackups known => (list (pair nodeId word64)).write known
  | .backups trees ms => (pair (list tree) mappings).write (trees, ms)
  | .notifyAboutNewPredecessor node => nodeId.write node
  | .notifyAboutNewSuccessor node => nodeId.write node
  | .pingSuperpeer => []
  | .searchForPeer => []
  | .foundPeer peer => (option nodeId).write peer
  | .promotePeer s replacement => (pair snapshot nodeId).write (s, replacement)
  | .promotionResult success => bool.write success
  | .delegatePromotePeer hops => word16.write hops
  | .notifyAboutFailedPeer failed => nodeId.write failed
  | .startRecovery failed range => (pair nodeId rangeStart).write (failed, range)
  | .sendBackups trees ms => (pair (list tree) mappings).write (trees, ms)
  | .sendSuperpeers superpeers => (list nodeId).write superpeers
  | .ack => []
  | .error message => text.write message

/-- Reads the fields of the variant with the given number. -/
def readFields (variant : UInt32) : Reader Message :=
  match variant with
  | 0 => do
    let (node, isSuperpeer) ← (pair nodeId bool).read
    return .join node isSuperpeer
  | 1 => do return .joinRedirect (← nodeId.read)
  | 2 => do return .joinAccepted (← snapshot.read)
  | 3 => do return .joinAcceptedPeer (← (list nodeId).read)
  | 4 => do return .lookup (← chunkId.read)
  | 5 => do return .lookupResult (← (option locations).read)
  | 6 => do return .getBackupRanges (← nodeId.read)
  | 7 => do return .backupRanges (← (option (list backupRange)).read)
  | 8 => do
    let (owner, restorer, isBackup) ← (pair nodeId (pair nodeId bool)).read
    return .updateAll owner restorer isBackup
  | 9 => do
    let (start, owner, backups, isBackup) ←
      (pair rangeStart (pair nodeId (pair backupPeers bool))).read
    return .initRange start owner backups isBackup
  | 10 => do
    let (chunk, node, isBackup) ← (pair chunkId (pair nodeId bool)).read
    return .migrate chunk node isBackup
  | 11 => do
    let (start, stop, node, isBackup) ← (pair chunkId (pair chunkId (pair nodeId bool))).read
    return .migrateRange start stop node isBackup
  | 12 => do
    let (chunks, isBackup) ← (pair (list chunkId) bool).read
    return .remove chunks isBackup
  | 13 => do
    let (id, chunk, isBackup) ← (pair applicationId (pair chunkId bool)).read
    return .insertId id chunk isBackup
  | 14 => do return .status (← requestStatus.read)
  | 15 => do return .getChunkId (← applicationId.read)
  | 16 => do return .chunkIdResult (← (option chunkId).read)
  | 17 => return .getMappingCount
  | 18 => do return .mappingCount (← word64.read)
  | 19 => return .askAboutSuccessor
  | 20 => do return .successorIs (← (option nodeId).read)
  | 21 => do return .askAboutBackups (← (list (pair nodeId word64)).read)
  | 22 => do
    let (trees, ms) ← (pair (list tree) mappings).read
    return .backups trees ms
  | 23 => do return .notifyAboutNewPredecessor (← nodeId.read)
  | 24 => do return .notifyAboutNewSuccessor (← nodeId.read)
  | 25 => return .pingSuperpeer
  | 26 => return .searchForPeer
  | 27 => do return .foundPeer (← (option nodeId).read)
  | 28 => do
    let (s, replacement) ← (pair snapshot nodeId).read
    return .promotePeer s replacement
  | 29 => do return .promotionResult (← bool.read)
  | 30 => do return .delegatePromotePeer (← word16.read)
  | 31 => do return .notifyAboutFailedPeer (← nodeId.read)
  | 32 => do
    let (failed, range) ← (pair nodeId rangeStart).read
    return .startRecovery failed range
  | 33 => do
    let (trees, ms) ← (pair (list tree) mappings).read
    return .sendBackups trees ms
  | 34 => do return .sendSuperpeers (← (list nodeId).read)
  | 35 => return .ack
  | 36 => do return .error (← text.read)
  | _ => .fail

/-- A message: its variant, then its fields. -/
def Codec.message : Codec Message where
  write m := word32.write (variant m) ++ writeFields m
  read := do readFields (← word32.read)

/-- An envelope: the sender, then the message. -/
def Codec.envelope : Codec Envelope :=
  (pair nodeId message).via (fun e => (e.sender, e.message)) fun (sender, message) =>
    ⟨sender, message⟩

/-- The bytes of a message. -/
def encodeMessage (m : Message) : List UInt8 := Codec.message.write m

/-- The message at the front of a byte string. -/
def decodeMessage (bytes : List UInt8) : Option Message := (Codec.message.read bytes).map (·.1)

/-- The bytes of an envelope. -/
def encodeEnvelope (e : Envelope) : List UInt8 := Codec.envelope.write e

/-- The envelope at the front of a byte string. -/
def decodeEnvelope (bytes : List UInt8) : Option Envelope :=
  (Codec.envelope.read bytes).map (·.1)

end ChunkDirectory.Wire
