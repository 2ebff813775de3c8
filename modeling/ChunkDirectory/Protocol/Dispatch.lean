import ChunkDirectory.Protocol.Client
import ChunkDirectory.Protocol.Query
import ChunkDirectory.Protocol.Upkeep
import ChunkDirectory.Wire.Message

/-!
# Dispatch

What a node does on each message, what its background work consists of, and what its routines do.
-/

namespace ChunkDirectory

namespace Protocol

/-- The answer to an answer that nobody waits for. -/
def unsupported : Message := .error "Unsupported message type"

/-- Handles a message and gives the reply. -/
def handleMessage (sender : NodeId) (message : Message) : Task Message := do
  match message.mutation? with
  | some (.ok m, isBackup) => return .status (← mutate m isBackup)
  | some (.error outcome, _) => return .status outcome
  | none =>
    let n ← Task.node
    match message with
    | .join node isSuperpeer => handleJoin node isSuperpeer
    | .lookup chunk => return n.lookup chunk
    | .getBackupRanges node => return n.backupRanges node
    | .getChunkId id => return n.chunkOf id
    | .getMappingCount => return n.mappingCount
    | .askAboutSuccessor => return n.successorAnswer
    | .askAboutBackups known => return n.missingBackups known
    | .notifyAboutNewPredecessor node =>
      Task.modify (·.noticePredecessor node)
      return .ack
    | .notifyAboutNewSuccessor node =>
      Task.modify (·.noticeSuccessor node)
      return .ack
    | .pingSuperpeer => return .ack
    | .searchForPeer => return .foundPeer (← Task.choose n.ring.peers.toList)
    | .promotePeer snapshot replacement => handlePromotePeer snapshot replacement
    | .delegatePromotePeer hops =>
      Task.spawn (.promoteForOther hops)
      return .ack
    | .notifyAboutFailedPeer failed =>
      Task.modify (·.noticeFailedPeer failed)
      return .ack
    | .startRecovery failed range =>
      let _ ← Task.ask (.recover failed range)
      return .ack
    | .sendBackups trees mappings =>
      Task.modify (·.store trees mappings)
      return .ack
    | .sendSuperpeers superpeers =>
      Task.modify (·.noticeSuperpeers sender superpeers)
      return .ack
    | _ => return unsupported

/-- Handles a message as it arrives from the network and gives the reply as it is sent, `none` if
the bytes are not a message. -/
def handleBytes (bytes : List UInt8) : Task (Option (List UInt8)) := do
  match Wire.decodeEnvelope bytes with
  | none => return none
  | some envelope =>
    return some (Wire.encodeMessage (← handleMessage envelope.sender envelope.message))

end Protocol

/-- What background work consists of. -/
def Background.task : Background → Task Unit
  | .handleFailure failed => Task.failureHandling failed
  | .promoteForOther hops => Protocol.delegatedPromotion hops

/-- What a routine does. -/
def Routine.task : (r : Routine) → Task r.Result
  | .drainQueue => Protocol.drainQueue
  | .processFailures => Protocol.processFailures
  | .drainFailures => Protocol.drainFailures
  | .inquire q => Protocol.inquire q
  | .join attempt => Protocol.attemptJoin attempt

end ChunkDirectory
