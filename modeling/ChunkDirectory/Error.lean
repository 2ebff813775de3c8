import ChunkDirectory.Message.Text

/-!
# Errors

The causes for which calls, directory operations and promotions fail, and their wording.
-/

namespace ChunkDirectory

/-- Why there is no connection to a node, or none that is of use. -/
inductive Obstacle where
  | noAddress
  /-- Too many connections to the node are open. -/
  | connectionLimit
  /-- No connection could be made. -/
  | refused
  /-- The connection broke while it was in use. -/
  | reset
  /-- The connection was closed without an answer. -/
  | endOfFile
  /-- The answer is not a message. -/
  | malformedReply
deriving DecidableEq

def Obstacle.text : Obstacle → String
  | .noAddress => "no address known"
  | .connectionLimit => "connection limit exceeded"
  | .refused => "connection refused"
  | .reset => "connection reset"
  | .endOfFile => "unexpected end of file"
  | .malformedReply => "malformed reply"

/-- Why a message could not be delivered. -/
inductive NetError where
  | unreachable (node : NodeId) (obstacle : Obstacle)
  /-- The node did not answer in time. -/
  | timeout (node : NodeId)
deriving DecidableEq

def NetError.message : NetError → String
  | .unreachable node obstacle => "node " ++ node.text ++ " is unreachable: " ++ obstacle.text
  | .timeout node => "request to node " ++ node.text ++ " timed out"

/-- The operations that are repeated until the overlay answers. -/
inductive Operation where
  | join
  | get
  | getAllBackupRanges
  | updateAllAfterRecovery
  | initRange
  | migrate
  | migrateRange
  | remove
  | insertId
  | getChunkId
deriving DecidableEq

def Operation.name : Operation → String
  | .join => "join"
  | .get => "get"
  | .getAllBackupRanges => "get_all_backup_ranges"
  | .updateAllAfterRecovery => "update_all_after_recovery"
  | .initRange => "init_range"
  | .migrate => "migrate"
  | .migrateRange => "migrate_range"
  | .remove => "remove"
  | .insertId => "insert_id"
  | .getChunkId => "get_chunk_id"

/-- Why a directory operation failed. -/
inductive LookupError where
  /-- The configured contact is no superpeer. Another attempt would not help. -/
  | bootstrapNotSuperpeer (node : NodeId)
  | noSuperpeer
  | retriesExhausted (operation : Operation) (attempts : Nat)
  | creatorMismatch (start stop : ChunkId)
  | unexpectedResponse (operation : Operation) (response : Message)
deriving DecidableEq

/-- The name of an error in reports. -/
def LookupError.kind : LookupError → String
  | .bootstrapNotSuperpeer _ => "BootstrapNotSuperpeer"
  | .noSuperpeer => "NoSuperpeer"
  | .retriesExhausted .. => "RetriesExhausted"
  | .creatorMismatch .. => "CreatorMismatch"
  | .unexpectedResponse .. => "UnexpectedResponse"

/-- A chunk identifier in hexadecimal. -/
def ChunkId.hex (chunk : ChunkId) : String :=
  "0x" ++ String.ofList (Nat.toDigits 16 chunk.bits.toNat)

def LookupError.message : LookupError → String
  | .bootstrapNotSuperpeer node => "bootstrap node " ++ node.text ++ " is not a superpeer"
  | .noSuperpeer => "no superpeer is known"
  | .retriesExhausted operation attempts =>
    operation.name ++ " gave up after " ++ toString attempts ++ " attempts"
  | .creatorMismatch start stop =>
    "chunks " ++ start.hex ++ " and " ++ stop.hex ++ " have different creators"
  | .unexpectedResponse operation response =>
    "unexpected response to " ++ operation.name ++ ": " ++ response.text

/-- Why an attempt at a promotion made no new superpeer. -/
inductive PromotionError where
  /-- Another promotion by the same superpeer is still running. -/
  | busy
  /-- The candidate did not answer and is queued as failed. -/
  | peerUnavailable
  /-- No peer is left to take over the candidate's objects. -/
  | noReplacement
  /-- The candidate stays a peer. -/
  | rejected
deriving DecidableEq

/-- The name of an error in reports. -/
def PromotionError.kind : PromotionError → String
  | .busy => "Busy"
  | .peerUnavailable => "PeerUnavailable"
  | .noReplacement => "NoReplacement"
  | .rejected => "Rejected"

def PromotionError.message : PromotionError → String
  | .busy => "another promotion is in progress"
  | .peerUnavailable => "candidate peer is unreachable"
  | .noReplacement => "no replacement peer available"
  | .rejected => "candidate rejected the promotion"

end ChunkDirectory
