import ChunkDirectory.Protocol.Failure

/-!
# Directory operations

What a node offers to its storage layer. Every operation is a request to the superpeer responsible
for its key. When that superpeer turns out to be wrong or cannot be reached, the failure is handled,
the owner is looked up again with the help of other superpeers, and the request is repeated as the
retry policy allows.
-/

namespace ChunkDirectory.Protocol

/-- Follows the ring from `predecessor` to the superpeer that owns `id`, listing superpeers that were
unknown. `found` is the best answer so far and `rounds` the number of superpeers still asked. -/
def verifyOwner (id : NodeId) (found : NodeId) (predecessor : NodeId) : Nat → Task NodeId
  | 0 => return found
  | rounds + 1 => do
    match ← Task.call predecessor .askAboutSuccessor with
    | .ok (.successorIs (some successor)) =>
      if successor = found then return found
      else
        let n ← Task.node
        let alive ←
          if n.ring.superpeers.contains successor then pure true
          else do pure (← Task.call successor .pingSuperpeer).isOk
        if alive then
          Task.modifyRing (·.insertSuperpeer successor)
          if Arc.contains ⟨predecessor, successor, .upperClosed⟩ id then return successor
          else verifyOwner id found successor rounds
        else return found
    | .ok _ => return found
    | .error _ =>
      Task.failureHandling predecessor
      return found

/-- The superpeer responsible for `id`. With `verify` the answer of the local list is checked by
asking the superpeer before it, which knows about those that joined in between. -/
def resolve (id : NodeId) (verify : Bool) : Task (Option NodeId) := do
  let n ← Task.node
  if n.isPrimaryFor id then return some n.me
  else
    match n.ring.responsible id with
    | none => return none
    | some found =>
      if verify then
        match n.ring.previousBefore found with
        | none => return some found
        | some predecessor =>
          return some (← verifyOwner id found predecessor n.ring.superpeers.size)
      else return some found

/-- Sends a repeated request to its target and goes on as the answer demands. -/
def inquireAt (q : Inquiry) (target : NodeId) : Task (Except LookupError Message) := do
  match ← Task.call target q.message with
  | .ok (.status .notResponsible) => Task.routine (.inquire { q with verify := true })
  | .ok (.status .uninitialized) => Task.routine (.inquire { q with verify := true })
  | .ok (.status .notSuperpeer) => Task.routine (.inquire { q with verify := true })
  | .ok response => return .ok response
  | .error _ =>
    Task.failureHandling target
    Task.routine (.inquire { q with verify := true })

/-- Makes the next attempt of a repeated request. -/
def inquireOnce (q : Inquiry) : Task (Except LookupError Message) := do
  let q := { q with attempts := q.attempts + 1 }
  match ← resolve q.key q.verify with
  | none => Task.routine (.inquire { q with verify := true })
  | some target => inquireAt q target

/-- Makes the next attempt of a repeated request, if the policy allows it, after a pause unless it is
the first. -/
def inquire (q : Inquiry) : Task (Except LookupError Message) := do
  if q.attempts = 0 then inquireOnce q
  else
    let n ← Task.node
    if n.config.retry.allows q.attempts then
      let _ ← Task.ask (.pause n.config.retry.interval)
      inquireOnce q
    else return .error (.retriesExhausted q.operation q.attempts)

/-- Sends a message to whoever is responsible for `key` until a superpeer gives a definitive
answer. -/
def requestResponsible (operation : Operation) (key : NodeId) (message : Message) :
    Task (Except LookupError Message) := do
  let n ← Task.node
  Task.routine (.inquire { operation, key, message, verify := !n.isStable, attempts := 0 })

/-- Requests a mutation. -/
def requestMutation (operation : Operation) (m : Mutation) : Task (Except LookupError Unit) := do
  match ← requestResponsible operation m.key (m.message false) with
  | .ok (.status .applied) => return .ok ()
  | .ok other => return .error (.unexpectedResponse operation other)
  | .error e => return .error e

/-- Where a chunk lives, `none` if it is unknown or was removed. -/
def get (chunk : ChunkId) : Task (Except LookupError (Option Locations)) := do
  match ← requestResponsible .get chunk.creator (.lookup chunk) with
  | .ok (.lookupResult locations) => return .ok locations
  | .ok other => return .error (.unexpectedResponse .get other)
  | .error e => return .error e

/-- Every backup range registered by a node. -/
def getAllBackupRanges (node : NodeId) : Task (Except LookupError (List BackupRange)) := do
  match ← requestResponsible .getAllBackupRanges node (.getBackupRanges node) with
  | .ok (.backupRanges ranges) => return .ok (ranges.getD [])
  | .ok other => return .error (.unexpectedResponse .getAllBackupRanges other)
  | .error e => return .error e

/-- Records that this node now holds everything `owner` held. -/
def updateAllAfterRecovery (owner : NodeId) : Task (Except LookupError Unit) := do
  let n ← Task.node
  requestMutation .updateAllAfterRecovery (.updateAll owner n.me)

/-- Registers a backup range of `owner`. -/
def initRange (start : RangeStart) (owner : NodeId) (backups : BackupPeers) :
    Task (Except LookupError Unit) :=
  requestMutation .initRange (.initRange start owner backups)

/-- Moves a chunk to a node. -/
def migrate (chunk : ChunkId) (node : NodeId) : Task (Except LookupError Unit) :=
  requestMutation .migrate (.migrate chunk node)

/-- Moves the chunks between two of the same creator to a node. -/
def migrateRange (start stop : ChunkId) (node : NodeId) : Task (Except LookupError Unit) :=
  if start.creator = stop.creator then
    requestMutation .migrateRange (.migrateRange start stop node)
  else return .error (.creatorMismatch start stop)

/-- Chunks by creator, in their order. -/
def byCreator (chunks : List ChunkId) : SortedMap NodeId (List ChunkId) :=
  chunks.foldl
    (fun m chunk => m.insert chunk.creator ((m.get? chunk.creator).getD [] ++ [chunk])) ∅

/-- Forgets the chunks of each creator with a request of its own, up to the first that fails. -/
def removeGroups : List (List ChunkId) → Task (Except LookupError Unit)
  | [] => return .ok ()
  | [] :: rest => removeGroups rest
  | (first :: others) :: rest => do
    match ← requestMutation .remove (.remove first others) with
    | .ok () => removeGroups rest
    | .error e => return .error e

/-- Forgets chunks. -/
def remove (chunks : List ChunkId) : Task (Except LookupError Unit) :=
  removeGroups (byCreator chunks).values

/-- Maps an application identifier to a chunk. -/
def insertId (id : ApplicationId) (chunk : ChunkId) : Task (Except LookupError Unit) :=
  requestMutation .insertId (.insertId id chunk)

/-- The chunk an application identifier stands for. -/
def getChunkId (id : ApplicationId) : Task (Except LookupError (Option ChunkId)) := do
  match ← requestResponsible .getChunkId id.position (.getChunkId id) with
  | .ok (.chunkIdResult chunk) => return .ok chunk
  | .ok other => return .error (.unexpectedResponse .getChunkId other)
  | .error e => return .error e

/-- Adds up the mapping counts of superpeers; one that cannot be reached counts nothing. -/
def sumCounts (total : Nat) : List NodeId → Task Nat
  | [] => return total
  | superpeer :: rest => do
    match ← Task.call superpeer .getMappingCount with
    | .ok (.mappingCount count) => sumCounts (total + count.toNat) rest
    | .ok _ => sumCounts total rest
    | .error _ =>
      Task.failureHandling superpeer
      sumCounts total rest

/-- The number of mappings in the overlay. -/
def mappingCount : Task (Except LookupError Nat) := do
  let n ← Task.node
  let superpeers := n.ring.superpeers.toList ++ (if n.isSuperpeer then [n.me] else [])
  if superpeers.isEmpty then return .error .noSuperpeer
  else return .ok (← sumCounts 0 superpeers)

/-- Whether none of the given superpeers answers. -/
def allSilent : List NodeId → Task Bool
  | [] => return true
  | superpeer :: rest => do
    match ← Task.call superpeer .pingSuperpeer with
    | .ok _ => return false
    | .error _ => allSilent rest

/-- Whether this superpeer is the only one that can be reached; false on a peer. -/
def isLastSuperpeer : Task Bool := do
  let n ← Task.node
  if n.isSuperpeer then allSilent n.ring.superpeers.toList else return false

end ChunkDirectory.Protocol
