import ChunkDirectory.Protocol.Promotion
import ChunkDirectory.Protocol.Query

/-!
# Failures

Failed nodes are queued and handled one at a time. Failures found on the way are only queued, so
handling one never starts handling another.

When a superpeer fails, the one after it takes over its peers, and the copies of metadata that were
lost with it are made anew: the last superpeer that still holds what the failed one was first in
line for sends it one place further, and each superpeer that loses a copy of its own range sends it
to the next in line. When a peer fails it is struck from all backups, every superpeer is told, and
for each of its ranges one of the peers with copies is asked to rebuild it.
-/

namespace ChunkDirectory

namespace Node

/-- The living creators with trees that lie after the superpeer before `node`, up to `node`. -/
def livingCreators (n : Node) (node : NodeId) : List NodeId :=
  match n.directory? with
  | none => []
  | some d =>
    let start := (n.ring.previousBefore node).getD n.me
    (d.trees.creatorsWhere (Arc.contains ⟨start, node, .upperClosed⟩)).filter fun creator =>
      (d.trees.get? creator).any (·.alive)

/-- Lists the living creators before `node` as peers, unless they are superpeers. -/
def takeOverPeers (n : Node) (node : NodeId) : Node :=
  n.mapRing fun r =>
    (n.livingCreators node).foldl
      (fun r creator => if r.superpeers.contains creator then r else r.insertPeer creator) r

/-- A peer drops a failed superpeer, and attaches to the next responsible one if it was its own. -/
def loseSuperpeer (n : Node) (failed : NodeId) : Node :=
  let ring :=
    if n.ring.bootstrap = failed then
      n.ring.setBootstrap ((n.ring.nextAfter failed).getD n.me)
    else n.ring
  let ring := ring.removeSuperpeer failed
  let role :=
    match n.role with
    | .peer attached =>
      if attached = some failed then .peer (ring.responsible n.me) else .peer attached
    | .superpeer d => .superpeer d
  { n with ring, role }

/-- The message with the trees and mappings on an arc. -/
def copyOf (n : Node) (arc : Arc) : List LookupTree × List (ApplicationId × ChunkId) :=
  let d := n.directory?.getD .empty
  (d.trees.treesWhere arc.contains, d.mappings.entriesWhere arc.contains)

end Node

namespace Protocol

/-- Sends copies to the first of the given superpeers that can be reached. -/
def sendToFirst (copies : Message) : List NodeId → Task Unit
  | [] => return ()
  | target :: rest => do
    match ← Task.send target copies with
    | .ok () => return ()
    | .error _ =>
      Task.enqueue target
      sendToFirst copies rest

/-- The failed superpeer was the first one whose range this node keeps. Its range needs one more
holder down the ring. -/
def spreadDataOf (failed start : NodeId) : Task Unit := do
  let n ← Task.node
  let (trees, mappings) := n.copyOf ⟨start, failed, .upperClosed⟩
  if !n.isSuperpeer || (trees.isEmpty && mappings.isEmpty) then return ()
  else
    sendToFirst (.sendBackups trees mappings)
      ((n.ring.successorsAfter n.me).filter (· ≠ failed))

/-- One of the superpeers with copies of this node's range failed. The next in line needs a copy. -/
def spreadOwnBackups (failed last : NodeId) : Task Unit := do
  let n ← Task.node
  match n.primaryArea with
  | some (.window start stop) =>
    let (trees, mappings) := n.copyOf ⟨start, stop, .upperClosed⟩
    sendToFirst (.sendBackups trees mappings)
      ((n.ring.successorsAfter last).filter fun target => target ≠ failed && target ≠ last)
  | _ => return ()

/-- Replaces a failed bootstrap superpeer by the next one, which is asked for a sign of life. -/
def replaceBootstrap (failed : NodeId) : Task Unit := do
  let n ← Task.node
  if n.ring.bootstrap = failed then
    let next := (n.ring.nextAfter failed).getD n.me
    Task.modifyRing (·.setBootstrap next)
    if next ≠ n.me then
      match ← Task.call next .pingSuperpeer with
      | .ok _ => return ()
      | .error _ => Task.enqueue next

/-- Makes the copies anew that were lost with a superpeer. Small rings have everything everywhere. -/
def restoreCopies (failed : NodeId) : Task Unit := do
  let n ← Task.node
  if replicas < n.ring.superpeers.size then
    let backups := n.ring.backups n.me
    match n.ring.area n.me with
    | .window start _ =>
      if n.ring.responsible (start.forward 1) = some failed then spreadDataOf failed start
    | .everything => pure ()
    match backups.head?, backups.getLast? with
    | some first, some last =>
      if Arc.contains ⟨first, last, .closed⟩ failed then spreadOwnBackups failed last
    | _, _ => pure ()

/-- A superpeer handles the failure of another one. -/
def superpeerFailed (failed : NodeId) : Task Unit := do
  replaceBootstrap failed
  let n ← Task.node
  let wasPredecessor := n.ring.predecessor = some failed
  if wasPredecessor then Task.modify (·.takeOverPeers failed)
  restoreCopies failed
  Task.modifyRing (·.removeSuperpeer failed)
  if wasPredecessor then promoteOnePeer failed
  Task.ask (.reportFailure failed true)

/-- Whether a creator is a living peer. A superpeer gives it the current list of superpeers on the
way. -/
def creatorAvailable (creator : NodeId) : Task Bool := do
  let n ← Task.node
  if creator = n.me then return true
  else if n.ring.superpeers.contains creator then return false
  else
    let message : Message :=
      if n.isSuperpeer then .sendSuperpeers (n.ring.superpeers.insert n.me).toList
      else .pingSuperpeer
    return (← Task.send creator message).isOk

/-- Sends a message to each of the given superpeers and queues those that cannot be reached. -/
def notifyAll (message : Message) : List NodeId → Task Unit
  | [] => return ()
  | target :: rest => do
    match ← Task.send target message with
    | .ok () => notifyAll message rest
    | .error _ =>
      Task.enqueue target
      notifyAll message rest

/-- Asks the peers with copies of a range to rebuild it, up to the first that can be reached. -/
def startRecovery (failed : NodeId) (range : RangeStart) : List NodeId → Task Unit
  | [] => return ()
  | backup :: rest => do
    match ← Task.send backup (.startRecovery failed range) with
    | .ok () => return ()
    | .error _ => startRecovery failed range rest

/-- Has every range rebuilt. -/
def recoverRanges (failed : NodeId) : List BackupRange → Task Unit
  | [] => return ()
  | range :: rest => do
    startRecovery failed range.start range.backups.toList
    recoverRanges failed rest

/-- Handles the failure of a peer. One that holds no data has only left, and one that answers has
not failed. -/
def peerFailed (failed : NodeId) : Task Unit := do
  if !(← Task.ask (.available failed)) then Task.modifyRing (·.removePeer failed)
  else if ← creatorAvailable failed then return ()
  else
    Task.modify (·.noticeFailedPeer failed)
    let n ← Task.node
    let ranges := ((n.directory?.bind (·.trees.get? failed)).map (·.ranges)).getD []
    notifyAll (.notifyAboutFailedPeer failed) n.ring.superpeers.toList
    recoverRanges failed ranges
    Task.modifyRing (·.removePeer failed)
    Task.ask (.reportFailure failed false)

/-- Handles one failed node. -/
def handleFailure (failed : NodeId) : Task Unit := do
  let n ← Task.node
  if failed = n.me then return ()
  else if n.ring.superpeers.contains failed then
    if n.isSuperpeer then superpeerFailed failed
    else Task.modify (·.loseSuperpeer failed)
  else if n.ring.peers.contains failed then peerFailed failed
  else return ()

/-- Handles queued failures until the queue is empty. -/
def drainQueue : Task Unit := do
  let n ← Task.node
  match n.failures with
  | [] => return ()
  | failed :: rest =>
    Task.modify fun n => { n with failures := rest }
    handleFailure failed
    Task.routine .drainQueue

/-- Handles queued failures as the only task that does. -/
def drainAlone : Task Unit := do
  Task.modify fun n => { n with draining := true }
  Task.routine .drainQueue
  Task.modify fun n => { n with draining := false }

/-- Handles queued failures unless another task does. A failure queued just before this task is done
is not left behind. -/
def processFailures : Task Unit := do
  let n ← Task.node
  if n.draining then return ()
  else
    drainAlone
    let n ← Task.node
    if n.failures.isEmpty then return () else Task.routine .processFailures

/-- Waits until no other task handles failures and handles those that are queued. -/
def drainFailures : Task Unit := do
  let n ← Task.node
  if n.draining then
    let _ ← Task.ask .yieldToHandler
    Task.routine .drainFailures
  else drainAlone

/-- Handles lost connections in turn; a connection to the node itself is of no interest. -/
def connectionsLost : List NodeId → Task Unit
  | [] => return ()
  | lost :: rest => do
    let n ← Task.node
    if lost ≠ n.me then Task.failureHandling lost
    connectionsLost rest

end Protocol

end ChunkDirectory
