import ChunkDirectory.Protocol.Join
import ChunkDirectory.Protocol.Mutation

/-!
# Promotion

A superpeer makes one of its peers a superpeer that takes over the lower part of its range. The
candidate first hands its stored objects to a replacement peer; when that fails it stays a peer and
the superpeer keeps its state. A superpeer without usable peers passes the job on to another one.
-/

namespace ChunkDirectory.Protocol

/-- Asks superpeers at random, at most `tries` times, for a spare peer other than the candidate. -/
def searchReplacement (candidate : NodeId) (superpeers : List NodeId) :
    Nat → Task (Option NodeId)
  | 0 => return none
  | tries + 1 => do
    match ← Task.choose superpeers with
    | none => return none
    | some contact =>
      match ← Task.call contact .searchForPeer with
      | .ok (.foundPeer (some peer)) =>
        if peer ≠ candidate then return some peer
        else searchReplacement candidate superpeers tries
      | .ok _ => searchReplacement candidate superpeers tries
      | .error _ =>
        Task.enqueue contact
        searchReplacement candidate superpeers tries

/-- Finds a peer to take over the candidate's objects: another local peer, or in safe mode one of
another superpeer. -/
def findReplacement (candidate : NodeId) (safe : Bool) : Task (Option NodeId) := do
  let n ← Task.node
  match ← Task.choose (n.ring.peers.toList.filter (· ≠ candidate)) with
  | some peer => return some peer
  | none =>
    if safe then
      let n ← Task.node
      let superpeers := n.ring.superpeers.toList
      searchReplacement candidate superpeers (2 * superpeers.length)
    else return none

/-- Hands the lower part of the range to a candidate that has a replacement. -/
def promoteWith (candidate replacement : NodeId) : Task (Except PromotionError Unit) := do
  let n ← Task.node
  let alone := n.ring.superpeers.isEmpty
  let predecessor := if alone then n.me else n.ring.predecessor.getD n.me
  let snapshot := n.snapshotFor predecessor candidate
  match ← Task.call candidate (.promotePeer snapshot replacement) with
  | .ok (.promotionResult true) =>
    let n ← Task.node
    let old := if alone then none else n.ring.predecessor
    Task.modifyRing fun r => Node.splitRing r snapshot.peers candidate alone
    match old with
    | none => return .ok ()
    | some old =>
      match ← Task.send old (.notifyAboutNewSuccessor candidate) with
      | .ok () => return .ok ()
      | .error _ =>
        Task.enqueue old
        return .ok ()
  | .ok _ => return .error .rejected
  | .error _ =>
    Task.enqueue candidate
    return .error .peerUnavailable

/-- Promotes one of this superpeer's peers. Only one promotion runs at a time. -/
def promote (candidate : NodeId) (safe : Bool) : Task (Except PromotionError Unit) := do
  let n ← Task.node
  if !n.isSuperpeer then return .error .rejected
  else if n.promoting then return .error .busy
  else
    Task.modify fun n => { n with promoting := true }
    let result ←
      match ← findReplacement candidate safe with
      | none => pure (.error .noReplacement)
      | some replacement => promoteWith candidate replacement
    Task.modify fun n => { n with promoting := false }
    return result

/-- Passes a promotion on to the first of the given superpeers that can be reached. -/
def delegateTo (hops : UInt16) : List NodeId → Task Unit
  | [] => return ()
  | contact :: rest => do
    match ← Task.send contact (.delegatePromotePeer hops) with
    | .ok () => return ()
    | .error _ =>
      Task.enqueue contact
      delegateTo hops rest

/-- Asks another superpeer at random to promote one of its peers. -/
def delegatePromotion (hops : UInt16) : Task Unit := do
  let n ← Task.node
  delegateTo hops (← Task.shuffle n.ring.superpeers.toList)

/-- The next peer to promote: the greatest untried one below the target, else the first untried. -/
def nextCandidate (peers tried : List NodeId) (target : NodeId) : Option NodeId :=
  let untried := peers.filter fun peer => !tried.contains peer
  match (untried.filter (· < target)).getLast? with
  | some peer => some peer
  | none => untried.head?

/-- How a series of promotion attempts ends. -/
inductive PromotionSeries where
  /-- A peer was promoted, or another promotion is running. -/
  | settled
  | exhausted
deriving DecidableEq

/-- Tries peers one after the other, at most `attempts` times. -/
def tryCandidates (target : NodeId) : Nat → List NodeId → Task PromotionSeries
  | 0, _ => return .exhausted
  | attempts + 1, tried => do
    let n ← Task.node
    match nextCandidate n.ring.peers.toList tried target with
    | none => return .exhausted
    | some candidate =>
      match ← promote candidate true with
      | .ok () => return .settled
      | .error .busy => return .settled
      | .error .noReplacement => return .exhausted
      | .error _ => tryCandidates target attempts (tried ++ [candidate])

/-- Promotes a peer near the target position; without a usable peer the job is delegated. -/
def promoteOnePeer (target : NodeId) : Task Unit := do
  let n ← Task.node
  match ← tryCandidates target (2 * (n.ring.superpeers.size + 1)) [] with
  | .settled => return ()
  | .exhausted => delegatePromotion 1

/-- One more hop; the count stays at its maximum. -/
def nextHop (hops : UInt16) : UInt16 := if hops = 0xFFFF then hops else hops + 1

/-- Handles a promotion passed on by another superpeer: promotes a random peer if there are at least
two, else passes it on. It ends after twice as many hops as superpeers are known. -/
def delegatedPromotion (hops : UInt16) : Task Unit := do
  let n ← Task.node
  if 2 * max n.ring.superpeers.size 1 ≤ hops.toNat then return ()
  else
    let peers := n.ring.peers.toList
    let candidate ← if 1 < peers.length then Task.choose peers else pure none
    match candidate with
    | none => delegatePromotion (nextHop hops)
    | some candidate =>
      match ← promote candidate false with
      | .ok () => return ()
      | .error .busy => return ()
      | .error _ => delegatePromotion (nextHop hops)

/-- A peer becomes a superpeer with what it was given. Its own tree is marked, since its objects are
about to move. -/
def becomeSuperpeer (n : Node) (s : Snapshot) : Node :=
  { n with
    ring := n.ring.adopt s
    role := .superpeer
      ⟨(TreeTable.empty.insertAll s.trees).setAlive n.me false, MappingTable.empty.putAll s.mappings⟩ }

/-- The candidate's side of a promotion. When its objects cannot be handed over it becomes the peer
it was. -/
def handlePromotePeer (snapshot : Snapshot) (replacement : NodeId) : Task Message := do
  let n ← Task.node
  if n.isSuperpeer then return .promotionResult false
  else
    Task.modify (becomeSuperpeer · snapshot)
    if ← Task.ask (.handOver replacement) then
      let _ ← mutate (.updateAll n.me replacement) false
      let _ ← Task.ask .startWorker
      return .promotionResult true
    else
      Task.modify fun now => { now with ring := n.ring, role := n.role }
      return .promotionResult false

end ChunkDirectory.Protocol
