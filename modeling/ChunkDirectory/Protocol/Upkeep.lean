import ChunkDirectory.Protocol.Failure

/-!
# Upkeep

What a superpeer does from time to time: it tells its neighbours that it is there, asks other
superpeers about their successors to complete its list, promotes a peer when the ring has been too
small for long enough, refreshes the copies it keeps for others and drops those it no longer has to
keep, and calls on its peers.
-/

namespace ChunkDirectory

/-- What is carried from one round of upkeep to the next. -/
structure UpkeepState where
  /-- The place in the superpeer list of the next one to ask. -/
  nextSuperpeer : Nat
  /-- Rounds since the ring was last complete. -/
  unstableTicks : Nat
deriving DecidableEq, Inhabited

/-- Before the first round. -/
def UpkeepState.start : UpkeepState := ⟨0, 0⟩

/-- Goes on in an ascending list of identifiers after `low`, with the widest gap so far and the
identifier at its upper end. -/
def widenGap (widest : Nat × NodeId) (low : NodeId) : List NodeId → Nat × NodeId
  | [] => widest
  | high :: rest =>
    let gap := high.toNat - low.toNat
    widenGap (if widest.1 < gap then (gap, high) else widest) high rest

/-- The widest distance between ring neighbours and the one at its upper end, which fills it. Of
equal gaps the one across position 0 comes first, then the lowest. -/
def widestGap (ids : List NodeId) : Option (Nat × NodeId) :=
  match (NodeSet.ofList ids).toList with
  | [] => none
  | first :: rest =>
    let last := (first :: rest).getLast (List.cons_ne_nil _ _)
    some (widenGap (first.toNat + 65536 - last.toNat, first) first rest)

namespace Protocol

/-- Tells the predecessor about this node, past those that cannot be reached. -/
def notifyPredecessor : Nat → Task Unit
  | 0 => return ()
  | tries + 1 => do
    let n ← Task.node
    match n.ring.predecessor with
    | none => return ()
    | some predecessor =>
      match ← Task.send predecessor (.notifyAboutNewSuccessor n.me) with
      | .ok () => return ()
      | .error _ =>
        Task.failureHandling predecessor
        notifyPredecessor tries

/-- Tells the successor about this node, past those that cannot be reached. -/
def notifySuccessor : Nat → Task Unit
  | 0 => return ()
  | tries + 1 => do
    let n ← Task.node
    match n.ring.successor with
    | none => return ()
    | some successor =>
      match ← Task.send successor (.notifyAboutNewPredecessor n.me) with
      | .ok () => return ()
      | .error _ =>
        Task.failureHandling successor
        notifySuccessor tries

/-- Tells both neighbours about this node. -/
def notifyNeighbours : Task Unit := do
  let n ← Task.node
  let bound := n.ring.superpeers.size + 1
  notifyPredecessor bound
  notifySuccessor bound

/-- How many superpeers are expected for each one asked in a round. -/
def superpeersPerCheck : Nat := 300

/-- The superpeer to ask next about its successor, and the cursor after it. The predecessor's
successor is this node, so it is passed over. -/
def nextToAsk (r : Ring) (cursor : Nat) : Option (NodeId × Nat) :=
  let known := r.superpeers.toList
  let cursor := if known.length ≤ cursor then 0 else cursor
  let cursor :=
    if known[cursor]? = r.predecessor then (cursor + 1) % known.length else cursor
  known[cursor]?.map fun contact => (contact, cursor + 1)

/-- Asks known superpeers, one a round, for their successors, to learn about unknown ones. -/
def fixSuperpeers (state : UpkeepState) : Nat → Task UpkeepState
  | 0 => return state
  | rounds + 1 => do
    let n ← Task.node
    if n.ring.superpeers.size < 2 then return state
    else
      match nextToAsk n.ring state.nextSuperpeer with
      | none => return state
      | some (contact, cursor) =>
        let state := { state with nextSuperpeer := cursor }
        match ← Task.call contact .askAboutSuccessor with
        | .ok (.successorIs (some successor)) =>
          if n.ring.nextAfter contact ≠ some successor && successor ≠ n.me then
            Task.modifyRing (·.insertSuperpeer successor)
          fixSuperpeers state rounds
        | .ok _ => fixSuperpeers state rounds
        | .error _ =>
          Task.failureHandling contact
          fixSuperpeers state rounds

/-- Promotes a peer when the ring has been below its expected size for long enough. A superpeer that
is alone aims at the opposite side of the ring; otherwise the one above the widest gap aims at its
middle. -/
def promoteIfNecessary (state : UpkeepState) : Task UpkeepState := do
  let n ← Task.node
  if n.config.expectedSuperpeers ≤ n.ring.superpeers.size + 1 then
    return { state with unstableTicks := 0 }
  else if state.unstableTicks < n.config.promotionThreshold then
    return { state with unstableTicks := state.unstableTicks + 1 }
  else
    let state := { state with unstableTicks := 0 }
    if n.ring.superpeers.isEmpty then
      promoteOnePeer (n.me.forward 32767)
      return state
    else
      match widestGap (n.ring.superpeers.toList ++ [n.me]) with
      | some (gap, owner) =>
        if owner = n.me then promoteOnePeer (n.me.back (UInt16.ofNat (min (gap / 2) 65535)))
        return state
      | none => return state

/-- Fetches the primary trees and mappings of the superpeers from `target` on, the owner of what
follows `old`, up to the predecessor. -/
def gatherFrom (old : NodeId) (target : Option NodeId) : Nat → Task Unit
  | 0 => return ()
  | bound + 1 => do
    let n ← Task.node
    match target.filter (· ≠ n.me) with
    | none => return ()
    | some target =>
      let known := ((n.directory?.getD .empty).trees.digestsWhere
        (Arc.contains ⟨old, target, .upperClosed⟩))
      match ← Task.call target (.askAboutBackups known) with
      | .error _ =>
        Task.failureHandling target
        let n ← Task.node
        gatherFrom old (n.ring.responsible (old.forward 1)) bound
      | .ok answer =>
        match answer with
        | .backups trees mappings => Task.modify (·.store trees mappings)
        | _ => pure ()
        let n ← Task.node
        if n.ring.predecessor = some target then return ()
        else gatherFrom target (n.ring.responsible (target.forward 1)) bound

/-- Refreshes the copies of what other superpeers own in this node's area. -/
def gatherBackups (area : Area) : Task Unit := do
  let n ← Task.node
  if n.isSuperpeer then
    let bound := n.ring.superpeers.size + 1
    match area with
    | .everything => gatherFrom n.me n.ring.successor bound
    | .window start _ => gatherFrom start (n.ring.responsible (start.forward 1)) bound

/-- Drops trees and mappings outside an area. -/
def dropOutside (d : Directory) (area : Area) : Directory :=
  ⟨d.trees.retain area.contains, d.mappings.retain area.contains⟩

/-- Pushes the superpeer list to each of the given peers, which shows whether they are alive. -/
def pingEach (superpeers : List NodeId) : List NodeId → Task Unit
  | [] => return ()
  | peer :: rest => do
    match ← Task.send peer (.sendSuperpeers superpeers) with
    | .ok () => pingEach superpeers rest
    | .error _ =>
      Task.failureHandling peer
      pingEach superpeers rest

/-- Calls on every peer. -/
def pingPeers : Task Unit := do
  let n ← Task.node
  pingEach n.ring.superpeers.toList n.ring.peers.toList

/-- Refreshes copies, drops those outside the area, which may have grown meanwhile, and lists the
living creators of the node's own range as peers. -/
def maintainCopies : Task Unit := do
  let n ← Task.node
  gatherBackups (n.ring.area n.me)
  Task.modify fun n => n.mapDirectory fun d => dropOutside d (n.ring.area n.me)
  Task.modify fun n => n.takeOverPeers n.me

/-- One round of upkeep. Peers have nothing to do. -/
def upkeepRound (state : UpkeepState) : Task UpkeepState := do
  let n ← Task.node
  if n.isSuperpeer then
    notifyNeighbours
    let state ← fixSuperpeers state (max (n.config.expectedSuperpeers / superpeersPerCheck) 1)
    let state ← promoteIfNecessary state
    if !(← Task.node).isOnlySuperpeer then maintainCopies
    pingPeers
    Task.routine .processFailures
    return state
  else return state

end Protocol

end ChunkDirectory
