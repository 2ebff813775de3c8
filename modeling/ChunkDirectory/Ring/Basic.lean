import ChunkDirectory.Arc
import ChunkDirectory.NodeSet

/-!
# The ring as one node sees it

A node knows superpeers and peers and has pointers to the superpeers before and after it. Its own
identifier and reserved identifiers never enter a list. Setting a pointer also lists the superpeer
it names, and dropping a superpeer moves the pointers that named it to the next nearest one.

Every query is read off `superpeers.roundFrom id`, the known superpeers in ring order from `id` on:
its first member is responsible for `id`, its last one precedes `id`, and those after `id` itself
are the successors, of which the first three keep copies of what is stored at `id`.
-/

namespace ChunkDirectory

/-- How many superpeers keep copies of what the responsible one stores. -/
def replicas : Nat := 3

/-- Superpeers, peers and ring pointers known to a node. -/
structure Ring where
  me : NodeId
  superpeers : NodeSet
  peers : NodeSet
  predecessor : Option NodeId
  successor : Option NodeId
  /-- The superpeer contacted first when joining. -/
  bootstrap : NodeId
  /-- How many superpeers the ring is meant to have. -/
  expected : Nat
deriving DecidableEq

namespace Ring

/-- The view of a node that knows nobody. -/
def new (me bootstrap : NodeId) (expected : Nat) : Ring :=
  { me, superpeers := ∅, peers := ∅, predecessor := none, successor := none, bootstrap, expected }

/-- Whether an identifier may be listed. -/
def admits (r : Ring) (id : NodeId) : Bool := id ≠ r.me && !id.isReserved

/-- Whether as many superpeers are known as expected, the node itself included if it is one. -/
def isStable (r : Ring) (countingMe : Bool) : Bool :=
  r.superpeers.size + (if countingMe then 1 else 0) = r.expected

/-- Whether inserting a superpeer changes the list. -/
def lacksSuperpeer (r : Ring) (id : NodeId) : Bool := r.admits id && !r.superpeers.contains id

/-- Whether inserting a peer changes the list. -/
def lacksPeer (r : Ring) (id : NodeId) : Bool := r.admits id && !r.peers.contains id

/-- Lists a superpeer. -/
def insertSuperpeer (r : Ring) (id : NodeId) : Ring :=
  if r.admits id then { r with superpeers := r.superpeers.insert id } else r

/-- Lists a peer. -/
def insertPeer (r : Ring) (id : NodeId) : Ring :=
  if r.admits id then { r with peers := r.peers.insert id } else r

def insertSuperpeers (r : Ring) (ids : List NodeId) : Ring := ids.foldl insertSuperpeer r

def insertPeers (r : Ring) (ids : List NodeId) : Ring := ids.foldl insertPeer r

/-- Starts the list of superpeers anew. -/
def replaceSuperpeers (r : Ring) (ids : List NodeId) : Ring :=
  { r with superpeers := ∅ }.insertSuperpeers ids

/-- Starts the list of peers anew. -/
def replacePeers (r : Ring) (ids : List NodeId) : Ring :=
  { r with peers := ∅ }.insertPeers ids

def removePeer (r : Ring) (id : NodeId) : Ring := { r with peers := r.peers.erase id }

def removePeers (r : Ring) (ids : List NodeId) : Ring := ids.foldl removePeer r

def setBootstrap (r : Ring) (id : NodeId) : Ring := { r with bootstrap := id }

/-- Lists the superpeer a pointer names, if it names one. -/
def insertPointer (r : Ring) (pointer : Option NodeId) : Ring :=
  match pointer with
  | some id => r.insertSuperpeer id
  | none => r

/-- Points at a successor and lists it. A node is never its own successor. -/
def setSuccessor (r : Ring) (id : Option NodeId) : Ring :=
  let pointer := id.filter (· ≠ r.me)
  { r with successor := pointer }.insertPointer pointer

/-- Points at a predecessor and lists it. A node is never its own predecessor. -/
def setPredecessor (r : Ring) (id : Option NodeId) : Ring :=
  let pointer := id.filter (· ≠ r.me)
  { r with predecessor := pointer }.insertPointer pointer

/-- The superpeer that owns `id`: the first one at or after it. -/
def responsible (r : Ring) (id : NodeId) : Option NodeId := (r.superpeers.roundFrom id).head?

/-- The nearest superpeer before `id`, other than `id` itself. -/
def previousBefore (r : Ring) (id : NodeId) : Option NodeId :=
  (r.superpeers.roundFrom id).getLast?.filter (· ≠ id)

/-- All superpeers other than `id` in ring order after it. -/
def successorsAfter (r : Ring) (id : NodeId) : List NodeId :=
  (r.superpeers.roundFrom id).filter (· ≠ id)

/-- The nearest superpeer after `id`, other than `id` itself. -/
def nextAfter (r : Ring) (id : NodeId) : Option NodeId := (r.successorsAfter id).head?

/-- The superpeers that keep copies of what is stored at `id`. -/
def backups (r : Ring) (id : NodeId) : List NodeId := (r.successorsAfter id).take replicas

/-- Drops a superpeer and moves the pointers that named it past it. -/
def removeSuperpeer (r : Ring) (id : NodeId) : Ring :=
  if r.superpeers.contains id then
    let r := { r with superpeers := r.superpeers.erase id }
    { r with
      successor := if r.successor = some id then r.nextAfter id else r.successor
      predecessor := if r.predecessor = some id then r.previousBefore id else r.predecessor }
  else r

/-- The peers on an arc, in list order. -/
def peersIn (r : Ring) (arc : Arc) : List NodeId := r.peers.toList.filter arc.contains

end Ring

end ChunkDirectory
