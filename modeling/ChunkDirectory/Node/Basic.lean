import ChunkDirectory.Config.Basic
import ChunkDirectory.Directory.Basic
import ChunkDirectory.Message
import ChunkDirectory.Ring.Area

/-!
# Nodes

The state of a node: its role, its view of the ring, the failures it has yet to handle, and whether
it is handling failures or promoting a peer at the moment. Only superpeers have a directory. A
superpeer is primary for what lies after its predecessor up to itself, and for everything when it
has no predecessor.
-/

namespace ChunkDirectory

/-- What a node currently is. -/
inductive Role where
  /-- A peer, attached to a superpeer once it has joined. -/
  | peer (superpeer : Option NodeId)
  | superpeer (directory : Directory)
deriving DecidableEq

/-- The state of a node. -/
structure Node where
  config : Config
  role : Role
  ring : Ring
  /-- Nodes that were found to have failed, in the order they are handled. -/
  failures : List NodeId
  /-- Whether some task is handling failures. -/
  draining : Bool
  /-- Whether some task is promoting a peer. -/
  promoting : Bool
deriving DecidableEq

namespace Node

/-- A node before it joins. -/
def new (config : Config) : Node where
  config
  role :=
    match config.role with
    | .superpeer => .superpeer .empty
    | .peer => .peer none
  ring := .new config.nodeId config.bootstrap config.expectedSuperpeers
  failures := []
  draining := false
  promoting := false

/-- The node's own identifier. -/
def me (n : Node) : NodeId := n.ring.me

def directory? (n : Node) : Option Directory :=
  match n.role with
  | .superpeer d => some d
  | .peer _ => none

def isSuperpeer (n : Node) : Bool := n.directory?.isSome

/-- The superpeer a peer is attached to. -/
def mySuperpeer (n : Node) : Option NodeId :=
  match n.role with
  | .peer superpeer => superpeer
  | .superpeer _ => none

def isOnlySuperpeer (n : Node) : Bool := n.isSuperpeer && n.ring.superpeers.isEmpty

/-- Whether as many superpeers are known as expected. -/
def isStable (n : Node) : Bool := n.ring.isStable n.isSuperpeer

/-- What the node is primary for, `none` on a peer. -/
def primaryArea (n : Node) : Option Area :=
  if n.isSuperpeer then
    match n.ring.predecessor with
    | some predecessor => some (.window predecessor n.me)
    | none => some .everything
  else none

def isPrimaryFor (n : Node) (id : NodeId) : Bool :=
  match n.primaryArea with
  | some area => area.contains id
  | none => false

/-- Replaces the ring view. -/
def mapRing (n : Node) (f : Ring → Ring) : Node := { n with ring := f n.ring }

/-- Changes the directory, if the node is a superpeer. -/
def mapDirectory (n : Node) (f : Directory → Directory) : Node :=
  match n.role with
  | .superpeer d => { n with role := .superpeer (f d) }
  | .peer _ => n

/-- Changes the trees, if the node is a superpeer. -/
def mapTrees (n : Node) (f : TreeTable → TreeTable) : Node :=
  n.mapDirectory fun d => { d with trees := f d.trees }

/-- Enters trees and mappings, if the node is a superpeer. -/
def store (n : Node) (trees : List LookupTree) (mappings : List (ApplicationId × ChunkId)) : Node :=
  n.mapDirectory fun d => ⟨d.trees.insertAll trees, d.mappings.putAll mappings⟩

/-- Queues a failed node unless it is queued already. -/
def enqueue (n : Node) (failed : NodeId) : Node :=
  if failed ∈ n.failures then n else { n with failures := n.failures ++ [failed] }

/-- What a node that takes over the ring up to `newcomer` is given: the known superpeers, the peers
strictly between `predecessor` and the newcomer, and what a superpeer in the newcomer's place keeps
metadata for. -/
def snapshotFor (n : Node) (predecessor newcomer : NodeId) : Snapshot :=
  let area := n.ring.area newcomer
  let d := n.directory?.getD .empty
  { predecessor := some predecessor
    successor := some n.me
    superpeers := n.ring.superpeers.toList
    peers := n.ring.peersIn ⟨predecessor, newcomer, .strict⟩
    trees := d.trees.treesWhere area.contains
    mappings := d.mappings.entriesWhere area.contains }

end Node

/-- Takes over the ring view of a snapshot. -/
def Ring.adopt (r : Ring) (s : Snapshot) : Ring :=
  (((r.replaceSuperpeers s.superpeers).replacePeers s.peers).setSuccessor
    s.successor).setPredecessor s.predecessor

/-- A summary of a node's view, as shown to operators. -/
structure OverlayStats where
  isSuperpeer : Bool
  /-- Superpeers known, the node included if it is one. -/
  superpeerCount : Nat
  expectedSuperpeers : Nat
  stable : Bool
  peerCount : Nat
  /-- Trees held, copies included. -/
  treeCount : Nat
  /-- Mappings held, copies included. -/
  mappingCount : Nat
  stabilizationInterval : Duration
deriving DecidableEq

def Node.stats (n : Node) : OverlayStats where
  isSuperpeer := n.isSuperpeer
  superpeerCount := n.ring.superpeers.size + (if n.isSuperpeer then 1 else 0)
  expectedSuperpeers := n.config.expectedSuperpeers
  stable := n.isStable
  peerCount := n.ring.peers.size
  treeCount := (n.directory?.getD .empty).trees.size
  mappingCount := (n.directory?.getD .empty).mappings.size
  stabilizationInterval := n.config.sleepInterval

end ChunkDirectory
