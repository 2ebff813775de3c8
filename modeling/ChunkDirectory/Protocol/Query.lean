import ChunkDirectory.Node.Task

/-!
# Questions and notices

What a node answers from its own state, and how it takes notice of its neighbours. A superpeer
answers questions about metadata it holds, be it primary or a copy; about metadata it does not hold
it only answers as primary.
-/

namespace ChunkDirectory.Node

/-- Where a chunk lives, `none` within the answer if it is unknown or removed. -/
def lookup (n : Node) (chunk : ChunkId) : Message :=
  match n.directory? with
  | none => .status .notSuperpeer
  | some d =>
    match d.trees.get? chunk.creator with
    | some tree => .lookupResult (tree.locate chunk)
    | none =>
      if n.isPrimaryFor chunk.creator then .lookupResult none else .status .notResponsible

/-- All backup ranges of a creator. -/
def backupRanges (n : Node) (creator : NodeId) : Message :=
  match n.directory? with
  | none => .status .notSuperpeer
  | some d =>
    match d.trees.get? creator with
    | some tree => .backupRanges (some tree.ranges)
    | none => if n.isPrimaryFor creator then .backupRanges none else .status .notResponsible

/-- The chunk an application identifier stands for. -/
def chunkOf (n : Node) (id : ApplicationId) : Message :=
  match n.directory? with
  | none => .status .notSuperpeer
  | some d =>
    match d.mappings.get? id with
    | some chunk => .chunkIdResult (some chunk)
    | none => if n.isPrimaryFor id.position then .chunkIdResult none else .status .notResponsible

/-- How many mappings the node is primary for. -/
def mappingCount (n : Node) : Message :=
  match n.directory?, n.primaryArea with
  | some d, some area => .mappingCount (UInt64.ofNat (d.mappings.countWhere area.contains))
  | _, _ => .status .notSuperpeer

/-- The successor of a superpeer. -/
def successorAnswer (n : Node) : Message :=
  .successorIs (if n.isSuperpeer then n.ring.successor else none)

/-- The primary trees that the asker lacks or holds in another version, and all primary mappings. -/
def missingBackups (n : Node) (known : List (NodeId × UInt64)) : Message :=
  match n.directory?, n.primaryArea with
  | some d, some area =>
    .backups
      ((d.trees.treesWhere area.contains).filter fun t => !known.contains (t.creator, t.digest))
      (d.mappings.entriesWhere area.contains)
  | _, _ => .backups [] []

/-- A superpeer takes a node that says it precedes it as predecessor if it lies between the current
one and itself, and also as successor if it has none. -/
def noticePredecessor (n : Node) (node : NodeId) : Node :=
  if !n.isSuperpeer || node = n.me then n
  else
    let nearer :=
      match n.ring.predecessor with
      | none => true
      | some current => Arc.contains ⟨current, n.me, .strict⟩ node
    if nearer && n.ring.predecessor ≠ some node then
      n.mapRing fun r =>
        let r := r.setPredecessor (some node)
        if r.successor.isNone then r.setSuccessor (some node) else r
    else n

/-- A superpeer takes a node that says it succeeds it as successor if it lies between itself and the
current one, and also as predecessor if it has none. -/
def noticeSuccessor (n : Node) (node : NodeId) : Node :=
  if !n.isSuperpeer || node = n.me then n
  else
    let nearer :=
      match n.ring.successor with
      | none => true
      | some current => Arc.contains ⟨n.me, current, .strict⟩ node
    if nearer && n.ring.successor ≠ some node then
      n.mapRing fun r =>
        let r := r.setSuccessor (some node)
        if r.predecessor.isNone then r.setPredecessor (some node) else r
    else n

/-- A peer takes over the superpeer list from a superpeer, and attaches to it if it is the one
responsible for the peer. A superpeer only notes the sender. -/
def noticeSuperpeers (n : Node) (sender : NodeId) (superpeers : List NodeId) : Node :=
  match n.role with
  | .superpeer _ => n.mapRing (·.insertSuperpeer sender)
  | .peer attached =>
    let ring := (n.ring.replaceSuperpeers superpeers).insertSuperpeer sender
    let attached := if ring.responsible n.me = some sender then some sender else attached
    { n with ring, role := .peer attached }

/-- A superpeer strikes a failed peer from all backups and marks its tree. -/
def noticeFailedPeer (n : Node) (failed : NodeId) : Node :=
  n.mapTrees fun trees => (trees.eraseBackup failed).setAlive failed false

end ChunkDirectory.Node
