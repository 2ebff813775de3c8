import ChunkDirectory.Chunk

/-!
# Backup ranges

Objects are backed up in ranges. A range starts either at a chunk its creator made or at a numbered
batch of objects that migrated to a peer, and names the peers that hold its copies. A list built
from requests has at most three distinct peers; a list that arrives in a message is kept as it is.
-/

namespace ChunkDirectory

/-- The peers holding the copies of a range, in the order they are asked. -/
structure BackupPeers where
  toList : List NodeId
deriving DecidableEq, Inhabited

namespace BackupPeers

/-- How many peers a range is meant to have. -/
def full : Nat := 3

/-- Goes on with a list of candidates after `kept` were taken. -/
def gather (kept : List NodeId) : List NodeId → List NodeId
  | [] => kept
  | peer :: rest =>
    if kept.length = full then kept
    else if peer.isReserved || peer ∈ kept then gather kept rest
    else gather (kept ++ [peer]) rest

/-- The first three distinct identifiers that are not reserved. -/
def ofList (peers : List NodeId) : BackupPeers := ⟨gather [] peers⟩

def empty : BackupPeers := ⟨[]⟩

def contains (b : BackupPeers) (peer : NodeId) : Bool := peer ∈ b.toList

def size (b : BackupPeers) : Nat := b.toList.length

def isEmpty (b : BackupPeers) : Bool := b.toList.isEmpty

/-- Whether copies are missing. -/
def isDegraded (b : BackupPeers) : Bool := b.size < full

/-- The list without `peer`, wherever it occurred. -/
def erase (b : BackupPeers) (peer : NodeId) : BackupPeers := ⟨b.toList.filter (· ≠ peer)⟩

end BackupPeers

/-- The first object of a backup range. -/
inductive RangeStart where
  /-- A chunk made by the creator of the tree. -/
  | created (first : ChunkId)
  /-- A numbered batch of objects that migrated to a peer. -/
  | migration (batch : UInt32)
deriving DecidableEq

/-- The creator whose tree records a range that `owner` registers: migrated objects are recorded
under the peer that received them. -/
def RangeStart.treeCreator (start : RangeStart) (owner : NodeId) : NodeId :=
  match start with
  | .created first => first.creator
  | .migration _ => owner

/-- A range and the peers that back it up. -/
structure BackupRange where
  start : RangeStart
  backups : BackupPeers
deriving DecidableEq

/-- Where one object lives. `first` and `last` bound the chunks around it with the same answer, so
that callers may cache it. -/
structure Locations where
  primary : NodeId
  backups : BackupPeers
  first : ChunkId
  last : ChunkId
deriving DecidableEq

end ChunkDirectory
