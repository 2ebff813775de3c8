import ChunkDirectory.SortedMap
import ChunkDirectory.Tree.Backups

/-!
# Lookup trees

A lookup tree says for every object of one creator where it lives. Ownership is a total function on
local identifiers, kept as the boundaries at which it changes: the owner at an identifier is the one
recorded at the greatest boundary not above it, and the creator below the first boundary. A boundary
without owner begins a span of removed objects.

Every change of ownership drops the boundaries at which nothing changes. Two trees whose objects
have the same owners therefore have the same boundaries, whatever operations produced them.
-/

namespace ChunkDirectory

/-- Location metadata for all objects created by one node. -/
structure LookupTree where
  creator : NodeId
  /-- False once the creator is known to have failed. -/
  alive : Bool
  /-- The owner from each boundary on, `none` where objects were removed. -/
  owners : SortedMap UInt64 (Option NodeId)
  /-- Backups of created objects, by the first local identifier of the range. -/
  backupRanges : SortedMap UInt64 BackupPeers
  /-- Backups of objects that migrated to the creator, by batch. -/
  migrationRanges : SortedMap UInt32 BackupPeers
deriving DecidableEq

namespace LookupTree

/-- The tree of a creator that owns all its objects and has no backups. -/
def new (creator : NodeId) : LookupTree := ⟨creator, true, ∅, ∅, ∅⟩

instance : Inhabited LookupTree := ⟨new default⟩

/-- Records that the creator is alive or has failed. -/
def setAlive (t : LookupTree) (alive : Bool) : LookupTree := { t with alive }

/-- Registers the backups of the range that starts at a created chunk. -/
def initRange (t : LookupTree) (first : ChunkId) (backups : BackupPeers) : LookupTree :=
  { t with backupRanges := t.backupRanges.insert first.localId backups }

/-- Registers the backups of a batch of migrated objects. -/
def initMigrationRange (t : LookupTree) (batch : UInt32) (backups : BackupPeers) : LookupTree :=
  { t with migrationRanges := t.migrationRanges.insert batch backups }

/-- Registers a range of either kind. -/
def register (t : LookupTree) (start : RangeStart) (backups : BackupPeers) : LookupTree :=
  match start with
  | .created first => t.initRange first backups
  | .migration batch => t.initMigrationRange batch backups

/-- The owner at a local identifier, `none` if it was removed. -/
def ownerAt (t : LookupTree) (localId : UInt64) : Option NodeId :=
  match t.owners.floor? localId with
  | some (_, owner) => owner
  | none => some t.creator

/-- The boundaries at which the owner differs from the one before, `current` before the first. -/
def changes (current : Option NodeId) :
    List (UInt64 × Option NodeId) → List (UInt64 × Option NodeId)
  | [] => []
  | b :: rest => if b.2 = current then changes current rest else b :: changes b.2 rest

theorem changes_sublist (current : Option NodeId) (l : List (UInt64 × Option NodeId)) :
    (changes current l).Sublist l := by
  induction l generalizing current with
  | nil => exact .slnil
  | cons b rest ih =>
    simp only [changes]
    split
    · exact (ih current).cons b
    · exact (ih b.2).cons_cons b

/-- Drops every boundary at which nothing changes. -/
def normalize (t : LookupTree) : LookupTree :=
  { t with
    owners := t.owners.restrict (changes (some t.creator) t.owners.entries)
      (changes_sublist _ _) }

/-- Keeps the owner of `next` when the identifiers before it change hands. -/
def splitAt (t : LookupTree) (next : UInt64) : LookupTree :=
  if t.owners.contains next then t
  else { t with owners := t.owners.insert next (t.ownerAt next) }

/-- Gives the identifiers from `first` to `last` to `owner`, and no others. -/
def assign (t : LookupTree) (first last : UInt64) (owner : Option NodeId) : LookupTree :=
  let t := if last < maxLocalId then t.splitAt (last + 1) else t
  let outside := t.owners.filter fun k _ => k < first || last < k
  normalize { t with owners := outside.insert first owner }

/-- Moves one object. -/
def migrate (t : LookupTree) (chunk : ChunkId) (owner : NodeId) : LookupTree :=
  t.assign chunk.localId chunk.localId (some owner)

/-- Moves the objects between two chunks, given in either order. -/
def migrateRange (t : LookupTree) (start stop : ChunkId) (owner : NodeId) : LookupTree :=
  if start.localId ≤ stop.localId then t.assign start.localId stop.localId (some owner)
  else t.assign stop.localId start.localId (some owner)

/-- Forgets one object. -/
def remove (t : LookupTree) (chunk : ChunkId) : LookupTree :=
  t.assign chunk.localId chunk.localId none

/-- Hands every object of `owner` to `restorer`. -/
def reassign (t : LookupTree) (owner restorer : NodeId) : LookupTree :=
  let t :=
    if owner = t.creator && !t.owners.contains 0 then
      { t with owners := t.owners.insert 0 (some t.creator) }
    else t
  normalize { t with
    owners := t.owners.mapValues fun _ o => if o = some owner then some restorer else o }

/-- Where an object lives, `none` if it was removed.

Backup ranges only describe objects that never left their creator. -/
def locate (t : LookupTree) (chunk : ChunkId) : Option Locations :=
  let id := chunk.localId
  (t.ownerAt id).map fun primary =>
    let first := ((t.owners.floor? id).map (·.1)).getD 0
    let last := ((t.owners.above? id).map (·.1 - 1)).getD maxLocalId
    if primary = t.creator then
      let range := t.backupRanges.floor? id
      { primary
        backups := (range.map (·.2)).getD .empty
        first := .make t.creator (max first ((range.map (·.1)).getD first))
        last := .make t.creator
          (min last (((t.backupRanges.above? id).map (·.1 - 1)).getD last)) }
    else
      { primary, backups := .empty, first := .make t.creator first, last := .make t.creator last }

/-- Every registered range: those of created objects by position, then the migrated batches. -/
def ranges (t : LookupTree) : List BackupRange :=
  (t.backupRanges.entries.map fun (start, backups) =>
      ⟨.created (.make t.creator start), backups⟩)
    ++ t.migrationRanges.entries.map fun (batch, backups) => ⟨.migration batch, backups⟩

/-- Whether `peer` backs up any range. -/
def backedUpBy (t : LookupTree) (peer : NodeId) : Bool :=
  t.backupRanges.values.any (·.contains peer) || t.migrationRanges.values.any (·.contains peer)

/-- Drops `peer` from every list of backups. -/
def eraseBackup (t : LookupTree) (peer : NodeId) : LookupTree :=
  { t with
    backupRanges := t.backupRanges.mapValues fun _ b => b.erase peer
    migrationRanges := t.migrationRanges.mapValues fun _ b => b.erase peer }

end LookupTree

end ChunkDirectory
