import ChunkDirectory.Node.Task

/-!
# Mutations

The requests that change a directory. A mutation concerns the metadata at one key, the creator or
the hashed application identifier, and belongs to the superpeer that is primary for the key. The
primary applies it and then sends it, flagged as a copy, to the superpeers that keep copies; a copy
is applied by whoever gets it and sent to nobody. Everyone else refuses, so that the sender looks
for the owner again. A mutation that is not applied changes nothing.
-/

namespace ChunkDirectory

/-- A change of a directory. -/
inductive Mutation where
  /-- `restorer` now holds everything `owner` held. -/
  | updateAll (owner restorer : NodeId)
  | initRange (start : RangeStart) (owner : NodeId) (backups : BackupPeers)
  | migrate (chunk : ChunkId) (node : NodeId)
  | migrateRange (start stop : ChunkId) (node : NodeId)
  /-- Forgets `first` and further chunks of the same creator. -/
  | remove (first : ChunkId) (rest : List ChunkId)
  | insertId (id : ApplicationId) (chunk : ChunkId)
deriving DecidableEq

namespace Mutation

/-- The position whose owner applies the mutation. -/
def key : Mutation → NodeId
  | .updateAll owner _ => owner
  | .initRange start owner _ => start.treeCreator owner
  | .migrate chunk _ => chunk.creator
  | .migrateRange start _ _ => start.creator
  | .remove first _ => first.creator
  | .insertId id _ => id.position

/-- The request for the mutation. -/
def message (m : Mutation) (isBackup : Bool) : Message :=
  match m with
  | .updateAll owner restorer => .updateAll owner restorer isBackup
  | .initRange start owner backups => .initRange start owner backups isBackup
  | .migrate chunk node => .migrate chunk node isBackup
  | .migrateRange start stop node => .migrateRange start stop node isBackup
  | .remove first rest => .remove (first :: rest) isBackup
  | .insertId id chunk => .insertId id chunk isBackup

/-- Changes the tree of a creator; without a tree nothing happens. -/
def onTree (d : Directory) (creator : NodeId) (f : LookupTree → LookupTree) :
    Directory × RequestStatus :=
  match d.trees.get? creator with
  | some _ => ({ d with trees := d.trees.modify creator f }, .applied)
  | none => (d, .uninitialized)

/-- The directory after the mutation, and the outcome. A range is registered in a new tree if there
is none; objects can only be moved or forgotten in an existing tree. -/
def apply (m : Mutation) (d : Directory) : Directory × RequestStatus :=
  match m with
  | .updateAll owner restorer => ({ d with trees := d.trees.reassign owner restorer }, .applied)
  | .initRange start owner backups =>
    ({ d with trees := d.trees.update (start.treeCreator owner) (·.register start backups) }, .applied)
  | .migrate chunk node => onTree d chunk.creator (·.migrate chunk node)
  | .migrateRange start stop node => onTree d start.creator (·.migrateRange start stop node)
  | .remove first rest =>
    onTree d first.creator fun tree => (first :: rest).foldl LookupTree.remove tree
  | .insertId id chunk => ({ d with mappings := d.mappings.put id chunk }, .applied)

end Mutation

/-- The mutation a request asks for, or the answer that settles a request without one: a range must
not span creators, and neither must the chunks to forget, of which there may be none. -/
def Message.mutation? : Message → Option (Except RequestStatus Mutation × Bool)
  | .updateAll owner restorer isBackup => some (.ok (.updateAll owner restorer), isBackup)
  | .initRange start owner peers isBackup => some (.ok (.initRange start owner peers), isBackup)
  | .migrate chunk node isBackup => some (.ok (.migrate chunk node), isBackup)
  | .migrateRange start stop node isBackup =>
    if start.creator = stop.creator then some (.ok (.migrateRange start stop node), isBackup)
    else some (.error .invalidRequest, isBackup)
  | .remove [] isBackup => some (.error .applied, isBackup)
  | .remove (first :: rest) isBackup =>
    if rest.all fun chunk => chunk.creator = first.creator then
      some (.ok (.remove first rest), isBackup)
    else some (.error .invalidRequest, isBackup)
  | .insertId id chunk isBackup => some (.ok (.insertId id chunk), isBackup)
  | _ => none

namespace Protocol

/-- Sends a copy of a mutation to each of the given superpeers. One that cannot be reached is handed
to failure handling; what the others answer makes no difference. -/
def copyTo (copy : Message) : List NodeId → Task Unit
  | [] => return ()
  | backup :: rest => do
    match ← Task.call backup copy with
    | .ok _ => copyTo copy rest
    | .error _ =>
      Task.spawnFailureHandling backup
      copyTo copy rest

/-- Sends copies of a mutation to the superpeers that keep them. -/
def replicate (m : Mutation) : Task Unit := do
  let n ← Task.node
  copyTo (m.message true) (n.ring.backups n.me)

/-- Handles a mutation as the node's position on the ring demands. -/
def mutate (m : Mutation) (isBackup : Bool) : Task RequestStatus := do
  let n ← Task.node
  match n.directory? with
  | none => return .notSuperpeer
  | some d =>
    let (changed, outcome) := m.apply d
    if isBackup then
      Task.modify (·.mapDirectory fun _ => changed)
      return .applied
    else if n.isPrimaryFor m.key then
      Task.modify (·.mapDirectory fun _ => changed)
      if outcome = .applied then replicate m
      return outcome
    else return .notResponsible

end Protocol

end ChunkDirectory
