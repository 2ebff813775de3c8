import ChunkDirectory.Message
import ChunkDirectory.Tree.Digest

/-!
# Messages as terms

How the parts of a message are named and nested, apart from any notation. Error texts and reports
show messages in two notations of the same terms.
-/

namespace ChunkDirectory

/-- A value laid out for display. -/
inductive Term where
  /-- A number of at most 32 bits. -/
  | number (n : Nat)
  /-- A number of 64 bits. -/
  | wide (n : Nat)
  | truth (b : Bool)
  | quoted (s : String)
  | none
  | some (value : Term)
  /-- An alternative without content. -/
  | name (s : String)
  /-- An alternative with one value. -/
  | choice (name : String) (value : Term)
  /-- An alternative with fields. -/
  | variant (name : String) (fields : List (String × Term))
  /-- A value of a type of its own. -/
  | wrapped (type : String) (value : Term)
  | record (type : String) (fields : List (String × Term))
  | pair (first second : Term)
  | list (items : List Term)
  | map (entries : List (Term × Term))
  /-- Entries by number, in an order that has no meaning. -/
  | table (entries : List (Nat × Term))

namespace Term

def node (id : NodeId) : Term := .wrapped "NodeId" (.number id.toNat)

def nodes (ids : List NodeId) : Term := .list (ids.map node)

def chunk (c : ChunkId) : Term := .wide c.bits.toNat

def option {α : Type} (f : α → Term) : Option α → Term
  | .some a => .some (f a)
  | .none => .none

def peers (b : BackupPeers) : Term := .wrapped "BackupPeers" (nodes b.toList)

def rangeStart : RangeStart → Term
  | .created first => .choice "Created" (chunk first)
  | .migration batch => .choice "Migration" (.number batch.toNat)

def backupRange (r : BackupRange) : Term :=
  .record "BackupRange" [("start", rangeStart r.start), ("backups", peers r.backups)]

def locations (l : Locations) : Term :=
  .record "Locations" [("primary", node l.primary), ("backups", peers l.backups),
    ("range", .pair (chunk l.first) (chunk l.last))]

/-- A tree with all it holds. -/
def tree (t : LookupTree) : Term :=
  .record "LookupTree" [("creator", node t.creator), ("status", .truth t.alive),
    ("owners", .map (t.owners.entries.map fun e => (.wide e.1.toNat, option node e.2))),
    ("backup_ranges", .map (t.backupRanges.entries.map fun e => (.wide e.1.toNat, peers e.2))),
    ("migration_ranges",
      .map (t.migrationRanges.entries.map fun e => (.number e.1.toNat, peers e.2)))]

/-- A creator and a digest. -/
def digest (creator : NodeId) (digest : UInt64) : Term := .pair (node creator) (.wide digest.toNat)

/-- A tree by its digest. -/
def treeDigest (t : LookupTree) : Term := digest t.creator t.digest

def mappings (l : List (ApplicationId × ChunkId)) : Term :=
  .table (l.map fun e => (e.1.val.toNat, chunk e.2))

def status : RequestStatus → Term
  | .applied => .name "Applied"
  | .notResponsible => .name "NotResponsible"
  | .uninitialized => .name "Uninitialized"
  | .invalidRequest => .name "InvalidRequest"
  | .notSuperpeer => .name "NotSuperpeer"

section Messages

variable (tree : LookupTree → Term)

/-- A snapshot, its trees laid out by `tree`. -/
def snapshot (s : Snapshot) : Term :=
  .record "OverlaySnapshot" [("predecessor", option node s.predecessor),
    ("successor", option node s.successor), ("superpeers", nodes s.superpeers),
    ("peers", nodes s.peers), ("trees", .list (s.trees.map tree)),
    ("mappings", mappings s.mappings)]

/-- A message, its trees laid out by `tree`. -/
def message : Message → Term
  | .join n s => .variant "Join" [("node", node n), ("is_superpeer", .truth s)]
  | .joinRedirect contact => .variant "JoinRedirect" [("contact", node contact)]
  | .joinAccepted s => .variant "JoinAccepted" [("snapshot", snapshot tree s)]
  | .joinAcceptedPeer l => .variant "JoinAcceptedPeer" [("superpeers", nodes l)]
  | .lookup c => .variant "Lookup" [("chunk", chunk c)]
  | .lookupResult l => .variant "LookupResult" [("locations", option locations l)]
  | .getBackupRanges n => .variant "GetBackupRanges" [("node", node n)]
  | .backupRanges r =>
    .variant "BackupRanges" [("ranges", option (fun l => .list (l.map backupRange)) r)]
  | .updateAll owner restorer b =>
    .variant "UpdateAll"
      [("owner", node owner), ("restorer", node restorer), ("is_backup", .truth b)]
  | .initRange start owner backups b =>
    .variant "InitRange" [("start", rangeStart start), ("owner", node owner),
      ("backups", peers backups), ("is_backup", .truth b)]
  | .migrate c n b =>
    .variant "Migrate" [("chunk", chunk c), ("node", node n), ("is_backup", .truth b)]
  | .migrateRange start stop n b =>
    .variant "MigrateRange" [("start", chunk start), ("end", chunk stop), ("node", node n),
      ("is_backup", .truth b)]
  | .remove chunks b =>
    .variant "Remove" [("chunks", .list (chunks.map chunk)), ("is_backup", .truth b)]
  | .insertId id c b =>
    .variant "InsertId"
      [("id", .number id.val.toNat), ("chunk", chunk c), ("is_backup", .truth b)]
  | .status s => .variant "Status" [("status", status s)]
  | .getChunkId id => .variant "GetChunkId" [("id", .number id.val.toNat)]
  | .chunkIdResult c => .variant "ChunkIdResult" [("chunk", option chunk c)]
  | .getMappingCount => .name "GetMappingCount"
  | .mappingCount count => .variant "MappingCount" [("count", .wide count.toNat)]
  | .askAboutSuccessor => .name "AskAboutSuccessor"
  | .successorIs s => .variant "SuccessorIs" [("successor", option node s)]
  | .askAboutBackups known =>
    .variant "AskAboutBackups" [("known", .list (known.map fun e => digest e.1 e.2))]
  | .backups trees ms =>
    .variant "Backups" [("trees", .list (trees.map tree)), ("mappings", mappings ms)]
  | .notifyAboutNewPredecessor n => .variant "NotifyAboutNewPredecessor" [("node", node n)]
  | .notifyAboutNewSuccessor n => .variant "NotifyAboutNewSuccessor" [("node", node n)]
  | .pingSuperpeer => .name "PingSuperpeer"
  | .searchForPeer => .name "SearchForPeer"
  | .foundPeer peer => .variant "FoundPeer" [("peer", option node peer)]
  | .promotePeer s replacement =>
    .variant "PromotePeer" [("snapshot", snapshot tree s), ("replacement", node replacement)]
  | .promotionResult success => .variant "PromotionResult" [("success", .truth success)]
  | .delegatePromotePeer hops => .variant "DelegatePromotePeer" [("hops", .number hops.toNat)]
  | .notifyAboutFailedPeer failed => .variant "NotifyAboutFailedPeer" [("failed", node failed)]
  | .startRecovery failed range =>
    .variant "StartRecovery" [("failed", node failed), ("range", rangeStart range)]
  | .sendBackups trees ms =>
    .variant "SendBackups" [("trees", .list (trees.map tree)), ("mappings", mappings ms)]
  | .sendSuperpeers l => .variant "SendSuperpeers" [("superpeers", nodes l)]
  | .ack => .name "Ack"
  | .error s => .variant "Error" [("message", .quoted s)]

end Messages

/-- The name of an alternative. -/
def tag : Term → String
  | .name s => s
  | .choice s _ => s
  | .variant s _ => s
  | _ => ""

end Term

/-- What kind of message it is. -/
def Message.kind (m : Message) : String := (Term.message Term.treeDigest m).tag

/-- The name of an outcome. -/
def RequestStatus.name (s : RequestStatus) : String := (Term.status s).tag

end ChunkDirectory
