import ChunkDirectory.Tree.Basic

/-!
# Tree digests

Superpeers compare digests to find stale copies. A digest is the first eight bytes of the SHA-1 hash
of a byte string that lists the tree's content: big-endian integers, every map after its length, and
the identifier `invalid` where objects were removed.
-/

namespace ChunkDirectory

/-- The bytes of a 16-bit number, most significant first. -/
def bigEndian16 (n : UInt16) : List UInt8 := [(n >>> 8).toUInt8, n.toUInt8]

/-- The bytes of a 32-bit number, most significant first. -/
def bigEndian32 (n : UInt32) : List UInt8 :=
  bigEndian16 (n >>> 16).toUInt16 ++ bigEndian16 n.toUInt16

/-- The bytes of a 64-bit number, most significant first. -/
def bigEndian64 (n : UInt64) : List UInt8 :=
  bigEndian32 (n >>> 32).toUInt32 ++ bigEndian32 n.toUInt32

namespace LookupTree

/-- A list of backups: its length in one byte, then the identifiers. -/
def backupBytes (b : BackupPeers) : List UInt8 :=
  UInt8.ofNat b.size :: b.toList.flatMap fun peer => bigEndian16 peer.val

/-- A map: the number of entries, then each key and value. -/
def mapBytes {κ β : Type} [Ranked κ] (key : κ → List UInt8) (value : β → List UInt8)
    (m : SortedMap κ β) : List UInt8 :=
  bigEndian64 (UInt64.ofNat m.size) ++ m.entries.flatMap fun e => key e.1 ++ value e.2

/-- The byte string that stands for the tree's content. -/
def digestBytes (t : LookupTree) : List UInt8 :=
  bigEndian16 t.creator.val ++ [if t.alive then 1 else 0]
    ++ mapBytes bigEndian64 (fun owner => bigEndian16 (owner.getD .invalid).val) t.owners
    ++ mapBytes bigEndian64 backupBytes t.backupRanges
    ++ mapBytes bigEndian32 backupBytes t.migrationRanges

/-- The fingerprint by which superpeers spot stale copies. -/
def digest (t : LookupTree) : UInt64 :=
  ((Sha1.hash t.digestBytes).take 8).foldl (fun d byte => d <<< 8 ||| byte.toUInt64) 0

end LookupTree

end ChunkDirectory
