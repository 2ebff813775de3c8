import ChunkDirectory.NodeId
import ChunkDirectory.Sha1

/-!
# Chunk and application identifiers

A chunk identifier names an object: its upper 16 bits are the node that created it, its lower 48 bits
the object's local identifier there. An application identifier is a short name chosen by users; the
superpeer that stores its mapping is found by hashing it to a position on the ring.
-/

namespace ChunkDirectory

/-- A chunk identifier: creator in the upper 16 bits, local identifier in the lower 48. -/
structure ChunkId where
  bits : UInt64
deriving DecidableEq, Inhabited

/-- The largest local identifier, and the mask of the 48 bits that hold it. -/
def maxLocalId : UInt64 := 0x0000FFFFFFFFFFFF

namespace ChunkId

/-- The node that created the chunk. -/
def creator (chunk : ChunkId) : NodeId := ⟨(chunk.bits >>> 48).toUInt16⟩

/-- The chunk's identifier at its creator. -/
def localId (chunk : ChunkId) : UInt64 := chunk.bits &&& maxLocalId

/-- The chunk of `creator` with local identifier `localId`, of which only 48 bits count. -/
def make (creator : NodeId) (localId : UInt64) : ChunkId :=
  ⟨creator.val.toUInt64 <<< 48 ||| (localId &&& maxLocalId)⟩

end ChunkId

/-- An application-chosen name for a chunk. -/
structure ApplicationId where
  val : UInt32
deriving DecidableEq, Inhabited

namespace ApplicationId

/-- The position of an application identifier on the ring: the first two bytes of the SHA-1 hash of
its four bytes, both big-endian. -/
def position (id : ApplicationId) : NodeId :=
  match Sha1.hash (Sha1.wordBytes id.val) with
  | high :: low :: _ => ⟨high.toUInt16 <<< 8 ||| low.toUInt16⟩
  | _ => ⟨0⟩

end ApplicationId

end ChunkDirectory
