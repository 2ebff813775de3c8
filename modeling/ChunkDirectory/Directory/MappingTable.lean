import ChunkDirectory.Chunk
import ChunkDirectory.SortedMap

/-!
# The mapping table

The chunk each application identifier stands for. Tests on entries see the position of the
identifier on the ring, which decides what superpeer stores it.
-/

namespace ChunkDirectory

instance : Ranked ApplicationId :=
  ⟨fun id => id.val.toNat, fun {a b} h => by
    cases a; cases b; exact congrArg ApplicationId.mk (UInt32.toNat_inj.mp h)⟩

/-- Chunks by application identifier. -/
structure MappingTable where
  byId : SortedMap ApplicationId ChunkId
deriving DecidableEq, Inhabited

namespace MappingTable

def empty : MappingTable := ⟨∅⟩

def size (table : MappingTable) : Nat := table.byId.size

def isEmpty (table : MappingTable) : Bool := table.byId.isEmpty

def entries (table : MappingTable) : List (ApplicationId × ChunkId) := table.byId.entries

/-- Maps an identifier to a chunk, replacing what it stood for. -/
def put (table : MappingTable) (id : ApplicationId) (chunk : ChunkId) : MappingTable :=
  ⟨table.byId.insert id chunk⟩

/-- Enters mappings in turn. -/
def putAll (table : MappingTable) (l : List (ApplicationId × ChunkId)) : MappingTable :=
  ⟨table.byId.insertAll l⟩

def get? (table : MappingTable) (id : ApplicationId) : Option ChunkId := table.byId.get? id

/-- Drops the entries at positions a test does not hold of. -/
def retain (table : MappingTable) (keep : NodeId → Bool) : MappingTable :=
  ⟨table.byId.filter fun id _ => keep id.position⟩

/-- The entries at positions a test holds of. -/
def entriesWhere (table : MappingTable) (keep : NodeId → Bool) : List (ApplicationId × ChunkId) :=
  (table.retain keep).entries

/-- How many entries are at positions a test holds of. -/
def countWhere (table : MappingTable) (keep : NodeId → Bool) : Nat := (table.retain keep).size

end MappingTable

end ChunkDirectory
