import ChunkDirectory.NodeSet
import ChunkDirectory.Tree.Backups

/-!
# Storage without a chunk store

What the storage layer answers in a deployment that only runs the directory. The nodes of the
address book count as holding data, there is never anything to hand over, and nothing can be
recovered.
-/

namespace ChunkDirectory

/-- The nodes that count as holding data. -/
structure AddressBookStorage where
  dataNodes : NodeSet
deriving DecidableEq

namespace AddressBookStorage

def ofList (nodes : List NodeId) : AddressBookStorage := ⟨.ofList nodes⟩

/-- Whether a node is registered as holding data. -/
def available (s : AddressBookStorage) (node : NodeId) : Bool := s.dataNodes.contains node

/-- Moves all objects of the local node, of which there are none. -/
def handOver (_ : AddressBookStorage) (_ : NodeId) : Bool := true

/-- Rebuilds the primary copies of a failed node's range, which needs a chunk store. -/
def recover (_ : AddressBookStorage) (_ : NodeId) (_ : RangeStart) : Bool := false

end AddressBookStorage

end ChunkDirectory
