import ChunkDirectory.Directory.TreeTable

/-!
# Connection slots

A client has at most five connections to a node at a time. A slot is taken before a connection is
made and given back some time after the connection is closed.
-/

namespace ChunkDirectory

/-- The number of slots taken, by node. -/
structure Connections where
  active : SortedMap NodeId Nat
deriving DecidableEq

namespace Connections

/-- How many connections to one node may be open at once. -/
def limit : Nat := 5

def none : Connections := ⟨∅⟩

/-- The number of slots taken at a node. -/
def count (c : Connections) (node : NodeId) : Nat := (c.active.get? node).getD 0

/-- Takes a slot, if one is free. -/
def acquire (c : Connections) (node : NodeId) : Option Connections :=
  if c.count node < limit then some ⟨c.active.insert node (c.count node + 1)⟩ else .none

/-- Gives a slot back. -/
def release (c : Connections) (node : NodeId) : Connections := ⟨c.active.modify node (· - 1)⟩

end Connections

end ChunkDirectory
