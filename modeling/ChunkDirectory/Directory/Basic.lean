import ChunkDirectory.Directory.MappingTable
import ChunkDirectory.Directory.TreeTable

/-!
# Directories

What a superpeer stores: lookup trees and mappings, its own and the copies it keeps for others.
-/

namespace ChunkDirectory

/-- The metadata held by a superpeer. -/
structure Directory where
  trees : TreeTable
  mappings : MappingTable
deriving DecidableEq, Inhabited

def Directory.empty : Directory := ⟨.empty, .empty⟩

end ChunkDirectory
