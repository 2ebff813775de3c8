import ChunkDirectory.Tree.Digest

/-!
# The tree table

The lookup trees a superpeer holds, one per creator, in the order of the creators. Most questions
concern a part of the ring and take a test on creators.
-/

namespace ChunkDirectory

instance : Ranked NodeId := ⟨NodeId.toNat, NodeId.toNat_injective⟩

/-- Lookup trees by creator. -/
structure TreeTable where
  byCreator : SortedMap NodeId LookupTree
deriving DecidableEq, Inhabited

namespace TreeTable

def empty : TreeTable := ⟨∅⟩

def size (table : TreeTable) : Nat := table.byCreator.size

def isEmpty (table : TreeTable) : Bool := table.byCreator.isEmpty

/-- The tree of a creator. -/
def get? (table : TreeTable) (creator : NodeId) : Option LookupTree := table.byCreator.get? creator

/-- The tree of a creator, a new one if there is none. -/
def getOrNew (table : TreeTable) (creator : NodeId) : LookupTree :=
  (table.get? creator).getD (.new creator)

/-- Puts a tree in place of any tree of the same creator. -/
def insert (table : TreeTable) (tree : LookupTree) : TreeTable :=
  ⟨table.byCreator.insert tree.creator tree⟩

/-- Inserts trees in turn. -/
def insertAll (table : TreeTable) (trees : List LookupTree) : TreeTable :=
  trees.foldl insert table

/-- Changes the tree of a creator, if there is one. -/
def modify (table : TreeTable) (creator : NodeId) (f : LookupTree → LookupTree) : TreeTable :=
  ⟨table.byCreator.modify creator f⟩

/-- Changes the tree of a creator, a new one if there is none. -/
def update (table : TreeTable) (creator : NodeId) (f : LookupTree → LookupTree) : TreeTable :=
  ⟨table.byCreator.insert creator (f (table.getOrNew creator))⟩

/-- Where a chunk lives, `none` if it was removed or its creator has no tree. -/
def locate (table : TreeTable) (chunk : ChunkId) : Option Locations :=
  (table.get? chunk.creator).bind (·.locate chunk)

/-- The creators a test holds of. -/
def creatorsWhere (table : TreeTable) (keep : NodeId → Bool) : List NodeId :=
  table.byCreator.keys.filter keep

/-- The trees of the creators a test holds of. -/
def treesWhere (table : TreeTable) (keep : NodeId → Bool) : List LookupTree :=
  (table.byCreator.filter fun creator _ => keep creator).values

/-- Creators and digests of the trees whose creators a test holds of. -/
def digestsWhere (table : TreeTable) (keep : NodeId → Bool) : List (NodeId × UInt64) :=
  (table.byCreator.filter fun creator _ => keep creator).entries.map fun e => (e.1, e.2.digest)

/-- Drops the trees whose creators a test does not hold of. -/
def retain (table : TreeTable) (keep : NodeId → Bool) : TreeTable :=
  ⟨table.byCreator.filter fun creator _ => keep creator⟩

/-- Drops a peer from the backups of every tree. -/
def eraseBackup (table : TreeTable) (peer : NodeId) : TreeTable :=
  ⟨table.byCreator.mapValues fun _ tree => tree.eraseBackup peer⟩

/-- Records whether a creator is alive, if it has a tree. -/
def setAlive (table : TreeTable) (creator : NodeId) (alive : Bool) : TreeTable :=
  table.modify creator (·.setAlive alive)

/-- Hands every object of `owner` to `restorer`, in all trees. -/
def reassign (table : TreeTable) (owner restorer : NodeId) : TreeTable :=
  ⟨table.byCreator.mapValues fun _ tree => tree.reassign owner restorer⟩

end TreeTable

end ChunkDirectory
