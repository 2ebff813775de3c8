import ChunkDirectory.Overlay.Basic

/-!
# Views of nodes

What is seen of the nodes of an overlay from outside, and which of it a run has changed. Trees are
seen by their digests.
-/

namespace ChunkDirectory

/-- What is seen of a superpeer's directory. -/
structure DirectoryView where
  digests : List (NodeId × UInt64)
  mappings : List (ApplicationId × ChunkId)
deriving DecidableEq

/-- What is seen of a node. -/
structure NodeView where
  id : NodeId
  /-- The superpeer a peer is attached to. -/
  superpeer : Option NodeId
  ring : Ring
  upkeep : UpkeepState
  /-- Only superpeers have a directory. -/
  directory : Option DirectoryView
deriving DecidableEq

/-- What is seen of a directory. -/
def Directory.view (d : Directory) : DirectoryView :=
  ⟨d.trees.digestsWhere fun _ => true, d.mappings.entries⟩

/-- What is seen of a node. -/
def Node.view (n : Node) (upkeep : UpkeepState) : NodeView :=
  ⟨n.me, n.mySuperpeer, n.ring, upkeep, n.directory?.map (·.view)⟩

namespace Overlay

variable {ρ : Type}

/-- The running nodes in ascending order, each with what is carried between its rounds of upkeep. -/
def running (o : Overlay ρ) : List (Node × UpkeepState) :=
  o.members.values.filterMap fun m => o.nodes[m.node]?.map (·, m.upkeep)

/-- Whether a node is seen the same way as before. -/
def unchanged (before : Overlay ρ) (n : Node) (upkeep : UpkeepState) : Bool :=
  match before.running? n.me with
  | none => false
  | some (old, was) =>
    (was = n && old.upkeep = upkeep) || was.view old.upkeep = n.view upkeep

/-- The views of the running nodes that are new or seen in another way than before. -/
def changes (before after : Overlay ρ) : List NodeView :=
  (after.running.filter fun (n, upkeep) => !before.unchanged n upkeep).map fun (n, upkeep) =>
    n.view upkeep

end Overlay

end ChunkDirectory
