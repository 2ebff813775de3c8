import ChunkDirectory.Ring.Basic

/-!
# Areas of responsibility

The part of the ring a superpeer keeps metadata for: its own range and the ranges of the three
superpeers before it, whose copies it holds. A ring with at most three other superpeers keeps
everything everywhere.
-/

namespace ChunkDirectory

/-- A part of the ring that ends at a superpeer. -/
inductive Area where
  /-- The whole ring. -/
  | everything
  /-- What lies after `start`, up to and including `stop`. -/
  | window (start stop : NodeId)
deriving DecidableEq

/-- Whether a creator or position belongs to the area. -/
def Area.contains (area : Area) (id : NodeId) : Bool :=
  match area with
  | .everything => true
  | .window start stop => Arc.contains ⟨start, stop, .upperClosed⟩ id

/-- What a superpeer at `id` keeps metadata for. The window starts at the fourth known superpeer
counter-clockwise of `id`. -/
def Ring.area (r : Ring) (id : NodeId) : Area :=
  if r.superpeers.size ≤ replicas then .everything
  else
    match (r.superpeers.roundFrom id).reverse[replicas]? with
    | some start => .window start id
    | none => .everything

end ChunkDirectory
