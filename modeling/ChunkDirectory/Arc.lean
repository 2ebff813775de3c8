import ChunkDirectory.NodeId

/-!
# Arcs of the ring

An arc runs clockwise from one identifier to another. Which of its two ends belong to it is its
kind. When both ends are the same identifier an arc degenerates: closed, it is that single point;
without its lower end it is the whole ring; without either end it is empty.
-/

namespace ChunkDirectory

/-- Which ends of an arc are members. -/
inductive Ends where
  /-- Both ends. -/
  | closed
  /-- The upper end only. -/
  | upperClosed
  /-- Neither end. -/
  | strict
deriving DecidableEq

/-- The identifiers from `start` clockwise to `stop`. -/
structure Arc where
  start : NodeId
  stop : NodeId
  ends : Ends
deriving DecidableEq

namespace Arc

/-- Whether `id` is met on the way from `start` to `stop` at a position the arc includes.

Distances are measured from `start`, so an arc across position 0 needs no case of its own. -/
def contains (arc : Arc) (id : NodeId) : Bool :=
  if arc.start = arc.stop then
    match arc.ends with
    | .closed => id = arc.start
    | .upperClosed => true
    | .strict => false
  else
    let span := arc.start.clockwise arc.stop
    let offset := arc.start.clockwise id
    match arc.ends with
    | .closed => offset ≤ span
    | .upperClosed => offset ≠ 0 && offset ≤ span
    | .strict => offset ≠ 0 && offset < span

end Arc

end ChunkDirectory
