/-!
# Arrangements

The orders that a number of things can be put in. Chance may put a list in any of them.
-/

namespace ChunkDirectory

/-- An order of `size` things, which are known by their numbers. -/
structure Arrangement (size : Nat) where
  /-- Who stands at each place. -/
  places : List (Fin size)
  /-- Everybody stands at one place. -/
  complete : places.Perm (List.finRange size)

namespace Arrangement

/-- A list whose elements are put in order. -/
def apply {α : Type} {l : List α} (a : Arrangement l.length) : List α := a.places.map l.get

/-- Those at the left go to the right end, so many of them. -/
def turn (steps size : Nat) : Arrangement size where
  places := (List.finRange size).rotateLeft steps
  complete := by
    unfold List.rotateLeft
    dsimp only
    split
    · exact .refl _
    · have happend := List.take_append_drop (steps % (List.finRange size).length)
        (List.finRange size)
      exact List.perm_append_comm.trans (.of_eq happend)

end Arrangement

end ChunkDirectory
