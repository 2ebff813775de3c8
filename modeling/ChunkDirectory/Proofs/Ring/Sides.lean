import ChunkDirectory.Proofs.Ring.Exact

/-!
# The two sides of a node

What is said of predecessors and of successors differs in the direction only. A node has a neighbour
on each side (`Ring.neighbour`), and distances on a side (`Side.dist`) add up, in either direction,
to the whole way or to the whole way and one full turn (`Side.dist_add`). The nearest of some nodes
on a side (`Closest`) is one node at most.
-/

namespace ChunkDirectory

open NodeId

/-- A side of a node on the ring. -/
inductive Side where
  | before
  | after
deriving DecidableEq

namespace Side

variable {side : Side} {me a b : NodeId}

/-- How far `x` is away from `me` on a side. -/
def dist (side : Side) (me x : NodeId) : Nat :=
  match side with
  | .before => clockwise x me
  | .after => clockwise me x

theorem dist_lt (side : Side) (a b : NodeId) : side.dist a b < 65536 := by
  cases side with
  | before => exact clockwise_lt b a
  | after => exact clockwise_lt a b

@[simp] theorem dist_self (side : Side) (a : NodeId) : side.dist a a = 0 := by
  cases side <;> exact clockwise_self a

theorem dist_pos (h : a ≠ b) : 0 < side.dist a b := by
  cases side with
  | before => exact clockwise_pos h.symm
  | after => exact clockwise_pos h

/-- Two stretches make the whole, or the whole and one full turn. -/
theorem dist_add (side : Side) (a b c : NodeId) :
    side.dist a b + side.dist b c = side.dist a c ∨
      side.dist a b + side.dist b c = side.dist a c + 65536 := by
  cases side with
  | before =>
    simp only [dist]
    rw [Nat.add_comm]
    exact clockwise_add c b a
  | after => exact clockwise_add a b c

/-- Nodes that are equally far away on a side are equal. -/
theorem dist_injective (h : side.dist me a = side.dist me b) : a = b := by
  cases side with
  | before => exact eq_of_clockwise_to h
  | after => exact eq_of_clockwise_from h

end Side

/-- The neighbour on a side. -/
def Ring.neighbour (r : Ring) : Side → Option NodeId
  | .before => r.predecessor
  | .after => r.successor

/-! ## The nearest of several -/

/-- `x` is the candidate that is nearest to `me` on a side. -/
def Closest (side : Side) (me : NodeId) (candidate : NodeId → Prop) (x : NodeId) : Prop :=
  candidate x ∧ ∀ y, candidate y → side.dist me x ≤ side.dist me y

namespace Closest

variable {side : Side} {me x y : NodeId} {candidate candidate' : NodeId → Prop}

theorem unique (hx : Closest side me candidate x) (hy : Closest side me candidate y) : x = y :=
  Side.dist_injective (Nat.le_antisymm (hx.2 y hy.1) (hy.2 x hx.1))

theorem congr (h : ∀ z, candidate z ↔ candidate' z) (hx : Closest side me candidate x) :
    Closest side me candidate' x :=
  ⟨(h x).mp hx.1, fun y hy => hx.2 y ((h y).mpr hy)⟩

/-- The nearest of the nearest of some and others is the nearest of all. -/
theorem next (hx : Closest side me candidate x)
    (hy : Closest side me (fun z => z = x ∨ candidate' z) y) :
    Closest side me (fun z => candidate z ∨ candidate' z) y := by
  constructor
  · rcases hy.1 with rfl | hother
    · exact .inl hx.1
    · exact .inr hother
  · rintro z (hz | hz)
    · exact Nat.le_trans (hy.2 x (.inl rfl)) (hx.2 z hz)
    · exact hy.2 z (.inr hz)

end Closest

namespace NodeSet

variable {s : NodeSet} {me x y : NodeId}

theorem closest_before_iff (h : me ∉ s) : Closest .before me (· ∈ s) x ↔ s.Before me x := by
  have hne : ∀ y ∈ s, y ≠ me := fun y hy heq => h (heq ▸ hy)
  exact ⟨fun hx => ⟨hx.1, hne x hx.1, fun y hy _ => hx.2 y hy⟩,
    fun hx => ⟨hx.1, fun y hy => hx.2.2 y hy (hne y hy)⟩⟩

theorem closest_after_iff (h : me ∉ s) : Closest .after me (· ∈ s) x ↔ s.After me x := by
  have hne : ∀ y ∈ s, y ≠ me := fun y hy heq => h (heq ▸ hy)
  exact ⟨fun hx => ⟨hx.1, hne x hx.1, fun y hy _ => hx.2 y hy⟩,
    fun hx => ⟨hx.1, fun y hy => hx.2.2 y hy (hne y hy)⟩⟩

/-- Among some nodes there is a nearest one. -/
theorem exists_closest (side : Side) (me : NodeId) (hy : y ∈ s) :
    ∃ x, Closest side me (· ∈ s) x := by
  by_cases h : me ∈ s
  · exact ⟨me, h, fun z _ => by rw [Side.dist_self]; exact Nat.zero_le _⟩
  have hne : y ≠ me := fun heq => h (heq ▸ hy)
  cases side with
  | before =>
    obtain ⟨x, hx⟩ := exists_before hy hne
    exact ⟨x, (closest_before_iff h).mpr hx⟩
  | after =>
    obtain ⟨x, hx⟩ := exists_after hy hne
    exact ⟨x, (closest_after_iff h).mpr hx⟩

end NodeSet

end ChunkDirectory
