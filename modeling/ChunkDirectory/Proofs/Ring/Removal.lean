import ChunkDirectory.Proofs.Ring.Sides
import ChunkDirectory.Proofs.Ring.Tended

/-!
# Neighbours that are removed

A pointer that named a superpeer which is removed moves past it: going on from the one that is gone,
it comes to the nearest one that is left (`Ring.MovedPast`). This need not be the nearest one to the
node itself. A list may name superpeers that are nearer than the one a pointer names, since pointers
are set without a look at the list and superpeers are listed without a look at the pointers. The
pointer then passes those between the node and the one that is gone, unless all that are left are
there.

Pointers that name the nearest superpeers do so again after a removal, and after any number of them
(`Ring.Near.removeSuperpeers`).
-/

namespace ChunkDirectory

open NodeId

variable {side : Side} {s : NodeSet} {me gone x y : NodeId} {pointer : Option NodeId}

/-! ## Nearest to the node and to the one that is gone -/

/-- Seen from `me`, another node lies beyond the one that is gone or before it, which makes it a
full turn from there. -/
theorem Side.beyond_or_before (side : Side) (me : NodeId) (hne : gone ≠ y) :
    side.dist me gone < side.dist me y ∧
        side.dist me gone + side.dist gone y = side.dist me y ∨
      side.dist me y < side.dist me gone ∧
        side.dist me gone + side.dist gone y = side.dist me y + 65536 := by
  have hadd := side.dist_add me gone y
  have hpos : 0 < side.dist gone y := Side.dist_pos hne
  have hlt := side.dist_lt gone y
  omega

namespace NodeSet

/-- If all members are on one side of the one that is gone, the nearest one to it is the nearest one
to the node. -/
theorem closest_gone_iff (hgone : gone ∉ s)
    (h : (∀ y ∈ s, side.dist me gone < side.dist me y) ∨
      ∀ y ∈ s, side.dist me y < side.dist me gone) :
    Closest side gone (· ∈ s) x ↔ Closest side me (· ∈ s) x := by
  refine and_congr_right fun hx => forall₂_congr fun y hy => ?_
  have hfrom := side.beyond_or_before me fun heq : gone = x => hgone (heq ▸ hx)
  have hfrom' := side.beyond_or_before me fun heq : gone = y => hgone (heq ▸ hy)
  rcases h with h | h
  · have hxside := h x hx
    have hyside := h y hy
    omega
  · have hxside := h x hx
    have hyside := h y hy
    omega

/-- With members on both sides, the nearest one to the node is passed. -/
theorem not_closest_of_between (hgone : gone ∉ s) {near far : NodeId} (hnear : near ∈ s)
    (hbefore : side.dist me near < side.dist me gone) (hfar : far ∈ s)
    (hbeyond : side.dist me gone < side.dist me far) (hx : Closest side gone (· ∈ s) x) :
    ¬ Closest side me (· ∈ s) x := by
  intro hme
  have hfrom := side.beyond_or_before me fun heq : gone = x => hgone (heq ▸ hx.1)
  have hfrom' := side.beyond_or_before me fun heq : gone = far => hgone (heq ▸ hfar)
  have hclosest := hx.2 far hfar
  have hclosest' := hme.2 near hnear
  have hlt := side.dist_lt me far
  omega

/-- If the nearest member is left out, all others lie beyond it. -/
theorem beyond_of_closest (h : Closest side me (· ∈ s) gone) :
    ∀ y ∈ s.erase gone, side.dist me gone < side.dist me y := fun y hy => by
  obtain ⟨hy, hne⟩ := mem_erase.mp hy
  exact Nat.lt_of_le_of_ne (h.2 y hy) fun heq => hne (Side.dist_injective heq).symm

theorem closest_erase_iff (h : Closest side me (· ∈ s) y) (hne : y ≠ gone) :
    Closest side me (· ∈ s.erase gone) x ↔ Closest side me (· ∈ s) x := by
  have herase : Closest side me (· ∈ s.erase gone) y :=
    ⟨mem_erase.mpr ⟨h.1, hne⟩, fun z hz => h.2 z (mem_erase.mp hz).1⟩
  exact ⟨fun hx => hx.unique herase ▸ h, fun hx => hx.unique h ▸ herase⟩

end NodeSet

namespace Ring

variable {r : Ring} {id : NodeId}

/-! ## One superpeer -/

/-- A pointer has moved past a superpeer that is gone. -/
structure MovedPast (side : Side) (remaining : NodeSet) (me gone : NodeId)
    (pointer : Option NodeId) : Prop where
  /-- It names who comes next after the one that is gone. -/
  next : ∀ x, pointer = some x ↔ Closest side gone (· ∈ remaining) x
  none : pointer = none ↔ ∀ x, x ∉ remaining
  /-- This is the nearest one to the node exactly if the others are all beyond the one that is gone
  or all before it. -/
  nearest : (∀ x, pointer = some x ↔ Closest side me (· ∈ remaining) x) ↔
    (∀ x ∈ remaining, side.dist me gone < side.dist me x) ∨
      ∀ x ∈ remaining, side.dist me x < side.dist me gone

theorem movedPast_of_next (hgone : gone ∉ s)
    (hnext : ∀ x, pointer = some x ↔ Closest side gone (· ∈ s) x) (me : NodeId) :
    MovedPast side s me gone pointer := by
  refine ⟨hnext, ?_, ?_⟩
  · constructor
    · intro hnone y hy
      obtain ⟨x, hx⟩ := NodeSet.exists_closest side gone hy
      rw [(hnext x).mpr hx] at hnone
      cases hnone
    · intro hempty
      cases pointer with
      | none => rfl
      | some x => exact absurd ((hnext x).mp rfl).1 (hempty x)
  · constructor
    · intro hme
      by_contra hsides
      push Not at hsides
      obtain ⟨⟨near, hnear, hnotBeyond⟩, far, hfar, hnotBefore⟩ := hsides
      have hbefore := side.beyond_or_before me fun heq : gone = near => hgone (heq ▸ hnear)
      have hbeyond := side.beyond_or_before me fun heq : gone = far => hgone (heq ▸ hfar)
      obtain ⟨x, hx⟩ := NodeSet.exists_closest side gone hnear
      exact NodeSet.not_closest_of_between hgone hnear (by omega) hfar (by omega) hx
        ((hme x).mp ((hnext x).mpr hx))
    · intro hside x
      rw [hnext, NodeSet.closest_gone_iff hgone hside]

theorem superpeers_removeSuperpeer (h : id ∈ r.superpeers) :
    (r.removeSuperpeer id).superpeers = r.superpeers.erase id := by
  rw [removeSuperpeer_of_mem h]

/-- A pointer that named the superpeer moves past it. -/
theorem movedPast_removeSuperpeer (h : id ∈ r.superpeers) (hpointer : r.neighbour side = some id) :
    MovedPast side (r.superpeers.erase id) r.me id ((r.removeSuperpeer id).neighbour side) := by
  have hgone : id ∉ r.superpeers.erase id := fun hid => (NodeSet.mem_erase.mp hid).2 rfl
  refine movedPast_of_next hgone (fun x => ?_) r.me
  rw [removeSuperpeer_of_mem h]
  cases side with
  | before =>
    rw [NodeSet.closest_before_iff hgone]
    have hp : r.predecessor = some id := hpointer
    simp only [neighbour, hp, if_true]
    exact previousBefore_eq_some_iff
  | after =>
    rw [NodeSet.closest_after_iff hgone]
    have hq : r.successor = some id := hpointer
    simp only [neighbour, hq, if_true]
    exact nextAfter_eq_some_iff

/-- Other pointers stay. -/
theorem neighbour_removeSuperpeer_of_ne (hpointer : r.neighbour side ≠ some id) :
    (r.removeSuperpeer id).neighbour side = r.neighbour side := by
  unfold removeSuperpeer
  split
  · cases side with
    | before => exact if_neg hpointer
    | after => exact if_neg hpointer
  · rfl

/-- What becomes of the pointers when a superpeer is removed: one that named it moves past it, to
the nearest one that is left, and any other stays. -/
theorem pointers_removed {r : Ring} {id : NodeId} (h : id ∈ r.superpeers) :
    (r.successor = some id → MovedPast .after (r.removeSuperpeer id).superpeers r.me id
      (r.removeSuperpeer id).successor) ∧
    (r.predecessor = some id → MovedPast .before (r.removeSuperpeer id).superpeers r.me id
      (r.removeSuperpeer id).predecessor) ∧
    (r.successor ≠ some id → (r.removeSuperpeer id).successor = r.successor) ∧
    (r.predecessor ≠ some id → (r.removeSuperpeer id).predecessor = r.predecessor) := by
  rw [superpeers_removeSuperpeer h]
  have hmoved (side : Side) (hpointer : r.neighbour side = some id) :=
    movedPast_removeSuperpeer h hpointer
  have hkept (side : Side) (hpointer : r.neighbour side ≠ some id) :=
    neighbour_removeSuperpeer_of_ne hpointer
  exact ⟨hmoved .after, hmoved .before, hkept .after, hkept .before⟩

/-- A view that lists a superpeer nearer than the successor: 100 was listed before 200 was set as
the successor of 0. -/
def overtaken : Ring :=
  (((Ring.new ⟨0⟩ ⟨100⟩ 3).insertSuperpeer ⟨100⟩).setSuccessor (some ⟨200⟩)).insertSuperpeer ⟨300⟩

theorem pointers_removed_overtaken :
    MovedPast .after (overtaken.removeSuperpeer ⟨200⟩).superpeers ⟨0⟩ ⟨200⟩ (some ⟨300⟩) ∧
      (overtaken.removeSuperpeer ⟨200⟩).predecessor = none := by
  have hlisted : ⟨200⟩ ∈ overtaken.superpeers := by decide
  obtain ⟨hsuccessor, -, -, hpredecessor⟩ := pointers_removed hlisted
  exact ⟨hsuccessor (by decide), hpredecessor (by decide)⟩

/-- The superpeer that was nearer all the time is passed. -/
theorem overtaken_passed :
    overtaken.successor = some ⟨200⟩ ∧ ⟨200⟩ ∈ overtaken.superpeers ∧
      (overtaken.removeSuperpeer ⟨200⟩).successor = some ⟨300⟩ ∧
      ⟨100⟩ ∈ (overtaken.removeSuperpeer ⟨200⟩).superpeers ∧
      clockwise overtaken.me ⟨100⟩ < clockwise overtaken.me ⟨300⟩ := by
  decide

/-! ## Several superpeers -/

/-- Both pointers name the nearest of the listed superpeers. -/
def Near (r : Ring) : Prop :=
  ∀ side x, r.neighbour side = some x ↔ Closest side r.me (· ∈ r.superpeers) x

theorem Near.removeSuperpeer (h : r.Near) (id : NodeId) : (r.removeSuperpeer id).Near := by
  by_cases hid : id ∈ r.superpeers
  swap
  · have hsame : r.removeSuperpeer id = r := if_neg (by simpa [NodeSet.contains] using hid)
    rwa [hsame]
  intro side
  rw [superpeers_removeSuperpeer hid, me_removeSuperpeer]
  by_cases hpointer : r.neighbour side = some id
  · -- The nearest one is gone, so that the others lie beyond it.
    exact (movedPast_removeSuperpeer hid hpointer).nearest.mpr
      (.inl (NodeSet.beyond_of_closest ((h side id).mp hpointer)))
  · intro x
    obtain ⟨y, hy⟩ := NodeSet.exists_closest side r.me hid
    have hyid : y ≠ id := fun heq => hpointer (heq ▸ (h side y).mpr hy)
    rw [neighbour_removeSuperpeer_of_ne hpointer, h side x, NodeSet.closest_erase_iff hy hyid]

/-- However many superpeers are lost, the pointers name the nearest ones that are left. -/
theorem Near.removeSuperpeers (h : r.Near) (gone : List NodeId) :
    (gone.foldl Ring.removeSuperpeer r).Near :=
  List.foldlRecOn (motive := Near) gone Ring.removeSuperpeer h fun _ hr id _ =>
    hr.removeSuperpeer id

end Ring

end ChunkDirectory
