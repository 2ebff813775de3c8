import ChunkDirectory.Proofs.Overlay.Direct
import ChunkDirectory.Proofs.Overlay.Settled

/-!
# The loss of a node

A node that fails is gone, and no message reaches it. Nothing else changes: all others are what they
were, and if messages reached them they still do (`Overlay.Direct.fail`).
-/

namespace ChunkDirectory

namespace Overlay

variable {ρ : Type} {o : Overlay ρ} {failed x : NodeId} {n : Node} {slot : Slot}

theorem members_fail : (o.fail failed).members = o.members.erase failed := rfl

theorem nodes_fail : (o.fail failed).nodes = o.nodes := by
  unfold Overlay.fail Overlay.shutDown
  split <;> rfl

theorem rules_fail : (o.fail failed).rules = o.rules := by
  unfold Overlay.fail Overlay.shutDown
  split <;> rfl

/-- A loss makes only one node unreachable and concerns no other condition. -/
theorem holds_fail_iff {condition : Condition} : (o.fail failed).holds condition x = true ↔
    o.holds condition x = true ∨ condition = .down ∧ x = failed := by
  have hconditions : (o.fail failed).conditions = ((o.change .down [failed] []).conditions) := by
    unfold Overlay.fail Overlay.shutDown
    split <;> rfl
  simp [holds, hconditions, change, or_comm]

theorem node?_fail_self : (o.fail failed).node? failed = none := by
  rw [node?_eq_none_iff, running?, members_fail, SortedMap.get?_erase_self]
  rfl

theorem node?_fail_of_ne (hne : x ≠ failed) : (o.fail failed).node? x = o.node? x := by
  rw [node?, node?, running?, running?, members_fail, nodes_fail, SortedMap.get?_erase_of_ne hne]

/-- Who still runs ran before. -/
theorem node?_of_fail (h : (o.fail failed).node? x = some n) :
    x ≠ failed ∧ o.node? x = some n := by
  have hne : x ≠ failed := by
    rintro rfl
    rw [node?_fail_self] at h
    cases h
  exact ⟨hne, (node?_fail_of_ne hne).symm.trans h⟩

theorem read_fail_of_ne (hne : x ≠ failed) : (o.fail failed).read x slot = o.read x slot := by
  rw [read, read, node?_fail_of_ne hne]

/-- The survivors still reach each other. -/
theorem Direct.fail (h : o.Direct) (failed : NodeId) : (o.fail failed).Direct := by
  have hmember : ∀ x member, (o.fail failed).members.get? x = some member →
      x ≠ failed ∧ o.members.get? x = some member := by
    intro x member hx
    rw [members_fail] at hx
    have hne : x ≠ failed := by
      rintro rfl
      rw [SortedMap.get?_erase_self] at hx
      cases hx
    exact ⟨hne, (SortedMap.get?_erase_of_ne hne).symm.trans hx⟩
  refine ⟨rules_fail.trans h.rules, rfl, fun x member hx => ?_, fun x member hx => ?_⟩
  · obtain ⟨hne, hx⟩ := hmember x member hx
    have hup : o.holds .down x = false := h.up x member hx
    show (o.fail failed).holds .down x = false
    rw [← Bool.not_eq_true, holds_fail_iff, hup]
    simp [hne]
  · show ∃ n, (o.fail failed).nodes[member.node]? = some n ∧ n.me = x
    rw [nodes_fail]
    exact h.numbered x member (hmember x member hx).2

end Overlay

end ChunkDirectory
