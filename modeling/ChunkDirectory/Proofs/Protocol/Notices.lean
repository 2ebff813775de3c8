import ChunkDirectory.Proofs.Ring.Distance
import ChunkDirectory.Proofs.Ring.Views
import ChunkDirectory.Protocol.Query

/-!
# Neighbours that make themselves known

A superpeer that is told of its predecessor takes the node named for it if that node is nearer than
the predecessor it has, and also for its successor if it had none (`noticePredecessor_of_takes`).
Otherwise nothing changes (`noticePredecessor_of_not_takes`). Successors are noticed in the same way.
Whoever is taken is listed, unless its identifier is reserved. A superpeer that is sent a list of
superpeers takes no part of it and only lists the sender (`noticeSuperpeers_of_superpeer`).
-/

namespace ChunkDirectory

variable {x : NodeId}

/-- An open arc does not hold its lower end. -/
theorem Arc.not_mem_strict_self (x e : NodeId) : Arc.contains ⟨x, e, .strict⟩ x = false := by
  simp [Arc.contains]

namespace Ring

/-- A node is set before this one and, if nobody follows, also behind it. -/
theorem setPredecessor_closing (r : Ring) (hne : x ≠ r.me) :
    ∃ t, (if (r.setPredecessor (some x)).successor.isNone then
          (r.setPredecessor (some x)).setSuccessor (some x) else r.setPredecessor (some x)) =
        { r with
          superpeers := t
          predecessor := some x
          successor := some (r.successor.getD x) } ∧
      ∀ y, y ∈ t ↔ y ∈ r.superpeers ∨ y = x ∧ r.admits y = true := by
  obtain ⟨t, ht, hmem⟩ := setPredecessor_shape r (some x)
  rw [filter_ne hne] at ht
  simp only [Option.some_inj, eq_comm (a := x)] at hmem
  rw [ht]
  cases hq : r.successor with
  | some q => exact ⟨t, by simp, hmem⟩
  | none =>
    obtain ⟨t', ht', hmem'⟩ :=
      setSuccessor_shape { r with predecessor := some x, superpeers := t } (some x)
    rw [filter_ne hne] at ht'
    refine ⟨t', by simpa [hq] using ht', fun y => ?_⟩
    rw [hmem', hmem, Option.some_inj, eq_comm (a := x), or_assoc]
    exact or_congr_right or_self_iff

/-- A node is set behind this one and, if nobody precedes it, also before it. -/
theorem setSuccessor_closing (r : Ring) (hne : x ≠ r.me) :
    ∃ t, (if (r.setSuccessor (some x)).predecessor.isNone then
          (r.setSuccessor (some x)).setPredecessor (some x) else r.setSuccessor (some x)) =
        { r with
          superpeers := t
          predecessor := some (r.predecessor.getD x)
          successor := some x } ∧
      ∀ y, y ∈ t ↔ y ∈ r.superpeers ∨ y = x ∧ r.admits y = true := by
  obtain ⟨t, ht, hmem⟩ := setSuccessor_shape r (some x)
  rw [filter_ne hne] at ht
  simp only [Option.some_inj, eq_comm (a := x)] at hmem
  rw [ht]
  cases hp : r.predecessor with
  | some p => exact ⟨t, by simp, hmem⟩
  | none =>
    obtain ⟨t', ht', hmem'⟩ :=
      setPredecessor_shape { r with successor := some x, superpeers := t } (some x)
    rw [filter_ne hne] at ht'
    refine ⟨t', by simpa [hp] using ht', fun y => ?_⟩
    rw [hmem', hmem, Option.some_inj, eq_comm (a := x), or_assoc]
    exact or_congr_right or_self_iff

end Ring

namespace Node

open Arc

/-- Whether the node, told of `x` as its predecessor, takes it for that. -/
def TakesPredecessor (n : Node) (x : NodeId) : Prop :=
  n.isSuperpeer = true ∧ x ≠ n.me ∧
    ∀ p, n.ring.predecessor = some p → Arc.contains ⟨p, n.me, .strict⟩ x = true

/-- Whether the node, told of `x` as its successor, takes it for that. -/
def TakesSuccessor (n : Node) (x : NodeId) : Prop :=
  n.isSuperpeer = true ∧ x ≠ n.me ∧
    ∀ q, n.ring.successor = some q → Arc.contains ⟨n.me, q, .strict⟩ x = true

variable {n : Node}

theorem noticePredecessor_of_takes (h : n.TakesPredecessor x) :
    ∃ t, n.noticePredecessor x = { n with ring := { n.ring with
          superpeers := t
          predecessor := some x
          successor := some (n.ring.successor.getD x) } } ∧
      ∀ y, y ∈ t ↔ y ∈ n.ring.superpeers ∨ y = x ∧ n.ring.admits y = true := by
  obtain ⟨hrole, hne, hnearer⟩ := h
  obtain ⟨t, ht, hmem⟩ := n.ring.setPredecessor_closing hne
  have hmoved := congrArg (fun r => { n with ring := r }) ht
  refine ⟨t, ?_, hmem⟩
  rw [noticePredecessor, if_neg (by simp [hrole, hne])]
  cases hp : n.ring.predecessor with
  | none => exact (if_pos (by simp)).trans hmoved
  | some p =>
    have hother : p ≠ x := by
      rintro rfl
      have hself := hnearer p hp
      rw [not_mem_strict_self] at hself
      cases hself
    exact (if_pos (by simp [hnearer p hp, hother])).trans hmoved

theorem noticePredecessor_of_not_takes (h : ¬ n.TakesPredecessor x) : n.noticePredecessor x = n := by
  rw [noticePredecessor]
  by_cases hguard : (!n.isSuperpeer || decide (x = n.me)) = true
  · rw [if_pos hguard]
  · simp only [Bool.or_eq_true, Bool.not_eq_true', decide_eq_true_eq, not_or,
      Bool.not_eq_false] at hguard
    have hfar : ∃ p, n.ring.predecessor = some p ∧ Arc.contains ⟨p, n.me, .strict⟩ x = false := by
      by_contra hnone
      push Not at hnone
      exact h ⟨hguard.1, hguard.2, fun p hp => Bool.eq_true_of_not_eq_false (hnone p hp)⟩
    obtain ⟨p, hp, hpx⟩ := hfar
    rw [if_neg (by simp [hguard])]
    simp [hp, hpx]

theorem noticeSuccessor_of_takes (h : n.TakesSuccessor x) :
    ∃ t, n.noticeSuccessor x = { n with ring := { n.ring with
          superpeers := t
          predecessor := some (n.ring.predecessor.getD x)
          successor := some x } } ∧
      ∀ y, y ∈ t ↔ y ∈ n.ring.superpeers ∨ y = x ∧ n.ring.admits y = true := by
  obtain ⟨hrole, hne, hnearer⟩ := h
  obtain ⟨t, ht, hmem⟩ := n.ring.setSuccessor_closing hne
  have hmoved := congrArg (fun r => { n with ring := r }) ht
  refine ⟨t, ?_, hmem⟩
  rw [noticeSuccessor, if_neg (by simp [hrole, hne])]
  cases hp : n.ring.successor with
  | none => exact (if_pos (by simp)).trans hmoved
  | some p =>
    have hother : p ≠ x := by
      rintro rfl
      exact (ne_of_mem_strict (hnearer p hp)) rfl
    exact (if_pos (by simp [hnearer p hp, hother])).trans hmoved

theorem noticeSuccessor_of_not_takes (h : ¬ n.TakesSuccessor x) : n.noticeSuccessor x = n := by
  rw [noticeSuccessor]
  by_cases hguard : (!n.isSuperpeer || decide (x = n.me)) = true
  · rw [if_pos hguard]
  · simp only [Bool.or_eq_true, Bool.not_eq_true', decide_eq_true_eq, not_or,
      Bool.not_eq_false] at hguard
    have hfar : ∃ p, n.ring.successor = some p ∧ Arc.contains ⟨n.me, p, .strict⟩ x = false := by
      by_contra hnone
      push Not at hnone
      exact h ⟨hguard.1, hguard.2, fun p hp => Bool.eq_true_of_not_eq_false (hnone p hp)⟩
    obtain ⟨p, hp, hpx⟩ := hfar
    rw [if_neg (by simp [hguard])]
    simp [hp, hpx]

/-- A superpeer only notes who sends its superpeers. -/
theorem noticeSuperpeers_of_superpeer (hrole : n.isSuperpeer = true) (sender : NodeId)
    (superpeers : List NodeId) :
    n.noticeSuperpeers sender superpeers = n.mapRing (·.insertSuperpeer sender) := by
  unfold noticeSuperpeers
  unfold isSuperpeer directory? at hrole
  cases h : n.role with
  | superpeer d => rfl
  | peer attached =>
    rw [h] at hrole
    cases hrole

end Node

end ChunkDirectory
