import ChunkDirectory.Arc

/-!
# Distances on the ring

Clockwise distance is the only measure the ring has. Going on from `b` to `c` after going from `a`
to `b` adds up to the distance from `a` to `c`, or to that and one full turn (`clockwise_add`); all
facts about arcs below follow from this. An arc is then described by how far its members still are
from its upper end (`mem_upperClosed_iff`, `mem_strict_iff`), which is the form in which the owner
of an identifier and the neighbours of a superpeer are compared.
-/

namespace ChunkDirectory

namespace NodeId

/-- Two stretches make the whole, or the whole and one full turn. -/
theorem clockwise_add (a b c : NodeId) :
    clockwise a b + clockwise b c = clockwise a c ∨
      clockwise a b + clockwise b c = clockwise a c + 65536 := by
  have ha := toNat_lt a
  have hb := toNat_lt b
  have hc := toNat_lt c
  rw [clockwise_eq a b, clockwise_eq b c, clockwise_eq a c]
  omega

/-- There and back is one full turn. -/
theorem clockwise_add_swap {a b : NodeId} (h : a ≠ b) :
    clockwise a b + clockwise b a = 65536 := by
  have hab : clockwise a b ≠ 0 := fun e => h (clockwise_eq_zero_iff.mp e)
  have hsum := clockwise_add a b a
  rw [clockwise_self] at hsum
  omega

theorem clockwise_pos {a b : NodeId} (h : a ≠ b) : 0 < clockwise a b :=
  Nat.pos_of_ne_zero fun e => h (clockwise_eq_zero_iff.mp e)

/-- Identifiers at the same distance from a point are equal. -/
theorem eq_of_clockwise_from {a x y : NodeId} (h : clockwise a x = clockwise a y) : x = y := by
  have hsum := clockwise_add a x y
  have hlt := clockwise_lt x y
  exact clockwise_eq_zero_iff.mp (by omega)

/-- Identifiers at the same distance to a point are equal. -/
theorem eq_of_clockwise_to {a x y : NodeId} (h : clockwise x a = clockwise y a) : x = y := by
  have hsum := clockwise_add x y a
  have hlt := clockwise_lt x y
  exact clockwise_eq_zero_iff.mp (by omega)

/-- What is met first from `a` is left last before `a`: the order by distance from a point is the
reverse of the order by distance to it, the point itself left out. -/
theorem clockwise_from_le_iff {a x y : NodeId} (hx : x ≠ a) (hy : y ≠ a) :
    clockwise a x ≤ clockwise a y ↔ clockwise y a ≤ clockwise x a := by
  have hxa := clockwise_add_swap hx
  have hya := clockwise_add_swap hy
  omega

/-- A point no farther from `a` than `c` lies on the way from `a` to `c`. -/
theorem clockwise_add_of_le {a b c : NodeId} (h : clockwise a b ≤ clockwise a c) :
    clockwise a b + clockwise b c = clockwise a c := by
  have hsum := clockwise_add a b c
  have hlt := clockwise_lt b c
  omega

/-- A point no farther from `c` than `a` lies on the way from `a` to `c`. -/
theorem clockwise_add_of_le' {a b c : NodeId} (h : clockwise b c ≤ clockwise a c) :
    clockwise a b + clockwise b c = clockwise a c := by
  have hsum := clockwise_add a b c
  have hlt := clockwise_lt a b
  omega

/-- From the next position it is one step less, or, to where one came from, all but one step of a
turn. -/
theorem clockwise_forward (a x : NodeId) :
    clockwise (a.forward 1) x = if x = a then 65535 else clockwise a x - 1 := by
  have hnext : (a.forward 1).toNat = (a.toNat + 1) % 65536 := UInt16.toNat_add _ _
  have ha := toNat_lt a
  have hx := toNat_lt x
  rw [clockwise_eq, hnext, clockwise_eq]
  split
  case isTrue heq => subst heq; omega
  case isFalse hne =>
    have hne' : x.toNat ≠ a.toNat := fun heq => hne (toNat_injective heq)
    omega

/-- `w` is met on the way from `a` to `x`, and is not `x` itself. -/
def Passed (a x w : NodeId) : Prop := w ≠ x ∧ clockwise w x ≤ clockwise a x

/-- Right after `p` only what is nearer than `p` is still met. -/
theorem passed_forward_iff {p x w : NodeId} (h : p ≠ x) :
    Passed (p.forward 1) x w ↔ w ≠ x ∧ clockwise w x < clockwise p x := by
  have hpos := clockwise_pos h
  rw [Passed, clockwise_forward, if_neg (Ne.symm h)]
  exact and_congr_right fun _ => by omega

end NodeId

namespace Arc

open NodeId

/-- An arc without its lower end whose ends differ holds what is nearer to its upper end than its
lower end is. -/
theorem mem_upperClosed_iff {s e x : NodeId} (h : s ≠ e) :
    Arc.contains ⟨s, e, .upperClosed⟩ x = true ↔ clockwise x e < clockwise s e := by
  have hsum := clockwise_add s x e
  have hxe := clockwise_lt x e
  have hsx := clockwise_lt s x
  simp only [Arc.contains, if_neg h, Bool.and_eq_true, decide_eq_true_eq]
  omega

/-- An arc without its lower end holds what is not farther from its upper end than the position
after its lower end is. -/
theorem mem_upperClosed_iff_forward {s e x : NodeId} :
    Arc.contains ⟨s, e, .upperClosed⟩ x = true ↔ clockwise x e ≤ clockwise (s.forward 1) e := by
  rw [clockwise_forward]
  by_cases h : s = e
  · subst h
    have hlt := clockwise_lt x s
    rw [if_pos rfl]
    exact iff_of_true (by simp [Arc.contains]) (by omega)
  · have hpos := clockwise_pos h
    rw [if_neg (Ne.symm h), mem_upperClosed_iff h]
    omega

/-- With equal ends an arc without its lower end is the whole ring. -/
theorem mem_upperClosed_self (s x : NodeId) : Arc.contains ⟨s, s, .upperClosed⟩ x = true := by
  simp [Arc.contains]

/-- An open arc whose ends differ holds what is nearer to its upper end than its lower end is, the
upper end left out. -/
theorem mem_strict_iff {s e x : NodeId} (h : s ≠ e) :
    Arc.contains ⟨s, e, .strict⟩ x = true ↔ x ≠ e ∧ clockwise x e < clockwise s e := by
  have hsum := clockwise_add s x e
  have hxe := clockwise_lt x e
  have hsx := clockwise_lt s x
  have hne : x ≠ e ↔ clockwise x e ≠ 0 := not_congr clockwise_eq_zero_iff.symm
  rw [hne]
  simp only [Arc.contains, if_neg h, Bool.and_eq_true, decide_eq_true_eq]
  omega

/-- An open arc does not hold its upper end. -/
theorem ne_of_mem_strict {s e x : NodeId} (h : Arc.contains ⟨s, e, .strict⟩ x = true) : x ≠ e := by
  by_cases hse : s = e
  · simp [Arc.contains, hse] at h
  · exact ((mem_strict_iff hse).mp h).1

end Arc

end ChunkDirectory
