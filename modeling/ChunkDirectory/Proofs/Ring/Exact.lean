import ChunkDirectory.Node.Basic
import ChunkDirectory.Proofs.Ring.Round

/-!
# Exact ring views

A ring of superpeers `s` is a finite set; what a node should know of it is said by the set alone.
The pointers of a view are exact when they name the nearest other members on both sides
(`Ring.Pointed`), and the view is exact when it also lists all other members (`Ring.Exact`).

Two rules decide who is responsible for an identifier: a superpeer compares it with the arc from its
predecessor to itself, everybody else searches the list of superpeers. With exact views both name
the owner, the first member at or after the identifier (`Node.isPrimaryFor_iff`,
`Ring.Exact.responsible`).
-/

namespace ChunkDirectory

open NodeId

namespace NodeSet

variable {s : NodeSet} {id x y : NodeId}

/-! ## Existence of neighbours and owners -/

theorem exists_owner (h : y ∈ s) (id : NodeId) : ∃ x, s.Owns id x := by
  cases hx : (s.roundFrom id).head? with
  | none =>
    rw [List.head?_eq_none_iff] at hx
    have hy : y ∈ s.roundFrom id := mem_roundFrom.mpr h
    rw [hx] at hy
    cases hy
  | some x => exact ⟨x, head?_roundFrom.mp hx⟩

theorem exists_before (h : y ∈ s) (hne : y ≠ id) : ∃ x, s.Before id x := by
  have hy : y ∈ s.roundFrom id := mem_roundFrom.mpr h
  cases hx : (s.roundFrom id).getLast? with
  | none =>
    rw [List.getLast?_eq_none_iff.mp hx] at hy
    cases hy
  | some x =>
    by_cases hxid : x = id
    · subst hxid
      have hmax := ((getLast?_eq_some_iff_of_ascending (roundFrom_ascending s x)).mp hx).2 y hy
      rw [clockwise_self] at hmax
      exact absurd (clockwise_eq_zero_iff.mp (Nat.le_zero.mp hmax)).symm hne
    · exact ⟨x, getLast?_roundFrom.mp (by rw [hx]; simp [hxid])⟩

theorem exists_after (h : y ∈ s) (hne : y ≠ id) : ∃ x, s.After id x := by
  cases hx : ((s.roundFrom id).filter (· ≠ id)).head? with
  | none =>
    rw [List.head?_eq_none_iff] at hx
    have hy : y ∈ (s.roundFrom id).filter (· ≠ id) := by simp [mem_roundFrom, h, hne]
    rw [hx] at hy
    cases hy
  | some x =>
    have hasc := (roundFrom_ascending s id).filter (· ≠ id)
    obtain ⟨hmem, hmin⟩ := (head?_eq_some_iff_of_ascending hasc).mp hx
    simp only [List.mem_filter, mem_roundFrom, decide_eq_true_eq] at hmem hmin
    exact ⟨x, hmem.1, hmem.2, fun y hy hne => hmin y ⟨hy, hne⟩⟩

/-! ## Owners -/

/-- An identifier is owned by a member exactly if it lies after the nearest member before it. -/
theorem owns_iff_of_before {me p : NodeId} (hme : me ∈ s) (hp : s.Before me p) :
    s.Owns id me ↔ clockwise id me < clockwise p me := by
  have hpos := clockwise_pos hp.2.1
  constructor
  · intro hown
    have hle := hown.2 p hp.1
    apply Nat.lt_of_not_le
    intro hge
    have hpass := clockwise_add_of_le' hge
    omega
  · intro hlt
    refine ⟨hme, fun y hy => ?_⟩
    by_cases hyme : y = me
    · exact Nat.le_of_eq (by rw [hyme])
    · have hle := hp.2.2 y hy hyme
      apply Nat.le_of_not_lt
      intro hnear
      have hpass := clockwise_add_of_le (Nat.le_of_lt hnear)
      omega

/-- Leaving out a member that does not own an identifier does not change its owner. -/
theorem owns_erase_iff {me : NodeId} (hme : ¬ s.Owns id me) :
    (s.erase me).Owns id x ↔ s.Owns id x := by
  constructor
  · rintro ⟨hx, hmin⟩
    obtain ⟨hx, hxme⟩ := mem_erase.mp hx
    obtain ⟨o, ho⟩ := exists_owner hx id
    have hone : o ≠ me := fun e => hme (e ▸ ho)
    have hle := hmin o (mem_erase.mpr ⟨ho.1, hone⟩)
    have hxo : x = o := eq_of_clockwise_from (Nat.le_antisymm hle (ho.2 x hx))
    exact hxo ▸ ho
  · rintro ⟨hx, hmin⟩
    have hxme : x ≠ me := fun e => hme (e ▸ ⟨hx, hmin⟩)
    exact ⟨mem_erase.mpr ⟨hx, hxme⟩, fun y hy => hmin y (mem_erase.mp hy).1⟩

end NodeSet

namespace Ring

variable {s : NodeSet} {r : Ring} {id x : NodeId}

/-- The pointers name the nearest other members of the ring, or nothing if there are none. -/
structure Pointed (s : NodeSet) (r : Ring) : Prop where
  predecessor : ∀ x, r.predecessor = some x ↔ s.Before r.me x
  successor : ∀ x, r.successor = some x ↔ s.After r.me x

/-- The pointers are exact and all other members are listed. -/
structure Exact (s : NodeSet) (r : Ring) : Prop extends Pointed s r where
  superpeers : r.superpeers = s.erase r.me

/-- A node without predecessor is the only member. -/
theorem Pointed.eq_me (h : r.Pointed s) (hnone : r.predecessor = none) (hx : x ∈ s) : x = r.me := by
  apply Decidable.byContradiction
  intro hne
  obtain ⟨p, hp⟩ := NodeSet.exists_before hx hne
  rw [(h.predecessor p).mpr hp] at hnone
  cases hnone

/-- The list of a superpeer that is not responsible for an identifier names its owner. -/
theorem Exact.responsible (h : r.Exact s) (hme : ¬ s.Owns id r.me) :
    r.responsible id = some x ↔ s.Owns id x := by
  rw [responsible_eq_some_iff, h.superpeers, NodeSet.owns_erase_iff hme]

end Ring

namespace Node

variable {s : NodeSet} {n : Node} {id : NodeId}

theorem isPrimaryFor_of_peer (h : n.isSuperpeer = false) : n.isPrimaryFor id = false := by
  simp [isPrimaryFor, primaryArea, h]

/-- A superpeer with exact pointers takes itself for the primary of exactly what it owns. -/
theorem isPrimaryFor_iff (hrole : n.isSuperpeer = true) (h : n.ring.Pointed s) (hme : n.me ∈ s) :
    n.isPrimaryFor id = true ↔ s.Owns id n.me := by
  cases hp : n.ring.predecessor with
  | none =>
    simp only [isPrimaryFor, primaryArea, hrole, if_true, hp, Area.contains, true_iff]
    exact ⟨hme, fun y hy => by rw [h.eq_me hp hy]; exact Nat.le_refl _⟩
  | some p =>
    have hbefore := (h.predecessor p).mp hp
    have hne : p ≠ n.me := hbefore.2.1
    simp only [isPrimaryFor, primaryArea, hrole, if_true, hp, Area.contains]
    rw [Arc.mem_upperClosed_iff hne, NodeSet.owns_iff_of_before hme hbefore]

end Node

end ChunkDirectory
