import ChunkDirectory.Proofs.Division

/-!
# Two newcomers to one range

When two newcomers come into the range of one superpeer, the one that is nearer to the owner leaves
the other's position with the owner, or else it takes that position over as well
(`Rivals.owns_or`). Whichever it is, the ring does not depend on who comes first
(`NodeSet.insert_comm`), and whoever neither owns a position nor stands next to one sees the same
ring all the time (`Rivals.formed_elsewhere`).
-/

namespace ChunkDirectory

open NodeId Protocol

theorem NodeSet.insert_comm (s : NodeSet) (a b : NodeId) :
    (s.insert a).insert b = (s.insert b).insert a := by
  refine NodeSet.eq_of_mem_iff fun x => ?_
  rw [mem_insert, mem_insert, mem_insert, mem_insert]
  exact or_left_comm

/-- Two newcomers to the ring `s` whose positions have the same owner. -/
structure Rivals (s : NodeSet) (owner a b : NodeId) : Prop where
  first : Entrance s owner a
  second : Entrance s owner b
  ne : a ≠ b

namespace Rivals

variable {s ps : NodeSet} {owner a b : NodeId}

theorem symm (h : Rivals s owner a b) : Rivals s owner b a := ⟨h.second, h.first, Ne.symm h.ne⟩

theorem fresh (h : Rivals s owner a b) : b ∉ s.insert a := by
  rw [NodeSet.mem_insert]
  rintro (heq | hb)
  · exact h.ne heq.symm
  · exact h.second.fresh hb

/-- Once `a` has come, either `a` or still the owner owns the position of `b`. -/
theorem owns_or (h : Rivals s owner a b) :
    (s.insert a).Owns b a ∨ (s.insert a).Owns b owner :=
  (h.first.owns.owns_iff_or h.first.fresh).mp h.second.owns

/-- If the owner keeps the position of `b` when `a` has come, `b` takes over that of `a`. -/
theorem owns_swap (h : Rivals s owner a b) (hown : (s.insert a).Owns b owner) :
    (s.insert b).Owns a b := by
  refine h.symm.owns_or.resolve_right fun hother => ?_
  -- Otherwise each way from one newcomer to the other would lead past the owner.
  have hab := clockwise_add_of_le (hother.2 b (NodeSet.mem_insert.mpr (.inl rfl)))
  have hba := clockwise_add_of_le (hown.2 a (NodeSet.mem_insert.mpr (.inl rfl)))
  have hround := clockwise_add_swap h.ne
  have ha := clockwise_add_swap (h.first.ne h.first.owns.1)
  have hb := clockwise_add_swap (h.second.ne h.first.owns.1)
  omega

/-- If `b` comes before `a`, the owner keeps the position of `a` when `b` has come. -/
theorem owns_next (h : Rivals s owner a b) (hown : (s.insert a).Owns b a) :
    (s.insert b).Owns a owner := by
  refine h.symm.owns_or.resolve_left fun hother => ?_
  -- Otherwise each newcomer would be nearer to the other than the owner is to either.
  have hmem : ∀ x, owner ∈ s.insert x := fun x => NodeSet.mem_insert.mpr (.inr h.first.owns.1)
  have hab := clockwise_add_of_le (hown.2 owner (hmem a))
  have hba := clockwise_add_of_le (hother.2 owner (hmem b))
  have hpos := clockwise_pos h.ne
  omega

/-- `b` comes in front of whoever owns its position when `a` has come. -/
theorem entrance {x : NodeId} (h : Rivals s owner a b) (hown : (s.insert a).Owns b x) :
    Entrance (s.insert a) x b := by
  refine ⟨hown, h.fresh, fun x hx => ?_⟩
  rw [NodeSet.insert_comm] at hx
  rcases NodeSet.mem_insert.mp hx with rfl | hx
  · exact h.first.valid x (NodeSet.mem_insert.mpr (.inl rfl))
  · exact h.second.valid x hx

/-- Only `a` and the owner see more than before when `b` comes in between. -/
theorem formed_elsewhere (h : Rivals s owner a b) (hown : (s.insert a).Owns b owner) {r : Ring}
    (hr : r.Formed (s.insert a) ps) (hme : r.me ∈ s) (hne : r.me ≠ owner) :
    r.Formed ((s.insert a).insert b) ps := by
  refine hr.insert_elsewhere (NodeSet.mem_insert.mpr (.inr hme)) hown h.fresh hne fun hbefore => ?_
  have heq := hbefore.unique (NodeSet.owner_before h.first.owns h.first.fresh)
  exact h.first.fresh (heq ▸ hme)

end Rivals

/-- A superpeer sees the ring `s`, whatever it knows of its peers. -/
def Ring.Sees (s : NodeSet) (r : Ring) : Prop := ∃ ps, r.Formed s ps

theorem Ring.Sees.pointed {s : NodeSet} {r : Ring} : r.Sees s → r.Pointed s
  | ⟨_, h⟩ => h.toPointed

/-- Whoever takes over the newcomer's place sees the ring from there. -/
theorem Entrance.adopt_sees {s ps : NodeSet} {owner new p : NodeId} {snapshot : Snapshot} {r : Ring}
    (h : Entrance s owner new) (hplaces : Node.Places s ps owner new p snapshot)
    (hme : r.me = new) : (r.adopt snapshot).Sees (s.insert new) := by
  obtain ⟨t, u, hadopt, ht, hu⟩ := Ring.adopt_eq hplaces.predecessor hplaces.successor
    (h.admits_member hme hplaces.member) (h.admits_member hme h.owns.1)
  rw [hadopt]
  refine ⟨u, Ring.formed_newcomer h.owns h.fresh hme hplaces.before rfl rfl (fun x hx => ?_)
    ((ht p).mpr (.inr (.inr rfl))) ((ht owner).mpr (.inr (.inl rfl))) fun x => ?_⟩
  · rcases (ht x).mp hx with hx | rfl | rfl
    · exact hplaces.superpeers x hx.1
    · exact h.owns.1
    · exact hplaces.member
  · exact (and_iff_left_of_imp fun hx => ((hplaces.peers x).mp ((hu x).mp hx).1).1.2).symm

namespace Ring

variable {r : Ring} {p q new : NodeId} {snapshot : Snapshot}

/-- Who has a node for its successor already learns nothing from being told of it. -/
theorem noted_of_successor (h : r.successor = some new) : r.noted new = r := by
  unfold noted
  split
  case isTrue => rfl
  case isFalse => rw [if_neg (by simp [h])]

/-- Who has a nearer successor learns nothing from being told of a node. -/
theorem noted_of_beyond (hq : r.successor = some q)
    (hnot : Arc.contains ⟨r.me, q, .strict⟩ new = false) : r.noted new = r := by
  unfold noted
  split
  case isTrue => rfl
  case isFalse => rw [if_neg (by simp [hq, hnot])]

/-- The superpeer before the owner lists the newcomer as well when it is told of it. -/
theorem Formed.noted {s ps : NodeSet} {owner : NodeId} (h : r.Formed s ps) (hme : r.me ∈ s)
    (hown : s.Owns new owner) (hnew : new ∉ s) (hbefore : s.Before owner r.me)
    (hadmits : r.admits new = true) : (r.noted new).Formed (s.insert new) ps := by
  rw [h.toPointed.noted_eq_setSuccessor hme hown hnew hbefore]
  obtain ⟨t, ht, hmem⟩ := setSuccessor_eq r hadmits
  rw [ht]
  exact h.notice hme hown hnew hbefore rfl rfl rfl hmem rfl

/-- A superpeer that has a predecessor keeps it when it is told of a successor. -/
theorem predecessor_noted (h : r.predecessor = some p) (node : NodeId) :
    (r.noted node).predecessor = some p := by
  have hkept : (r.setSuccessor (some node)).predecessor = some p := by
    obtain ⟨t, ht, -⟩ := setSuccessor_shape r (some node)
    rw [ht]
    exact h
  unfold noted
  split
  case isTrue => exact h
  case isFalse =>
    dsimp only
    rw [hkept, Option.isNone_some, if_neg Bool.false_ne_true, apply_ite Ring.predecessor, hkept, h,
      ite_self]

theorem predecessor_adopt (h : snapshot.predecessor = some p) (hne : p ≠ r.me) :
    (r.adopt snapshot).predecessor = some p := by
  obtain ⟨t, u, hadopt, -, -⟩ := adopt_shape r snapshot
  rw [hadopt, h]
  exact filter_ne hne

theorem predecessor_splitRing (moved : List NodeId) (alone : Bool) (hne : new ≠ r.me) :
    (Node.splitRing r moved new alone).predecessor = some new := by
  obtain ⟨t, u, hsplit, -, -⟩ := splitRing_eq_of_ne moved alone hne
  rw [hsplit]

theorem me_splitRing (moved : List NodeId) (alone : Bool) (hne : new ≠ r.me) :
    (Node.splitRing r moved new alone).me = r.me := by
  obtain ⟨t, u, hsplit, -, -⟩ := splitRing_eq_of_ne moved alone hne
  rw [hsplit]

/-- A superpeer's range, which begins after its predecessor, covers a position. -/
def Covers (r : Ring) (id : NodeId) : Prop :=
  ∃ p, r.predecessor = some p ∧ clockwise id r.me < clockwise p r.me

theorem covers_me (hp : r.predecessor = some p) (hne : p ≠ r.me) : r.Covers r.me :=
  ⟨p, hp, by rw [clockwise_self]; exact clockwise_pos hne⟩

/-- Who has the predecessor it should have in the ring `s` covers what it owns there. -/
theorem covers_of_owns {s : NodeSet} {id : NodeId} (hp : r.predecessor = some p)
    (hbefore : s.Before r.me p) (hown : s.Owns id r.me) : r.Covers id :=
  ⟨p, hp, (NodeSet.owns_iff_of_before hown.1 hbefore).mp hown⟩

end Ring

namespace Node

variable {n : Node} {id : NodeId}

/-- What a superpeer claims is a matter of its predecessor. -/
theorem isPrimaryFor_of_covers (hrole : n.isSuperpeer = true) (h : n.ring.Covers id) :
    n.isPrimaryFor id = true := by
  obtain ⟨p, hp, hlt⟩ := h
  have hne : p ≠ n.me := by
    rintro rfl
    rw [show n.ring.me = n.me from rfl, clockwise_self] at hlt
    exact Nat.not_lt_zero _ hlt
  simp only [isPrimaryFor, primaryArea, hrole, if_true, hp, Area.contains]
  exact (Arc.mem_upperClosed_iff hne).mpr hlt

end Node

end ChunkDirectory
