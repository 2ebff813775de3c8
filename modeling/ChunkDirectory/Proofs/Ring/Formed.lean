import ChunkDirectory.Proofs.Ring.Growth
import ChunkDirectory.Proofs.Ring.Views

/-!
# Views of a growing ring

While a ring grows by joins its superpeers do not know all others. What each of them has right is
its pointers and its share of the peers (`Ring.Formed`); its list is some part of the ring that
includes the neighbours. A newcomer changes the views of the owner of its position
(`Formed.split`), of the member before the owner (`Formed.notice`) and, as a peer, of the owner
alone (`Formed.insert_peer`); everybody else's view is already right (`Formed.insert_elsewhere`).
-/

namespace ChunkDirectory

namespace Ring

variable {s ps : NodeSet} {r : Ring} {new owner p q x : NodeId}

/-- Pointers that name the nearest members on both sides are exact. -/
theorem Pointed.of_some (hp : r.predecessor = some p) (hbefore : s.Before r.me p)
    (hq : r.successor = some q) (hafter : s.After r.me q) : r.Pointed s := by
  constructor
  · intro x
    rw [hp, Option.some_inj]
    exact ⟨fun heq => heq ▸ hbefore, fun h => hbefore.unique h⟩
  · intro x
    rw [hq, Option.some_inj]
    exact ⟨fun heq => heq ▸ hafter, fun h => hafter.unique h⟩

namespace Pointed

/-- A superpeer that is not alone has neighbours. -/
theorem exists_neighbours (h : r.Pointed s) (hx : x ∈ s) (hne : x ≠ r.me) :
    ∃ p q, r.predecessor = some p ∧ s.Before r.me p ∧ r.successor = some q ∧ s.After r.me q := by
  obtain ⟨p, hp⟩ := NodeSet.exists_before hx hne
  obtain ⟨q, hq⟩ := NodeSet.exists_after hx hne
  exact ⟨p, q, (h.predecessor p).mpr hp, hp, (h.successor q).mpr hq, hq⟩

/-- The owner of the newcomer's position makes it its predecessor, and its successor if it was
alone. -/
theorem split {r' : Ring} (h : r.Pointed s) (hown : s.Owns new r.me) (hnew : new ∉ s)
    (hme' : r'.me = r.me) (hpredecessor : r'.predecessor = some new)
    (hsuccessor : r'.successor = if r.predecessor = none then some new else r.successor) :
    r'.Pointed (s.insert new) := by
  have hbefore := NodeSet.owner_before hown hnew
  rw [← hme'] at hbefore
  cases hp : r.predecessor with
  | none =>
    have halone : ∀ y ∈ s, y = r.me := fun y hy => h.eq_me hp hy
    have hback := (NodeSet.before_newcomer_of_alone hown hnew halone).insert_self
    have hafter := hback.after (NodeSet.mem_insert.mpr (.inl rfl))
    rw [← hme'] at hafter
    rw [if_pos hp] at hsuccessor
    exact .of_some hpredecessor hbefore hsuccessor hafter
  | some p =>
    have hpbefore := (h.predecessor p).mp hp
    obtain ⟨-, q, -, -, hq, hafter⟩ := h.exists_neighbours hpbefore.1 hpbefore.2.1
    have hnot : ¬ s.Owns new q := fun hown' => hafter.2.1 (hown'.unique hown)
    have hafter' := hafter.insert_of_not_owns hown.1 hnot
    rw [← hme'] at hafter'
    rw [if_neg (by rw [hp]; exact Option.some_ne_none p), hq] at hsuccessor
    exact .of_some hpredecessor hbefore hsuccessor hafter'

/-- The member before the owner makes the newcomer its successor. -/
theorem notice {r' : Ring} (h : r.Pointed s) (hme : r.me ∈ s) (hown : s.Owns new owner)
    (hnew : new ∉ s) (hbefore : s.Before owner r.me) (hme' : r'.me = r.me)
    (hpredecessor : r'.predecessor = r.predecessor) (hsuccessor : r'.successor = some new) :
    r'.Pointed (s.insert new) := by
  have hne : r.me ≠ owner := hbefore.2.1
  obtain ⟨p, -, hp, hpbefore, -, -⟩ := h.exists_neighbours hown.1 (Ne.symm hne)
  have hpbefore' := hpbefore.insert_of_not_owns hme fun hown' => hne (hown'.unique hown)
  have hafter := (NodeSet.before_newcomer hown hnew hbefore).insert_self.after
    (NodeSet.mem_insert.mpr (.inl rfl))
  rw [← hme'] at hpbefore' hafter
  exact .of_some (hpredecessor.trans hp) hpbefore' hsuccessor hafter

/-- A newcomer that does not come next to a superpeer leaves its pointers right. -/
theorem insert_elsewhere (h : r.Pointed s) (hme : r.me ∈ s) (hown : s.Owns new owner)
    (hne : r.me ≠ owner) (hnot : ¬ s.Before owner r.me) : r.Pointed (s.insert new) := by
  obtain ⟨p, q, hp, hbefore, hq, hafter⟩ := h.exists_neighbours hown.1 (Ne.symm hne)
  have hqowner : ¬ s.Owns new q := by
    intro hown'
    exact hnot ((hown'.unique hown) ▸ hafter.before hme)
  have hbefore' := hbefore.insert_of_not_owns hme fun hown' => hne (hown'.unique hown)
  exact .of_some hp hbefore' hq (hafter.insert_of_not_owns hme hqowner)

end Pointed

/-- The newcomer stands between the owner of its position and the member before. -/
theorem pointed_newcomer (hown : s.Owns new owner) (hnew : new ∉ s) (hme : r.me = new)
    (hbefore : (s.insert new).Before new p) (hpredecessor : r.predecessor = some p)
    (hsuccessor : r.successor = some owner) : r.Pointed (s.insert new) := by
  have hafter := (NodeSet.owner_before hown hnew).after (NodeSet.mem_insert.mpr (.inr hown.1))
  subst hme
  exact .of_some hpredecessor hbefore hsuccessor hafter

/-- What a superpeer knows of a growing ring: its neighbours, some of the other superpeers, these
among them, and those of the peers `ps` that it owns. -/
structure Formed (s ps : NodeSet) (r : Ring) : Prop extends Pointed s r where
  listed : ∀ x ∈ r.superpeers, x ∈ s ∧ x ≠ r.me
  knowsBefore : ∀ x, s.Before r.me x → x ∈ r.superpeers
  knowsAfter : ∀ x, s.After r.me x → x ∈ r.superpeers
  peers : ∀ x, x ∈ r.peers ↔ x ∈ ps ∧ s.Owns x r.me

namespace Formed

/-- A superpeer that is alone on the ring knows nobody but its peers, which are all. -/
theorem alone (hs : ∀ x ∈ s, x = r.me) (hme : r.me ∈ s) (hpredecessor : r.predecessor = none)
    (hsuccessor : r.successor = none) (hlisted : r.superpeers = ∅)
    (hpeers : ∀ x, x ∈ r.peers ↔ x ∈ ps) : r.Formed s ps := by
  refine ⟨⟨?_, ?_⟩, ?_, ?_, ?_, ?_⟩
  · intro x
    rw [hpredecessor]
    refine iff_of_false (fun h => by cases h) fun h => h.2.1 (hs x h.1)
  · intro x
    rw [hsuccessor]
    refine iff_of_false (fun h => by cases h) fun h => h.2.1 (hs x h.1)
  · intro x hx
    rw [hlisted] at hx
    cases hx
  · intro x hx
    exact absurd (hs x hx.1) hx.2.1
  · intro x hx
    exact absurd (hs x hx.1) hx.2.1
  · intro x
    rw [hpeers]
    refine (and_iff_left ⟨hme, fun y hy => ?_⟩).symm
    exact Nat.le_of_eq (by rw [hs y hy])

/-- A superpeer lists nobody exactly if it is alone. -/
theorem isEmpty_iff (h : r.Formed s ps) :
    r.superpeers.isEmpty = true ↔ r.predecessor = none := by
  constructor
  · intro hempty
    cases hp : r.predecessor with
    | none => rfl
    | some p =>
      have hmem : p ∈ r.superpeers.toList := h.knowsBefore p ((h.predecessor p).mp hp)
      rw [List.isEmpty_iff.mp hempty] at hmem
      cases hmem
  · intro hnone
    refine List.isEmpty_iff.mpr (List.eq_nil_iff_forall_not_mem.mpr fun x hx => ?_)
    obtain ⟨hxs, hne⟩ := h.listed x hx
    exact hne (h.eq_me hnone hxs)

/-- Who lists nobody has no predecessor to leave out. -/
theorem predecessor_of_isEmpty (h : r.Formed s ps) :
    (if r.superpeers.isEmpty then none else r.predecessor) = r.predecessor := by
  by_cases hempty : r.superpeers.isEmpty = true
  · rw [if_pos hempty, h.isEmpty_iff.mp hempty]
  · rw [if_neg hempty]

/-- A newcomer that does not come next to a superpeer makes no difference to it. -/
theorem insert_elsewhere (h : r.Formed s ps) (hme : r.me ∈ s) (hown : s.Owns new owner)
    (hnew : new ∉ s) (hne : r.me ≠ owner) (hnot : ¬ s.Before owner r.me) :
    r.Formed (s.insert new) ps := by
  have hpointed := h.toPointed.insert_elsewhere hme hown hne hnot
  refine ⟨hpointed, ?_, ?_, ?_, ?_⟩
  · intro x hx
    obtain ⟨hxs, hxme⟩ := h.listed x hx
    exact ⟨NodeSet.mem_insert.mpr (.inr hxs), hxme⟩
  · intro x hx
    exact h.knowsBefore x ((h.predecessor x).mp ((hpointed.predecessor x).mpr hx))
  · intro x hx
    exact h.knowsAfter x ((h.successor x).mp ((hpointed.successor x).mpr hx))
  · intro x
    rw [h.peers, NodeSet.owns_insert_iff_of_ne hown hnew hme hne]

/-- The owner of the newcomer's position makes it its predecessor. -/
theorem split {r' : Ring} (h : r.Formed s ps) (hown : s.Owns new r.me) (hnew : new ∉ s)
    (hme' : r'.me = r.me) (hpredecessor : r'.predecessor = some new)
    (hsuccessor : r'.successor = if r.superpeers.isEmpty then some new else r.successor)
    (hlist : ∀ x, x ∈ r'.superpeers ↔ x ∈ r.superpeers ∨ x = new)
    (hpeers : ∀ x, x ∈ r'.peers ↔ x ∈ r.peers ∧ ¬ (s.insert new).Owns x new) :
    r'.Formed (s.insert new) ps := by
  have hempty : r.superpeers.isEmpty = true ↔ r.predecessor = none := h.isEmpty_iff
  have hpointed : r'.Pointed (s.insert new) :=
    h.toPointed.split hown hnew hme' hpredecessor (by simp only [hsuccessor, hempty])
  refine ⟨hpointed, ?_, ?_, ?_, ?_⟩
  · intro x hx
    rw [hme']
    rcases (hlist x).mp hx with hx | rfl
    · obtain ⟨hxs, hxme⟩ := h.listed x hx
      exact ⟨NodeSet.mem_insert.mpr (.inr hxs), hxme⟩
    · exact ⟨NodeSet.mem_insert.mpr (.inl rfl), fun heq => hnew (heq ▸ hown.1)⟩
  · intro x hx
    have hpointer := (hpointed.predecessor x).mpr hx
    rw [hpredecessor] at hpointer
    exact (hlist x).mpr (.inr (Option.some.inj hpointer).symm)
  · intro x hx
    have hpointer := (hpointed.successor x).mpr hx
    rw [hsuccessor] at hpointer
    split at hpointer
    · exact (hlist x).mpr (.inr (Option.some.inj hpointer).symm)
    · exact (hlist x).mpr (.inl (h.knowsAfter x ((h.successor x).mp hpointer)))
  · intro x
    rw [hpeers, h.peers, hme', NodeSet.owns_insert_iff hnew hown.1, and_assoc]

/-- The member before the owner makes the newcomer its successor. -/
theorem notice {r' : Ring} (h : r.Formed s ps) (hme : r.me ∈ s) (hown : s.Owns new owner)
    (hnew : new ∉ s) (hbefore : s.Before owner r.me) (hme' : r'.me = r.me)
    (hpredecessor : r'.predecessor = r.predecessor) (hsuccessor : r'.successor = some new)
    (hlist : ∀ x, x ∈ r'.superpeers ↔ x ∈ r.superpeers ∨ x = new) (hpeers : r'.peers = r.peers) :
    r'.Formed (s.insert new) ps := by
  have hne : r.me ≠ owner := hbefore.2.1
  have hpointed : r'.Pointed (s.insert new) :=
    h.toPointed.notice hme hown hnew hbefore hme' hpredecessor hsuccessor
  refine ⟨hpointed, ?_, ?_, ?_, ?_⟩
  · intro x hx
    rw [hme']
    rcases (hlist x).mp hx with hx | rfl
    · obtain ⟨hxs, hxme⟩ := h.listed x hx
      exact ⟨NodeSet.mem_insert.mpr (.inr hxs), hxme⟩
    · exact ⟨NodeSet.mem_insert.mpr (.inl rfl), fun heq => hnew (heq ▸ hme)⟩
  · intro x hx
    have hpointer := (hpointed.predecessor x).mpr hx
    rw [hpredecessor] at hpointer
    exact (hlist x).mpr (.inl (h.knowsBefore x ((h.predecessor x).mp hpointer)))
  · intro x hx
    have hpointer := (hpointed.successor x).mpr hx
    rw [hsuccessor] at hpointer
    exact (hlist x).mpr (.inr (Option.some.inj hpointer).symm)
  · intro x
    rw [hpeers, h.peers, hme', NodeSet.owns_insert_iff_of_ne hown hnew hme hne]

/-- A new peer is listed by the owner of its position. -/
theorem insert_peer {u : NodeSet} (h : r.Formed s ps) (hown : s.Owns new r.me)
    (hu : ∀ x, x ∈ u ↔ x ∈ r.peers ∨ x = new) :
    ({ r with peers := u } : Ring).Formed s (ps.insert new) := by
  refine ⟨⟨h.predecessor, h.successor⟩, h.listed, h.knowsBefore, h.knowsAfter, fun x => ?_⟩
  have howns : x = new → s.Owns x r.me := fun heq => heq ▸ hown
  rw [hu, h.peers, NodeSet.mem_insert, or_and_right, and_iff_left_of_imp howns]
  exact or_comm

/-- A new peer makes no difference to the superpeers that do not own its position. -/
theorem insert_peer_elsewhere (h : r.Formed s ps) (hnot : ¬ s.Owns new r.me) :
    r.Formed s (ps.insert new) := by
  refine ⟨h.toPointed, h.listed, h.knowsBefore, h.knowsAfter, fun x => ?_⟩
  rw [h.peers, NodeSet.mem_insert, or_and_right]
  refine (or_iff_right ?_).symm
  rintro ⟨rfl, hown⟩
  exact hnot hown

end Formed

/-- The newcomer's own view: it stands between the owner of its position and the member before. -/
theorem formed_newcomer (hown : s.Owns new owner) (hnew : new ∉ s) (hme : r.me = new)
    (hbefore : (s.insert new).Before new p) (hpredecessor : r.predecessor = some p)
    (hsuccessor : r.successor = some owner)
    (hlist : ∀ x ∈ r.superpeers, x ∈ s) (hp : p ∈ r.superpeers) (ho : owner ∈ r.superpeers)
    (hpeers : ∀ x, x ∈ r.peers ↔ x ∈ ps ∧ (s.insert new).Owns x new) :
    r.Formed (s.insert new) ps := by
  have hpointed := pointed_newcomer hown hnew hme hbefore hpredecessor hsuccessor
  subst hme
  refine ⟨hpointed, ?_, ?_, ?_, hpeers⟩
  · intro x hx
    exact ⟨NodeSet.mem_insert.mpr (.inr (hlist x hx)), fun heq => hnew (heq ▸ hlist x hx)⟩
  · intro x hx
    rw [hx.unique hbefore]
    exact hp
  · intro x hx
    have hpointer := (hpointed.successor x).mpr hx
    rw [hsuccessor] at hpointer
    rw [← Option.some.inj hpointer]
    exact ho

end Ring

end ChunkDirectory
