import ChunkDirectory.Proofs.Ring.Views

/-!
# Tending a ring view

While failures are handled and peers are promoted, a view of the ring is changed in a few ways only:
superpeers are lost, peers are listed or forgotten, and the range is split at a peer that was
promoted (`Ring.Tended`). Who is promoted was a peer at some point on the way, though it need not be
one any more when the range is split.
-/

namespace ChunkDirectory.Ring

/-- What becomes of a view. A peer is listed only if it is not known as a superpeer, and only if
`adds` says that peers may be listed at all. -/
inductive Tended (adds : Prop) (r₀ : Ring) : Ring → Prop
  | refl : Tended adds r₀ r₀
  | bootstrap {r : Ring} (id : NodeId) : Tended adds r₀ r → Tended adds r₀ (r.setBootstrap id)
  | lose {r : Ring} (id : NodeId) : Tended adds r₀ r → Tended adds r₀ (r.removeSuperpeer id)
  | list {r : Ring} {id : NodeId} : Tended adds r₀ r → adds → id ∉ r.superpeers →
      Tended adds r₀ (r.insertPeer id)
  | forget {r : Ring} (id : NodeId) : Tended adds r₀ r → Tended adds r₀ (r.removePeer id)
  | split {before r : Ring} {new : NodeId} (moved : List NodeId) (alone : Bool) :
      Tended adds r₀ before → new ∈ before.peers → Tended adds r₀ r →
      Tended adds r₀ (Node.splitRing r moved new alone)

variable {adds : Prop} {r₀ r : Ring} {id x : NodeId}

/-- What becomes of a view that loses one of its superpeers. -/
theorem removeSuperpeer_of_mem (h : id ∈ r.superpeers) :
    r.removeSuperpeer id =
      { r with
        superpeers := r.superpeers.erase id
        successor := if r.successor = some id then
            { r with superpeers := r.superpeers.erase id }.nextAfter id else r.successor
        predecessor := if r.predecessor = some id then
            { r with superpeers := r.superpeers.erase id }.previousBefore id
          else r.predecessor } :=
  if_pos (by simpa [NodeSet.contains] using h)

/-- Losing a superpeer leaves the others and the peers, and moves a pointer only if it named the lost
one, to another superpeer. -/
theorem removeSuperpeer_shape (r : Ring) (id : NodeId) :
    (∀ x, x ∈ (r.removeSuperpeer id).superpeers ↔ x ∈ r.superpeers ∧ x ≠ id) ∧
      (r.removeSuperpeer id).peers = r.peers ∧
      (∀ x, (r.removeSuperpeer id).predecessor = some x →
        x ∈ (r.removeSuperpeer id).superpeers ∨ r.predecessor = some x ∧
          (x = id → id ∉ r.superpeers)) ∧
      ∀ x, (r.removeSuperpeer id).successor = some x →
        x ∈ (r.removeSuperpeer id).superpeers ∨ r.successor = some x ∧
          (x = id → id ∉ r.superpeers) := by
  by_cases hid : id ∈ r.superpeers
  case neg =>
    have hsame : r.removeSuperpeer id = r := if_neg (by simpa [NodeSet.contains] using hid)
    rw [hsame]
    refine ⟨fun x => (and_iff_left_of_imp ?_).symm, rfl, fun x hx => .inr ⟨hx, fun _ => hid⟩,
      fun x hx => .inr ⟨hx, fun _ => hid⟩⟩
    rintro hx rfl
    exact hid hx
  case pos =>
    rw [removeSuperpeer_of_mem hid]
    refine ⟨fun x => NodeSet.mem_erase, rfl, fun x hx => ?_, fun x hx => ?_⟩
    · by_cases hp : r.predecessor = some id
      · simp only [hp, if_true] at hx
        exact .inl (previousBefore_eq_some_iff.mp hx).1
      · simp only [hp, if_false] at hx
        exact .inr ⟨hx, fun heq => absurd (heq ▸ hx) hp⟩
    · by_cases hq : r.successor = some id
      · simp only [hq, if_true] at hx
        exact .inl (nextAfter_eq_some_iff.mp hx).1
      · simp only [hq, if_false] at hx
        exact .inr ⟨hx, fun heq => absurd (heq ▸ hx) hq⟩

namespace Tended

/-- Peers are listed on the way at most with permission. -/
theorem mono {adds' : Prop} (h : Tended adds r₀ r) (hadds : adds → adds') : Tended adds' r₀ r := by
  induction h with
  | refl => exact .refl
  | bootstrap id _ ih => exact .bootstrap id ih
  | lose id _ ih => exact .lose id ih
  | list _ hadds' hnot ih => exact .list ih (hadds hadds') hnot
  | forget id _ ih => exact .forget id ih
  | split moved alone _ hnew _ ih ih' => exact .split moved alone ih hnew ih'

/-- It stays the view of the same node, and lists as peers only what that node may list. -/
theorem admits (hpeers : ∀ x ∈ r₀.peers, r₀.admits x = true) (h : Tended adds r₀ r) :
    r.me = r₀.me ∧ ∀ x ∈ r.peers, r₀.admits x = true := by
  have hsame : ∀ {r : Ring}, r.me = r₀.me → ∀ x, r.admits x = r₀.admits x := by
    intro r hme x
    rw [Ring.admits, Ring.admits, hme]
  induction h with
  | refl => exact ⟨rfl, hpeers⟩
  | bootstrap id _ ih => exact ih
  | @lose r id _ ih =>
    refine ⟨(me_removeSuperpeer r id).trans ih.1, ?_⟩
    rw [(removeSuperpeer_shape r id).2.1]
    exact ih.2
  | @list r id _ _ _ ih =>
    obtain ⟨u, hu, hmem⟩ := insertPeer_eq r id
    rw [hu]
    refine ⟨ih.1, fun x hx => ?_⟩
    rcases (hmem x).mp hx with hx | ⟨-, hadmits⟩
    · exact ih.2 x hx
    · rw [← hsame ih.1]
      exact hadmits
  | forget id _ ih => exact ⟨ih.1, fun x hx => ih.2 x (NodeSet.mem_erase.mp hx).1⟩
  | @split before r new moved alone _ hnew _ ih ih' =>
    have hne : new ≠ r.me := by
      rw [ih'.1]
      exact (admits_iff.mp (ih.2 new hnew)).1
    obtain ⟨t, u, hsplit, -, hu⟩ := splitRing_eq_of_ne moved alone hne
    rw [hsplit]
    exact ⟨ih'.1, fun x hx => ih'.2 x ((hu x).mp hx).1.1⟩

/-- Who is promoted may be listed as a superpeer. -/
theorem admits_promoted {before : Ring} (hpeers : ∀ x ∈ r₀.peers, r₀.admits x = true)
    (hbefore : Tended adds r₀ before) (hnew : x ∈ before.peers) (h : Tended adds r₀ r) :
    r.admits x = true := by
  have hadmits := (hbefore.admits hpeers).2 x hnew
  rw [Ring.admits, ← (h.admits hpeers).1] at hadmits
  exact hadmits

/-- Without peers that are listed on the way, all peers were there before, and so were all superpeers
unless they have been promoted. -/
theorem of_not_adds (hpeers : ∀ x ∈ r₀.peers, r₀.admits x = true) (h : Tended False r₀ r) :
    (∀ x ∈ r.peers, x ∈ r₀.peers) ∧ ∀ x ∈ r.superpeers, x ∈ r₀.superpeers ∨ x ∈ r₀.peers := by
  induction h with
  | refl => exact ⟨fun x hx => hx, fun x hx => .inl hx⟩
  | bootstrap id _ ih => exact ih
  | @lose r id _ ih =>
    obtain ⟨hsuperpeers, hsame, -⟩ := removeSuperpeer_shape r id
    rw [hsame]
    exact ⟨ih.1, fun x hx => ih.2 x ((hsuperpeers x).mp hx).1⟩
  | list _ hadds => exact hadds.elim
  | forget id _ ih => exact ⟨fun x hx => ih.1 x (NodeSet.mem_erase.mp hx).1, ih.2⟩
  | @split before r new moved alone hbefore hnew hr ih ih' =>
    have hadmits := admits_promoted hpeers hbefore hnew hr
    obtain ⟨t, u, hsplit, ht, hu⟩ := splitRing_eq moved alone hadmits
    rw [hsplit]
    refine ⟨fun x hx => ih'.1 x ((hu x).mp hx).1.1, fun x hx => ?_⟩
    rcases (ht x).mp hx with hx | rfl
    · exact ih'.2 x hx
    · exact .inr (ih.1 x hnew)

/-- A view without pointers and peers, as a peer has it, gets none if no peers are listed. -/
theorem of_peer (h : Tended False r₀ r) (hp : r₀.predecessor = none) (hq : r₀.successor = none)
    (hpeers : r₀.peers = ∅) : r.predecessor = none ∧ r.successor = none ∧ r.peers = ∅ := by
  induction h with
  | refl => exact ⟨hp, hq, hpeers⟩
  | bootstrap id _ ih => exact ih
  | @lose r id _ ih =>
    unfold removeSuperpeer
    split
    case isTrue => exact ⟨by simp [ih.1], by simp [ih.2.1], ih.2.2⟩
    case isFalse => exact ih
  | list _ hadds => exact hadds.elim
  | @forget r id _ ih =>
    refine ⟨ih.1, ih.2.1, ?_⟩
    show r.peers.erase id = ∅
    rw [ih.2.2]
    rfl
  | split moved alone _ hnew _ ih =>
    rw [ih.2.2] at hnew
    cases hnew

end Tended

end ChunkDirectory.Ring
