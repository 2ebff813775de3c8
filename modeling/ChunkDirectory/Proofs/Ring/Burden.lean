import Mathlib.Algebra.Order.Ring.GeomSum
import ChunkDirectory.Proofs.Ring.Learning
import ChunkDirectory.Proofs.Ring.Tended

/-!
# Why failures come to an end

To handle a failure can bring nodes into a view that were not known before. The peers of a superpeer
that failed right before the node are taken over, one of them may be promoted in its place, and may
then fail in its turn. So neither the number of queued failures nor that of known nodes bounds what
is still to come.

What goes down is this. The gap of a node is its distance from the nearest superpeer before it, where
the predecessor is left out (`NodeSet.gap`). Nodes that are taken over from the predecessor lie
between it and the superpeer before it, so their gaps are smaller than that of the predecessor, and
no two are equal. If a node with gap `g` weighs `2 ^ g`, then all of them weigh less than the
predecessor alone (`Ring.weight_adopted_lt`). The predecessor and all peers together are the burden of
a view. Whatever is done about the failure of a listed node, there are fewer superpeers afterwards, or
there are as many and the burden is smaller (`Ring.Repaired.lighter`).
-/

namespace ChunkDirectory

open NodeId

namespace NodeSet

variable {s t u : NodeSet} {me id x y : NodeId} {w : NodeId → Nat}

theorem mem_toFinset : x ∈ s.toList.toFinset ↔ x ∈ s := List.mem_toFinset

theorem erase_insert (h : x ∉ s) : (s.insert x).erase x = s := by
  apply eq_of_mem_iff
  intro y
  rw [mem_erase, mem_insert]
  constructor
  · rintro ⟨rfl | hy, hne⟩
    · exact absurd rfl hne
    · exact hy
  · intro hy
    exact ⟨.inr hy, fun heq => h (heq ▸ hy)⟩

/-! ## Weights -/

/-- The weight of all members together. -/
def weight (s : NodeSet) (w : NodeId → Nat) : Nat := ∑ x ∈ s.toList.toFinset, w x

/-- A member that is left out counts. -/
theorem weight_add_le (h : ∀ y ∈ s, y ∈ t) (hx : x ∈ t) (hnot : x ∉ s) :
    s.weight w + w x ≤ t.weight w := by
  have hnot' : x ∉ s.toList.toFinset := fun hmem => hnot (mem_toFinset.mp hmem)
  rw [weight, Nat.add_comm, ← Finset.sum_insert hnot']
  apply Finset.sum_le_sum_of_subset
  intro y hy
  rcases Finset.mem_insert.mp hy with rfl | hy
  · exact mem_toFinset.mpr hx
  · exact mem_toFinset.mpr (h y (mem_toFinset.mp hy))

/-- Members that have distinct weights weigh less than the next power of two. -/
theorem weight_add_lt {gap : NodeId → Nat} {bound : Nat}
    (h : ∀ y ∈ u, y ∉ t → gap y < bound)
    (hinj : ∀ y ∈ u, ∀ z ∈ u, y ∉ t → z ∉ t → gap y = gap z → y = z) :
    u.weight (2 ^ gap ·) < t.weight (2 ^ gap ·) + 2 ^ bound := by
  let new := u.toList.toFinset.filter (· ∉ t)
  have hnew : ∀ y ∈ new, y ∈ u ∧ y ∉ t := fun y hy =>
    ⟨mem_toFinset.mp (Finset.mem_filter.mp hy).1, (Finset.mem_filter.mp hy).2⟩
  have hold : ∑ y ∈ u.toList.toFinset.filter (· ∈ t), 2 ^ gap y ≤ t.weight (2 ^ gap ·) :=
    Finset.sum_le_sum_of_subset fun y hy => mem_toFinset.mpr (Finset.mem_filter.mp hy).2
  have hless : ∑ y ∈ new, 2 ^ gap y < 2 ^ bound := by
    have hinjOn : Set.InjOn gap new := fun y hy z hz heq =>
      hinj y (hnew y hy).1 z (hnew z hz).1 (hnew y hy).2 (hnew z hz).2 heq
    rw [← Finset.sum_image (f := (2 ^ ·)) hinjOn]
    apply Nat.geomSum_lt (Nat.le_refl 2)
    intro k hk
    obtain ⟨y, hy, rfl⟩ := Finset.mem_image.mp hk
    exact h y (hnew y hy).1 (hnew y hy).2
  calc u.weight (2 ^ gap ·)
      = ∑ y ∈ u.toList.toFinset.filter (· ∈ t), 2 ^ gap y + ∑ y ∈ new, 2 ^ gap y :=
        (Finset.sum_filter_add_sum_filter_not _ _ _).symm
    _ < t.weight (2 ^ gap ·) + 2 ^ bound := Nat.add_lt_add_of_le_of_lt hold hless

/-- A set to which one identifier is added under a condition. -/
theorem eq_or_eq_insert {P : NodeId → Prop} (h : ∀ y, y ∈ t ↔ y ∈ s ∨ y = x ∧ P y) :
    t = s ∨ P x ∧ x ∉ s ∧ t = s.insert x := by
  by_cases hadds : P x ∧ x ∉ s
  case pos =>
    refine .inr ⟨hadds.1, hadds.2, eq_of_mem_iff fun y => ?_⟩
    rw [h, mem_insert, or_comm, and_iff_left_of_imp fun heq : y = x => heq ▸ hadds.1]
  case neg =>
    refine .inl (eq_of_mem_iff fun y => ?_)
    rw [h]
    refine or_iff_left_of_imp ?_
    rintro ⟨rfl, hy⟩
    exact Decidable.byContradiction fun hnot => hadds ⟨hy, hnot⟩

/-! ## Gaps -/

/-- The way to `id` from the nearest other member before it, or from `me` if there is none. -/
def gap (s : NodeSet) (me id : NodeId) : Nat :=
  clockwise (((s.roundFrom id).getLast?.filter (· ≠ id)).getD me) id

theorem gap_of_before (h : s.Before id x) : s.gap me id = clockwise x id := by
  rw [gap, getLast?_roundFrom.mpr h, Option.getD_some]

theorem gap_of_alone (h : ∀ x ∈ s, x = id) : s.gap me id = clockwise me id := by
  have hnone : (s.roundFrom id).getLast?.filter (· ≠ id) = none := by
    apply Option.eq_none_iff_forall_ne_some.mpr
    intro x hx
    have hbefore := getLast?_roundFrom.mp hx
    exact hbefore.2.1 (h x hbefore.1)
  rw [gap, hnone, Option.getD_none]

/-- From a point between a member and the nearest one before it, the latter is the nearest one before as
well once the member is left out. -/
theorem before_of_between (h : s.Before id x) (hbetween : clockwise y id < clockwise x id)
    (hy : y ∉ s) : (s.erase id).Before y x := by
  obtain ⟨hx, hne, hnearest⟩ := h
  refine ⟨mem_erase.mpr ⟨hx, hne⟩, fun heq => hy (heq ▸ hx), fun z hz _ => ?_⟩
  obtain ⟨hz, hzne⟩ := mem_erase.mp hz
  have hle := hnearest z hz hzne
  have hpass := clockwise_add_of_le' (Nat.le_of_lt hbetween)
  have hpass' := clockwise_add_of_le' (Nat.le_trans (Nat.le_of_lt hbetween) hle)
  omega

end NodeSet

namespace Ring

variable {r r' : Ring} {failed x y : NodeId}

/-- A node that is taken over as a peer when the superpeer `failed` right before is gone. -/
structure Adopts (r : Ring) (failed y : NodeId) : Prop where
  admits : r.admits y = true
  unlisted : y ∉ r.superpeers
  between : Arc.contains ⟨(r.previousBefore failed).getD r.me, failed, .upperClosed⟩ y = true

/-- Who is taken over lies between the failed superpeer and the one before it. -/
theorem Adopts.gap_eq (h : r.Adopts failed y) (hlisted : failed ∈ r.superpeers)
    (hne : failed ≠ r.me) :
    (r.superpeers.erase failed).gap r.me y =
        clockwise ((r.previousBefore failed).getD r.me) y ∧
      (r.superpeers.erase failed).gap r.me y < (r.superpeers.erase failed).gap r.me failed := by
  have hyne : y ≠ failed := fun heq => h.unlisted (heq ▸ hlisted)
  have hpos := clockwise_pos hyne
  have hbetween := h.between
  cases hprevious : r.previousBefore failed with
  | some start =>
    have hbefore := previousBefore_eq_some_iff.mp hprevious
    rw [hprevious, Option.getD_some, Arc.mem_upperClosed_iff hbefore.2.1] at hbetween
    have hpass := clockwise_add_of_le' (Nat.le_of_lt hbetween)
    rw [NodeSet.gap_of_before (NodeSet.before_of_between hbefore hbetween h.unlisted),
      NodeSet.gap_of_before (NodeSet.before_erase_self.mpr hbefore), Option.getD_some]
    exact ⟨rfl, by omega⟩
  | none =>
    have hnone : ∀ id, ∀ z ∈ r.superpeers.erase failed, z = id := by
      intro id z hz
      obtain ⟨hz, hzne⟩ := NodeSet.mem_erase.mp hz
      obtain ⟨start, hstart⟩ := NodeSet.exists_before hz hzne
      rw [previousBefore_eq_some_iff.mpr hstart] at hprevious
      cases hprevious
    rw [hprevious, Option.getD_none, Arc.mem_upperClosed_iff hne.symm] at hbetween
    have hpass := clockwise_add_of_le' (Nat.le_of_lt hbetween)
    rw [NodeSet.gap_of_alone (hnone y), NodeSet.gap_of_alone (hnone failed), Option.getD_none]
    exact ⟨rfl, by omega⟩

/-! ## The burden of a view -/

/-- The superpeers other than the one before the node. -/
def others (r : Ring) : NodeSet :=
  match r.predecessor with
  | some predecessor => r.superpeers.erase predecessor
  | none => r.superpeers

/-- What a node weighs in a view. -/
def weightOf (r : Ring) (y : NodeId) : Nat := 2 ^ r.others.gap r.me y

theorem weightOf_pos (r : Ring) (y : NodeId) : 0 < r.weightOf y := Nat.two_pow_pos _

/-- The weight of the peers and of the predecessor. -/
def burden (r : Ring) : Nat :=
  r.peers.weight r.weightOf + (r.predecessor.map r.weightOf).getD 0

/-- Peers that are taken over from the predecessor weigh less than it did. -/
theorem weight_adopted_lt (hpredecessor : r.predecessor = some failed)
    (hlisted : failed ∈ r.superpeers) (hne : failed ≠ r.me) {u : NodeSet}
    (hu : ∀ y ∈ u, y ∈ r.peers ∨ r.Adopts failed y) : u.weight r.weightOf < r.burden := by
  have hothers : r.others = r.superpeers.erase failed := by rw [others, hpredecessor]
  have hadopted : ∀ y ∈ u, y ∉ r.peers → r.Adopts failed y := fun y hy hnot =>
    (hu y hy).resolve_left hnot
  rw [burden, hpredecessor, Option.map_some, Option.getD_some]
  apply NodeSet.weight_add_lt
  · intro y hy hnot
    rw [hothers]
    exact ((hadopted y hy hnot).gap_eq hlisted hne).2
  · intro y hy z hz hynot hznot heq
    rw [hothers, ((hadopted y hy hynot).gap_eq hlisted hne).1,
      ((hadopted z hz hznot).gap_eq hlisted hne).1] at heq
    exact eq_of_clockwise_from heq

/-- If one of the peers `u` becomes the predecessor, the burden is at most that of `u`. -/
theorem burden_le {new : NodeId} {u : NodeSet} (hothers : r'.others = r.others)
    (hme : r'.me = r.me) (hpredecessor : r'.predecessor = some new) (hnew : new ∈ u)
    (hpeers : ∀ y ∈ r'.peers, y ∈ u ∧ y ≠ new) : r'.burden ≤ u.weight r.weightOf := by
  have hweight : r'.weightOf = r.weightOf := by
    funext y
    rw [weightOf, weightOf, hothers, hme]
  rw [burden, hpredecessor, hweight, Option.map_some, Option.getD_some]
  exact NodeSet.weight_add_le (fun y hy => (hpeers y hy).1) hnew fun hy => (hpeers new hy).2 rfl

/-- There are fewer superpeers, or as many and the burden is smaller. -/
def Lighter (r' r : Ring) : Prop :=
  r'.superpeers.size < r.superpeers.size ∨
    r'.superpeers.size = r.superpeers.size ∧ r'.burden < r.burden

/-! ## Repairs -/

/-- What is made of a view when the failure of a listed node is handled. Only who was `promoted`
takes the place of another. -/
inductive Repaired (promoted : NodeId → Prop) (failed : NodeId) (r : Ring) : Ring → Prop
  | forgotten (h : failed ∉ r.superpeers) (hpeer : failed ∈ r.peers) :
      Repaired promoted failed r (r.removePeer failed)
  | lost {bootstrap : NodeId} {u : NodeSet} (h : failed ∈ r.superpeers) :
      Repaired promoted failed r ({ r with bootstrap, peers := u }.removeSuperpeer failed)
  | replaced {bootstrap new : NodeId} {u : NodeSet} {moved : List NodeId} {alone : Bool}
      (h : failed ∈ r.superpeers) (hne : failed ≠ r.me) (hpredecessor : r.predecessor = some failed)
      (hu : ∀ y ∈ u, y ∈ r.peers ∨ r.Adopts failed y) (hnew : new ∈ u) (hpromoted : promoted new) :
      Repaired promoted failed r
        (Node.splitRing ({ r with bootstrap, peers := u }.removeSuperpeer failed) moved new alone)

variable {promoted : NodeId → Prop} {bootstrap new : NodeId} {u : NodeSet}

theorem superpeers_lost (r : Ring) (failed bootstrap : NodeId) (u : NodeSet) :
    ({ r with bootstrap, peers := u }.removeSuperpeer failed).superpeers =
      r.superpeers.erase failed := by
  obtain ⟨hsuperpeers, -⟩ := removeSuperpeer_shape { r with bootstrap, peers := u } failed
  exact NodeSet.eq_of_mem_iff fun x => (hsuperpeers x).trans NodeSet.mem_erase.symm

/-- A superpeer takes the place of the one before the node, which makes the view lighter. -/
theorem lighter_replaced {moved : List NodeId} {alone : Bool} (hlisted : failed ∈ r.superpeers)
    (hne : failed ≠ r.me) (hpredecessor : r.predecessor = some failed)
    (hu : ∀ y ∈ u, y ∈ r.peers ∨ r.Adopts failed y) (hnew : new ∈ u) :
    (Node.splitRing ({ r with bootstrap, peers := u }.removeSuperpeer failed) moved new
      alone).Lighter r := by
  have hsuperpeers := superpeers_lost r failed bootstrap u
  have hpeers := (removeSuperpeer_shape { r with bootstrap, peers := u } failed).2.1
  have hme := me_removeSuperpeer { r with bootstrap, peers := u } failed
  generalize { r with bootstrap, peers := u }.removeSuperpeer failed = r₁ at *
  obtain ⟨t, v, hsplit, ht, hv⟩ := splitRing_shape r₁ moved new alone
  rw [hsuperpeers] at ht
  rw [hpeers] at hv
  have hsize := NodeSet.size_eq_of_mem hlisted
  have hothers : r.others = r.superpeers.erase failed := by rw [others, hpredecessor]
  rw [hsplit]
  rcases NodeSet.eq_or_eq_insert ht with hsame | ⟨hadmits, hnot, hinsert⟩
  case inl =>
    -- Nobody is listed in its place.
    left
    show t.size < _
    rw [hsame]
    omega
  case inr =>
    have herase : t.erase new = r.superpeers.erase failed := by
      rw [hinsert, NodeSet.erase_insert hnot]
    right
    rw [filter_ne (admits_iff.mp hadmits).1]
    constructor
    · show t.size = _
      rw [hinsert, NodeSet.size_insert hnot]
      omega
    · -- All gaps are as before, since the predecessor does not count.
      refine Nat.lt_of_le_of_lt (burden_le (herase.trans hothers.symm) hme rfl hnew ?_)
        (weight_adopted_lt hpredecessor hlisted hne hu)
      intro y hy
      obtain ⟨⟨hyu, -⟩, hyne⟩ := (hv y).mp hy
      exact ⟨hyu, hyne⟩

/-- Whatever is done about a failure makes the view lighter. -/
theorem Repaired.lighter (h : Repaired promoted failed r r') : r'.Lighter r := by
  cases h with
  | forgotten _ hpeer =>
    refine .inr ⟨rfl, ?_⟩
    have hless := NodeSet.weight_add_le (w := r.weightOf)
      (fun y (hy : y ∈ r.peers.erase failed) => (NodeSet.mem_erase.mp hy).1) hpeer
      (r.peers.not_mem_erase_self failed)
    have hpos := r.weightOf_pos failed
    show (r.peers.erase failed).weight r.weightOf + (r.predecessor.map r.weightOf).getD 0 <
      r.peers.weight r.weightOf + (r.predecessor.map r.weightOf).getD 0
    omega
  | lost h =>
    have hsize := NodeSet.size_eq_of_mem h
    left
    rw [superpeers_lost]
    omega
  | replaced h hne hpredecessor hu hnew _ => exact lighter_replaced h hne hpredecessor hu hnew

/-- A superpeer that is listed afterwards was promoted, or it was listed before and has not failed. -/
theorem Repaired.listed (h : Repaired promoted failed r r') (hx : x ∈ r'.superpeers) :
    promoted x ∨ x ∈ r.superpeers ∧ (failed ∈ r.superpeers → x ≠ failed) := by
  cases h with
  | forgotten h => exact .inr ⟨hx, fun hlisted => absurd hlisted h⟩
  | lost =>
    rw [superpeers_lost] at hx
    obtain ⟨hx, hne⟩ := NodeSet.mem_erase.mp hx
    exact .inr ⟨hx, fun _ => hne⟩
  | replaced _ _ _ _ _ hpromoted =>
    obtain ⟨t, u, hsplit, ht, -⟩ := splitRing_shape _ _ _ _
    rw [hsplit] at hx
    rcases (ht x).mp hx with hx | ⟨rfl, -⟩
    · rw [superpeers_lost] at hx
      obtain ⟨hx, hne⟩ := NodeSet.mem_erase.mp hx
      exact .inr ⟨hx, fun _ => hne⟩
    · exact .inl hpromoted

end Ring

end ChunkDirectory
