import ChunkDirectory.Proofs.Ring.Loss

/-!
# Windows by counting

Who keeps what is a question of how many members lie between a position and a superpeer
(`NodeSet.between`). At most three others are met on the way from a position to each of its holders
(`NodeSet.mem_holders_iff`), and at most three superpeers of its list are met on the way from a
position in its area to a superpeer (`Ring.area_contains_iff`). A longer list can only make an area
smaller (`NodeSet.between_mono`).
-/

namespace ChunkDirectory

open NodeId

namespace NodeSet

variable {s t : NodeSet} {id x : NodeId}

/-- How many members other than `x` are met on the way from `id` to `x`. -/
def between (s : NodeSet) (id x : NodeId) : Nat :=
  (s.erase x).toList.countP fun y => clockwise y x ≤ clockwise id x

/-- What is met on the way depends on the other members only. -/
theorem between_mono (h : ∀ y ∈ s, y ≠ x → y ∈ t) : s.between id x ≤ t.between id x := by
  have hsubset : (s.erase x).toList ⊆ (t.erase x).toList := by
    intro y hy
    obtain ⟨hys, hyx⟩ := mem_erase.mp hy
    exact mem_erase.mpr ⟨h y hys hyx, hyx⟩
  exact (List.subperm_of_subset (s.erase x).toList_nodup hsubset).countP_le _

theorem between_erase_self : (s.erase x).between id x = s.between id x :=
  Nat.le_antisymm (between_mono fun _ hy _ => (mem_erase.mp hy).1)
    (between_mono fun _ hy hyx => mem_erase.mpr ⟨hy, hyx⟩)

theorem between_le_size : s.between id x ≤ s.size :=
  Nat.le_trans List.countP_le_length (List.length_filter_le _ _)

/-- A member holds a position exactly if at most three others come first. -/
theorem mem_holders_iff (h : x ∈ s) : x ∈ s.holders id ↔ s.between id x ≤ replicas := by
  have hperm : (s.roundFrom id).Perm s.toList :=
    (List.perm_ext_iff_of_nodup (s.roundFrom_nodup id) s.toList_nodup).mpr fun _ => mem_roundFrom
  have hcount : (s.roundFrom id).countP (fun y => clockwise id y < clockwise id x) =
      s.between id x := by
    rw [hperm.countP_eq, between, erase, filter, List.countP_filter]
    refine List.countP_congr fun y _ => ?_
    -- A member comes before `x` in the round exactly if it lies on the way from `id` to `x`.
    simp only [decide_eq_true_eq, Bool.and_eq_true]
    constructor
    · intro hlt
      have hpass := clockwise_add_of_le (Nat.le_of_lt hlt)
      exact ⟨by omega, fun heq => Nat.lt_irrefl _ (heq ▸ hlt)⟩
    · rintro ⟨hle, hne⟩
      have hpass := clockwise_add_of_le' hle
      have hpos := clockwise_pos hne
      omega
  rw [holders, mem_take_iff_of_ascending (s.roundFrom_ascending id) (mem_roundFrom.mpr h), hcount,
    Nat.lt_succ_iff]

/-- The other members by how far they still are from `x`, the nearest one first. -/
theorem reverse_roundFrom_ascending (s : NodeSet) (x : NodeId) :
    ((s.erase x).roundFrom x).reverse.Pairwise fun a b => clockwise a x < clockwise b x := by
  refine List.pairwise_reverse.mpr (((s.erase x).roundFrom_ascending x).imp_of_mem ?_)
  intro a b ha hb hlt
  have hax := (mem_erase.mp (mem_roundFrom.mp ha)).2
  have hbx := (mem_erase.mp (mem_roundFrom.mp hb)).2
  have hturn := clockwise_add_swap hax
  have hturn' := clockwise_add_swap hbx
  omega

theorem countP_reverse_roundFrom (s : NodeSet) (id x : NodeId) :
    ((s.erase x).roundFrom x).reverse.countP (fun y => clockwise y x ≤ clockwise id x) =
      s.between id x := by
  have hperm : ((s.erase x).roundFrom x).Perm (s.erase x).toList :=
    (List.perm_ext_iff_of_nodup ((s.erase x).roundFrom_nodup x) (s.erase x).toList_nodup).mpr
      fun _ => mem_roundFrom
  exact ((List.reverse_perm _).trans hperm).countP_eq _

end NodeSet

/-! ## On the way to a member -/

namespace NodeSet

variable {s : NodeSet} {id x p q w : NodeId}

/-- The owner of a position is on the way from there to every member. -/
theorem Owns.passed (h : s.Owns q w) (hx : x ∈ s) (hne : w ≠ x) : Passed q x w := by
  have hway := clockwise_add_of_le (h.2 x hx)
  exact ⟨hne, by omega⟩

/-- Of those that are met on the way to `x` there is a first one, after which the others are met. -/
theorem exists_first_passed (h : ∃ w ∈ s, Passed id x w) :
    ∃ p, (s.erase x).Owns id p ∧ Passed id x p ∧
      ∀ w ∈ s, Passed id x w ↔ w = p ∨ Passed (p.forward 1) x w := by
  obtain ⟨w, hw, hwx, hway⟩ := h
  obtain ⟨p, hp⟩ := exists_owner (mem_erase.mpr ⟨hw, hwx⟩) id
  have hpx := (mem_erase.mp hp.1).2
  have hpass := clockwise_add_of_le' hway
  have hle := hp.2 w (mem_erase.mpr ⟨hw, hwx⟩)
  have hfirst := clockwise_add_of_le (show clockwise id p ≤ clockwise id x by omega)
  refine ⟨p, hp, ⟨hpx, by omega⟩, fun y hy => ?_⟩
  rw [passed_forward_iff hpx]
  constructor
  · rintro ⟨hyx, hyway⟩
    have hypass := clockwise_add_of_le' hyway
    have hnear := hp.2 y (mem_erase.mpr ⟨hy, hyx⟩)
    by_cases heq : y = p
    · exact .inl heq
    · have hne : clockwise y x ≠ clockwise p x := fun hsame => heq (eq_of_clockwise_to hsame)
      exact .inr ⟨hyx, by omega⟩
  · rintro (rfl | ⟨hyx, hlt⟩)
    · exact ⟨hpx, by omega⟩
    · exact ⟨hyx, by omega⟩

/-- After a member that is met there is one less to meet. -/
theorem between_forward_lt (hp : p ∈ s) (h : Passed id x p) :
    s.between (p.forward 1) x < s.between id x := by
  have hperm := List.perm_cons_erase (mem_erase.mpr ⟨hp, h.1⟩ : p ∈ (s.erase x).toList)
  have hnext := clockwise_forward p x
  have hpos := clockwise_pos h.1
  rw [if_neg (Ne.symm h.1)] at hnext
  rw [between, between, hperm.countP_eq, hperm.countP_eq,
    List.countP_cons_of_neg (by rw [decide_eq_true_eq]; omega),
    List.countP_cons_of_pos (by rw [decide_eq_true_eq]; exact h.2)]
  refine Nat.lt_succ_of_le (List.countP_mono_left fun y _ hy => ?_)
  have hle := h.2
  have hy := of_decide_eq_true hy
  exact decide_eq_true (by omega)

/-- Nobody is met after the nearest member before `x`, and after any other one somebody is. -/
theorem before_iff_not_passed (hp : p ∈ s) (hpx : p ≠ x) :
    s.Before x p ↔ ∀ w ∈ s, ¬ Passed (p.forward 1) x w := by
  simp only [passed_forward_iff hpx, not_and, Nat.not_lt]
  exact ⟨fun h => h.2.2, fun h => ⟨hp, hpx, h⟩⟩

end NodeSet

/-! ## A newcomer -/

namespace NodeSet

variable {s : NodeSet} {new owner id x : NodeId}

/-- Who holds a position on the ring with a newcomer held it without, the newcomer apart. -/
theorem mem_holders_of_insert (h : x ∈ (s.insert new).holders id) (hne : x ≠ new) :
    x ∈ s.holders id := by
  have hmem := mem_of_mem_holders h
  have hx := (mem_insert.mp hmem).resolve_left hne
  rw [mem_holders_iff hmem] at h
  rw [mem_holders_iff hx]
  exact Nat.le_trans (between_mono fun y hy _ => mem_insert.mpr (.inr hy)) h

/-- What the newcomer is to hold was held by the owner of its position. -/
theorem owner_mem_holders (hown : s.Owns new owner) (hnew : new ∉ s)
    (h : new ∈ (s.insert new).holders id) : owner ∈ s.holders id := by
  rw [mem_holders_iff (mem_insert.mpr (.inl rfl))] at h
  rw [mem_holders_iff hown.1]
  refine Nat.le_trans ?_ h
  have hbefore := owner_before hown hnew
  have hsubset : (s.erase owner).toList ⊆ ((s.insert new).erase new).toList := by
    intro y hy
    have hys := (mem_erase.mp hy).1
    exact mem_erase.mpr ⟨mem_insert.mpr (.inr hys), fun heq => hnew (heq ▸ hys)⟩
  -- Every way to the owner from a member before the newcomer leads past the newcomer.
  refine Nat.le_trans (List.countP_mono_left fun y hy hway => ?_)
    ((List.subperm_of_subset (s.erase owner).toList_nodup hsubset).countP_le _)
  obtain ⟨hys, hyowner⟩ := mem_erase.mp hy
  have hway := of_decide_eq_true hway
  have hnear := hbefore.2.2 y (mem_insert.mpr (.inr hys)) hyowner
  have hpass := clockwise_add_of_le' hnear
  have hpass' := clockwise_add_of_le' (Nat.le_trans hnear hway)
  exact decide_eq_true (by omega)

/-- The owner of the newcomer's position holds it from then on. -/
theorem owner_mem_holders_newcomer (hown : s.Owns new owner) (hnew : new ∉ s) :
    owner ∈ (s.insert new).holders new := by
  rw [mem_holders_iff (mem_insert.mpr (.inr hown.1))]
  have hbefore := owner_before hown hnew
  have hone : (s.insert new).between new owner ≤ 1 := by
    refine Nat.le_trans (List.countP_mono_left (q := (· == new)) fun y hy hway => ?_)
      (List.nodup_iff_count_le_one.mp ((s.insert new).erase owner).toList_nodup new)
    obtain ⟨hys, hyowner⟩ := mem_erase.mp hy
    have hsame := Nat.le_antisymm (of_decide_eq_true hway) (hbefore.2.2 y hys hyowner)
    exact beq_iff_eq.mpr (eq_of_clockwise_to hsame)
  exact Nat.le_trans hone (by decide)

/-- In a ring of at most four every member holds everything. -/
theorem mem_holders_of_size_le (hx : x ∈ s) (hsize : s.size ≤ replicas + 1) :
    x ∈ s.holders id := by
  have hall : s.holders id = s.roundFrom id :=
    List.take_of_length_le (by rw [length_roundFrom]; exact hsize)
  rw [hall]
  exact mem_roundFrom.mpr hx

end NodeSet

/-- Counter-clockwise from `x` the other members are met first, and at last `x` itself if it is one.
-/
theorem NodeSet.reverse_roundFrom (s : NodeSet) (x : NodeId) :
    ∃ tail, (s.roundFrom x).reverse = ((s.erase x).roundFrom x).reverse ++ tail ∧
      ∀ y ∈ tail, y = x := by
  by_cases hx : x ∈ s
  · exact ⟨[x], by rw [roundFrom_self hx, List.reverse_cons], fun y hy => List.mem_singleton.mp hy⟩
  · have hkept : ∀ y ∈ s.roundFrom x, decide (y ≠ x) = true :=
      fun y hy => decide_eq_true fun heq => hx (heq ▸ mem_roundFrom.mp hy)
    refine ⟨[], ?_, fun y hy => by cases hy⟩
    rw [roundFrom_erase, List.filter_eq_self.mpr hkept, List.append_nil]

/-- A position belongs to an area exactly if at most three listed superpeers are met on the way from
it to where the area ends. -/
theorem Ring.area_contains_iff {r : Ring} {id x : NodeId} :
    (r.area x).contains id = true ↔ r.superpeers.between id x ≤ replicas := by
  have hcount := r.superpeers.countP_reverse_roundFrom id x
  obtain ⟨tail, htail, hself⟩ := r.superpeers.reverse_roundFrom x
  have hasc := r.superpeers.reverse_roundFrom_ascending x
  have hmem : ∀ y ∈ ((r.superpeers.erase x).roundFrom x).reverse, y ≠ x := fun y hy =>
    (NodeSet.mem_erase.mp (NodeSet.mem_roundFrom.mp (List.mem_reverse.mp hy))).2
  unfold Ring.area
  rw [← hcount, htail]
  generalize ((r.superpeers.erase x).roundFrom x).reverse = others at hasc hmem hcount
  split
  case isTrue hsize =>
    rw [hcount]
    exact iff_of_true rfl (Nat.le_trans NodeSet.between_le_size hsize)
  case isFalse =>
    by_cases hfar : replicas < others.length
    · rw [List.getElem?_append_left hfar]
      have hstart := List.getElem?_eq_getElem hfar
      rw [hstart, countP_le_iff_of_ascending hasc hstart]
      exact Arc.mem_upperClosed_iff (hmem _ (List.getElem_mem hfar))
    · have hfew := Nat.not_lt.mp hfar
      refine iff_of_true ?_ (Nat.le_trans List.countP_le_length hfew)
      rw [List.getElem?_append_right hfew]
      cases hend : tail[replicas - others.length]? with
      | none => rfl
      | some y =>
        rw [hself y (List.mem_of_getElem? hend)]
        exact Arc.mem_upperClosed_self x id

end ChunkDirectory
