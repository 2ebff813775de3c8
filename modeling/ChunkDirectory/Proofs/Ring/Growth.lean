import ChunkDirectory.Proofs.Ring.Exact

/-!
# A newcomer on the ring

What becomes of neighbours and owners when `new` is added to a ring `s` in which `owner` owns its
position. The newcomer comes to stand between the owner and the member before it
(`before_newcomer`, `owner_before`), all other neighbours stay as they are
(`Before.insert_of_not_owns`, `After.insert_of_not_owns`), and what the newcomer owns is taken from
the owner alone (`owns_insert_iff`, `owns_of_newcomer_owns`).
-/

namespace ChunkDirectory

open NodeId

namespace NodeSet

variable {s : NodeSet} {new owner p x y z id : NodeId}

/-- A member that is nearest in a set is nearest in each part of the set that it belongs to. -/
theorem Before.mono {t : NodeSet} (h : s.Before id x) (hsub : ∀ y ∈ t, y ∈ s) (hx : x ∈ t) :
    t.Before id x :=
  ⟨hx, h.2.1, fun y hy hne => h.2.2 y (hsub y hy) hne⟩

/-- Whether the starting point itself is a member makes no difference to its neighbours. -/
theorem Before.insert_self (h : s.Before id x) : (s.insert id).Before id x := by
  refine ⟨mem_insert.mpr (.inr h.1), h.2.1, fun y hy hne => ?_⟩
  exact h.2.2 y ((mem_insert.mp hy).resolve_left hne) hne

/-! ## Around the newcomer -/

/-- The member before the owner is the one before the newcomer. -/
theorem before_newcomer (hown : s.Owns new owner) (hnew : new ∉ s) (hp : s.Before owner p) :
    s.Before new p := by
  have hpnew : p ≠ new := fun heq => hnew (heq ▸ hp.1)
  have hnear := (owns_iff_of_before hown.1 hp).mp hown
  have hpass := clockwise_add_of_le' (Nat.le_of_lt hnear)
  refine ⟨hp.1, hpnew, fun y hy hynew => ?_⟩
  by_cases hyowner : y = owner
  · have hround := clockwise_add_swap hynew
    have hlt := clockwise_lt p owner
    subst hyowner
    omega
  · have hle := hp.2.2 y hy hyowner
    have hpass' := clockwise_add_of_le' (Nat.le_trans (Nat.le_of_lt hnear) hle)
    omega

/-- In a ring of one member that member is before the newcomer. -/
theorem before_newcomer_of_alone (hown : s.Owns new owner) (hnew : new ∉ s)
    (halone : ∀ y ∈ s, y = owner) : s.Before new owner := by
  refine ⟨hown.1, fun heq => hnew (heq ▸ hown.1), fun y hy _ => ?_⟩
  exact Nat.le_of_eq (by rw [halone y hy])

/-- The newcomer is the member before the owner. -/
theorem owner_before (hown : s.Owns new owner) (hnew : new ∉ s) :
    (s.insert new).Before owner new := by
  refine ⟨mem_insert.mpr (.inl rfl), fun heq => hnew (heq ▸ hown.1), fun y hy hyowner => ?_⟩
  rcases mem_insert.mp hy with rfl | hy
  · exact Nat.le_refl _
  · obtain ⟨p, hp⟩ := exists_before hy hyowner
    have hnear := (owns_iff_of_before hown.1 hp).mp hown
    exact Nat.le_trans (Nat.le_of_lt hnear) (hp.2.2 y hy hyowner)

/-! ## Elsewhere -/

/-- A member that does not own the newcomer's position keeps the member before it. -/
theorem Before.insert_of_not_owns (h : s.Before y z) (hy : y ∈ s) (hnot : ¬ s.Owns new y) :
    (s.insert new).Before y z := by
  refine ⟨mem_insert.mpr (.inr h.1), h.2.1, fun x hx hne => ?_⟩
  rcases mem_insert.mp hx with rfl | hx
  · rw [owns_iff_of_before hy h] at hnot
    exact Nat.le_of_not_lt hnot
  · exact h.2.2 x hx hne

/-- A member keeps the one after it if that one does not own the newcomer's position. -/
theorem After.insert_of_not_owns (h : s.After y z) (hy : y ∈ s) (hnot : ¬ s.Owns new z) :
    (s.insert new).After y z :=
  ((h.before hy).insert_of_not_owns h.1 hnot).after (mem_insert.mpr (.inr h.1))

/-- What the newcomer owns was the owner's. -/
theorem owns_of_newcomer_owns (hown : s.Owns new owner) (h : (s.insert new).Owns id new) :
    s.Owns id owner := by
  refine ⟨hown.1, fun y hy => ?_⟩
  have hle := h.2 owner (mem_insert.mpr (.inr hown.1))
  have hle' := h.2 y (mem_insert.mpr (.inr hy))
  have hpass := clockwise_add_of_le hle
  have hpass' := clockwise_add_of_le hle'
  have hmin := hown.2 y hy
  omega

/-- The other members own what they owned before and the newcomer does not own. -/
theorem owns_insert_iff (hnew : new ∉ s) (hy : y ∈ s) :
    (s.insert new).Owns id y ↔ s.Owns id y ∧ ¬ (s.insert new).Owns id new := by
  have hne : y ≠ new := fun heq => hnew (heq ▸ hy)
  constructor
  · intro h
    exact ⟨⟨hy, fun x hx => h.2 x (mem_insert.mpr (.inr hx))⟩, fun h' => hne (h.unique h')⟩
  · rintro ⟨h, hnot⟩
    obtain ⟨x, hx⟩ := exists_owner (mem_insert.mpr (.inl rfl) : new ∈ s.insert new) id
    rcases mem_insert.mp hx.1 with rfl | hxs
    · exact absurd hx hnot
    · have hold : s.Owns id x := ⟨hxs, fun w hw => hx.2 w (mem_insert.mpr (.inr hw))⟩
      rw [h.unique hold]
      exact hx

/-- Members other than the owner own what they owned before. -/
theorem owns_insert_iff_of_ne (hown : s.Owns new owner) (hnew : new ∉ s) (hy : y ∈ s)
    (hne : y ≠ owner) : (s.insert new).Owns id y ↔ s.Owns id y := by
  rw [owns_insert_iff hnew hy]
  refine and_iff_left_of_imp fun h hnewcomer => hne ?_
  exact h.unique (owns_of_newcomer_owns hown hnewcomer)

/-! ## Closing in on the owner -/

/-- How many members lie before `x` on the way from `id`. -/
def rank (s : NodeSet) (id x : NodeId) : Nat :=
  (s.toList.filter fun y => clockwise id y < clockwise id x).length

/-- A nearer member has a lower rank. -/
theorem rank_lt (hy : y ∈ s) (h : clockwise id y < clockwise id x) : s.rank id y < s.rank id x := by
  have hsub : s.toList.filter (fun z => clockwise id z < clockwise id y) =
      (s.toList.filter fun z => clockwise id z < clockwise id x).filter
        fun z => clockwise id z < clockwise id y := by
    rw [List.filter_filter]
    refine List.filter_congr fun z _ => ?_
    have hiff : clockwise id z < clockwise id y ↔
        clockwise id z < clockwise id y ∧ clockwise id z < clockwise id x :=
      ⟨fun hz => ⟨hz, Nat.lt_trans hz h⟩, fun hz => hz.1⟩
    simpa using hiff
  rw [rank, rank, hsub]
  refine List.length_filter_lt_length_iff_exists.mpr ⟨y, ?_, ?_⟩
  · exact List.mem_filter.mpr ⟨hy, decide_eq_true h⟩
  · simp

/-- Not every member has a lower rank than a member. -/
theorem rank_lt_size (hx : x ∈ s) : s.rank id x < s.size := by
  refine List.length_filter_lt_length_iff_exists.mpr ⟨x, hx, ?_⟩
  simp

/-- Seen from a member that does not own `id`, the one before it is nearer to `id`. -/
theorem Before.nearer (h : s.Before x p) (hx : x ∈ s) (hnot : ¬ s.Owns id x) :
    clockwise id p < clockwise id x := by
  rw [owns_iff_of_before hx h] at hnot
  have hpass := clockwise_add_of_le' (Nat.le_of_not_lt hnot)
  have hpos := clockwise_pos h.2.1
  omega

end NodeSet

end ChunkDirectory
