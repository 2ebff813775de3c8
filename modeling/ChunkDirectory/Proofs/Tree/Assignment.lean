import ChunkDirectory.Proofs.Tree.Owners

/-!
# Owners after an assignment

To assign a span of objects is to put a boundary at its start, to take away those inside, and to
have one behind its end, where the owner from before goes on. Exactly the objects of the span change
hands (`LookupTree.ownerAt_assign`).

This is said of local identifiers, which have 48 bits. Behind the last of them there is no boundary,
so that a span that ends there hands over what lies beyond as well.
-/

namespace ChunkDirectory

/-! ## Local identifiers -/

theorem ChunkId.localId_le (chunk : ChunkId) : chunk.localId ≤ maxLocalId := by
  rw [UInt64.le_iff_toNat_le, localId, UInt64.toNat_and]
  exact Nat.and_le_right

/-- A local identifier has no bits beyond those of the largest one. -/
theorem and_maxLocalId {localId : UInt64} (h : localId ≤ maxLocalId) :
    localId &&& maxLocalId = localId := by
  rw [← UInt64.toNat_inj, UInt64.toNat_and]
  exact (Nat.and_two_pow_sub_one_eq_mod localId.toNat 48).trans
    (Nat.mod_eq_of_lt (Nat.lt_succ_of_le h))

theorem toNat_succ_of_lt {localId : UInt64} (h : localId < maxLocalId) :
    (localId + 1).toNat = localId.toNat + 1 := by
  have hlt : localId.toNat < maxLocalId.toNat := h
  rw [UInt64.toNat_add]
  exact Nat.mod_eq_of_lt (Nat.lt_of_le_of_lt hlt (by decide))

namespace LookupTree

variable {t u : LookupTree} {id first last next : UInt64} {owner : Option NodeId}

theorem ownerAt_of_floor? {b : UInt64 × Option NodeId} (h : t.owners.floor? id = some b) :
    t.ownerAt id = b.2 := by
  rw [ownerAt, h]

/-- Trees of one creator with the same boundaries up to an object agree on its owner. -/
theorem ownerAt_congr (hcreator : t.creator = u.creator)
    (h : ∀ b : UInt64 × Option NodeId, rank b.1 ≤ rank id →
      (b ∈ t.owners.entries ↔ b ∈ u.owners.entries)) : t.ownerAt id = u.ownerAt id := by
  rw [ownerAt, ownerAt, SortedMap.floor?_congr h, hcreator]

/-! ## The boundary behind a span -/

/-- A tree can be split anywhere without a change of owners. -/
@[simp] theorem ownerAt_splitAt (t : LookupTree) (next id : UInt64) :
    (t.splitAt next).ownerAt id = t.ownerAt id := by
  unfold splitAt
  split
  case isTrue => rfl
  case isFalse =>
    rw [ownerAt_eq t next, ownerAt_eq, ownerAt_eq]
    exact ownerFrom_insertEntry t.owners.ascending next id

/-- Boundaries elsewhere stay. -/
theorem mem_owners_splitAt {b : UInt64 × Option NodeId} (h : b.1 ≠ next) :
    b ∈ (t.splitAt next).owners.entries ↔ b ∈ t.owners.entries := by
  unfold splitAt
  split
  case isTrue => exact Iff.rfl
  case isFalse =>
    rw [SortedMap.mem_entries_insert]
    exact ⟨fun hb => hb.elim (fun heq => absurd (congrArg Prod.fst heq) h) And.left,
      fun hb => .inr ⟨hb, h⟩⟩

/-- There is a boundary where a tree was split. -/
theorem exists_mem_owners_splitAt (t : LookupTree) (next : UInt64) :
    ∃ o, (next, o) ∈ (t.splitAt next).owners.entries := by
  unfold splitAt
  split
  case isTrue hcontains =>
    obtain ⟨o, ho⟩ := Option.isSome_iff_exists.mp hcontains
    exact ⟨o, SortedMap.get?_eq_some_iff.mp ho⟩
  case isFalse => exact ⟨_, SortedMap.mem_entries_insert.mpr (.inl rfl)⟩

/-! ## The span -/

/-- Gives the identifiers from `first` on to `owner`, up to the first boundary after `last`. -/
def overwrite (t : LookupTree) (first last : UInt64) (owner : Option NodeId) : LookupTree :=
  { t with owners := (t.owners.filter fun k _ => k < first || last < k).insert first owner }

theorem assign_eq : t.assign first last owner =
    normalize
      ((if last < maxLocalId then t.splitAt (last + 1) else t).overwrite first last owner) :=
  rfl

theorem mem_owners_overwrite {b : UInt64 × Option NodeId} :
    b ∈ (t.overwrite first last owner).owners.entries ↔
      b = (first, owner) ∨ (b ∈ t.owners.entries ∧ (b.1 < first ∨ last < b.1) ∧ b.1 ≠ first) := by
  have hfilter : b ∈ (t.owners.filter fun k _ => k < first || last < k).entries ↔
      b ∈ t.owners.entries ∧ (b.1 < first ∨ last < b.1) := by
    simp only [SortedMap.filter, SortedMap.restrict, List.mem_filter, Bool.or_eq_true,
      decide_eq_true_eq]
  rw [overwrite, SortedMap.mem_entries_insert, hfilter, and_assoc]

/-- Objects before the span are not concerned. -/
theorem ownerAt_overwrite_of_lt (h : id < first) :
    (t.overwrite first last owner).ownerAt id = t.ownerAt id := by
  refine ownerAt_congr rfl fun b hb => ?_
  have hlt : b.1 < first := Nat.lt_of_le_of_lt hb h
  have hne : b.1 ≠ first := UInt64.ne_of_lt hlt
  rw [mem_owners_overwrite]
  exact ⟨fun hmem => hmem.elim (fun heq => absurd (congrArg Prod.fst heq) hne) And.left,
    fun hmem => .inr ⟨hmem, .inl hlt, hne⟩⟩

/-- The objects of the span get the new owner. -/
theorem ownerAt_overwrite_of_mem (h : first ≤ id ∧ id ≤ last) :
    (t.overwrite first last owner).ownerAt id = owner := by
  refine ownerAt_of_floor? (b := (first, owner)) (SortedMap.floor?_eq_some_iff.mpr
    ⟨mem_owners_overwrite.mpr (.inl rfl), h.1, fun x hx hle => ?_⟩)
  rcases mem_owners_overwrite.mp hx with rfl | ⟨-, hlt | hlt, -⟩
  · exact Nat.le_refl _
  · exact Nat.le_of_lt hlt
  · exact absurd (Nat.lt_of_lt_of_le hlt hle) (Nat.not_lt.mpr h.2)

/-- Behind the span, past the next boundary, nothing changes. -/
theorem ownerAt_overwrite_of_boundary (hspan : first ≤ last) {b : UInt64 × Option NodeId}
    (hb : b ∈ t.owners.entries) (hlast : last < b.1) (hid : b.1 ≤ id) :
    (t.overwrite first last owner).ownerAt id = t.ownerAt id := by
  cases hfloor : t.owners.floor? id with
  | none => exact absurd (SortedMap.floor?_eq_none_iff.mp hfloor b hb) (Nat.not_lt.mpr hid)
  | some e =>
    obtain ⟨he, hle, hmax⟩ := SortedMap.floor?_eq_some_iff.mp hfloor
    have hafter : rank last < rank e.1 := Nat.lt_of_lt_of_le hlast (hmax b hb hid)
    have hfirst : rank first < rank e.1 := Nat.lt_of_le_of_lt hspan hafter
    have hne : e.1 ≠ first := fun heq => Nat.lt_irrefl _ (heq ▸ hfirst)
    rw [ownerAt_of_floor? hfloor]
    refine ownerAt_of_floor? (SortedMap.floor?_eq_some_iff.mpr
      ⟨mem_owners_overwrite.mpr (.inr ⟨he, .inr hafter, hne⟩), hle, fun x hx hxle => ?_⟩)
    rcases mem_owners_overwrite.mp hx with rfl | ⟨hx, -⟩
    · exact Nat.le_of_lt hfirst
    · exact hmax x hx hxle

/-- An assignment is about owners only. -/
theorem exists_assign_eq (t : LookupTree) (first last : UInt64) (owner : Option NodeId) :
    ∃ owners, t.assign first last owner = { t with owners } := by
  rw [assign_eq, splitAt]
  split
  · split <;> exact ⟨_, rfl⟩
  · exact ⟨_, rfl⟩

/-- The objects of the span change hands, and no others. -/
theorem ownerAt_assign (hspan : first ≤ last) (hid : id ≤ maxLocalId) :
    (t.assign first last owner).ownerAt id =
      if first ≤ id ∧ id ≤ last then owner else t.ownerAt id := by
  rw [assign_eq, ownerAt_normalize]
  by_cases hmem : first ≤ id ∧ id ≤ last
  · rw [if_pos hmem, ownerAt_overwrite_of_mem hmem]
  rw [if_neg hmem]
  have hsplit : (if last < maxLocalId then t.splitAt (last + 1) else t).ownerAt id =
      t.ownerAt id := by
    split
    · exact ownerAt_splitAt t (last + 1) id
    · rfl
  rw [← hsplit]
  by_cases hbefore : id < first
  · exact ownerAt_overwrite_of_lt hbefore
  have hafter : last < id :=
    UInt64.not_le.mp fun hle => hmem ⟨UInt64.not_lt.mp hbefore, hle⟩
  -- An object behind the span has the boundary behind the span at or below it.
  have hlast : last < maxLocalId := UInt64.lt_of_lt_of_le hafter hid
  have hnext := toNat_succ_of_lt hlast
  obtain ⟨o, ho⟩ := exists_mem_owners_splitAt t (last + 1)
  rw [if_pos hlast]
  refine ownerAt_overwrite_of_boundary hspan ho ?_ ?_
  · rw [UInt64.lt_iff_toNat_lt, hnext]
    exact Nat.lt_succ_self _
  · rw [UInt64.le_iff_toNat_le, hnext]
    exact hafter

end LookupTree

end ChunkDirectory
