import ChunkDirectory.Proofs.Tree.History
import ChunkDirectory.Proofs.Wire.Codec

/-!
# Changes that are made again

A tree that arrives in a message may have boundaries beyond the local identifiers, and boundaries
at which nothing changes. The first change of owners drops the latter (`LookupTree.Reduced`). What
is left is determined by the owners at all 64-bit numbers: there is a boundary exactly where the
owner differs from the one just before (`mem_changes_iff`), so that reduced trees with the same
owners are equal (`Reduced.eq`).

It follows that whatever the tree was before, to make an assignment again changes nothing
(`assign_assign`), and neither does it to hand over again (`reassign_reassign`) or to forget a list
of chunks again (`foldl_remove_twice`).
-/

namespace ChunkDirectory

namespace LookupTree

variable {t u : LookupTree} {current : Option NodeId} {l : List (UInt64 × Option NodeId)}
  {b e : UInt64 × Option NodeId} {first last id : UInt64} {owner : Option NodeId}

/-! ## The boundaries that are kept -/

/-- The owner just before a place. -/
def ownerBefore (current : Option NodeId) (l : List (UInt64 × Option NodeId)) (place : UInt64) :
    Option NodeId :=
  if place = 0 then current else ownerFrom current l (place - 1)

theorem rank_pred {place : UInt64} (h : place ≠ 0) : rank (place - 1) + 1 = rank place := by
  have hpos : 0 < place.toNat := Nat.pos_of_ne_zero fun heq => h (UInt64.toNat_inj.mp heq)
  show (place - 1).toNat + 1 = place.toNat
  rw [UInt64.toNat_sub_of_le _ _ hpos]
  exact Nat.sub_add_cancel hpos

/-- Up to the first boundary everything belongs to the current owner. -/
theorem ownerBefore_of_le {place : UInt64} (h : ∀ b ∈ l, rank place ≤ rank b.1) :
    ownerBefore current l place = current := by
  unfold ownerBefore
  split
  case isTrue => rfl
  case isFalse hne =>
    exact ownerFrom_of_lt fun b hb => Nat.lt_of_lt_of_le (Nat.lt_of_lt_of_eq (Nat.lt_succ_self _)
      (rank_pred hne)) (h b hb)

/-- Behind the first boundary only the others count. -/
theorem ownerBefore_cons {place : UInt64} (h : rank b.1 < rank place) :
    ownerBefore current (b :: l) place = ownerBefore b.2 l place := by
  have hne : place ≠ 0 := by
    rintro rfl
    exact Nat.not_lt_zero _ h
  have hle : rank b.1 ≤ rank (place - 1) := 
    Nat.le_of_lt_succ (Nat.lt_of_lt_of_eq h (rank_pred hne).symm)
  rw [ownerBefore, ownerBefore, if_neg hne, if_neg hne]
  exact if_pos hle

/-- A boundary at which nothing changes says nothing. -/
theorem ownerFrom_cons_same (hsame : b.2 = current) (h : ∀ e ∈ l, rank b.1 < rank e.1)
    (place : UInt64) : ownerFrom current (b :: l) place = ownerFrom current l place := by
  rw [ownerFrom, hsame]
  split
  case isTrue => rfl
  case isFalse hlt =>
    exact (ownerFrom_of_lt fun e he => Nat.lt_trans (Nat.not_le.mp hlt) (h e he)).symm

/-- The boundaries that are kept are the places where the owner differs from the one before. -/
theorem mem_changes_iff (hasc : l.Pairwise fun a b => rank a.1 < rank b.1) :
    b ∈ changes current l ↔
      ownerFrom current l b.1 = b.2 ∧ b.2 ≠ ownerBefore current l b.1 := by
  induction l generalizing current with
  | nil =>
    have hbefore : ownerBefore current [] b.1 = current := ownerBefore_of_le fun _ h => by cases h
    rw [hbefore]
    exact ⟨fun h => (List.not_mem_nil h).elim, fun h => absurd h.1.symm h.2⟩
  | cons e rest ih =>
    obtain ⟨hhead, htail⟩ := List.pairwise_cons.mp hasc
    by_cases hsame : e.2 = current
    · have howner := ownerFrom_cons_same hsame hhead
      rw [changes, if_pos hsame, ih htail, howner, ownerBefore, ownerBefore, howner]
    rw [changes, if_neg hsame, List.mem_cons]
    rcases Nat.lt_trichotomy (rank b.1) (rank e.1) with hlt | heq | hgt
    · -- Before the first boundary nothing changes.
      have hafter : ∀ x ∈ e :: rest, rank b.1 < rank x.1 :=
        List.forall_mem_cons.mpr ⟨hlt, fun x hx => Nat.lt_trans hlt (hhead x hx)⟩
      rw [ownerFrom_of_lt hafter, ownerBefore_of_le fun x hx => Nat.le_of_lt (hafter x hx)]
      refine ⟨fun h => ?_, fun h => absurd h.1.symm h.2⟩
      have hmem : b ∈ e :: rest :=
        List.mem_cons.mpr (h.imp_right fun h => (changes_sublist e.2 rest).subset h)
      exact absurd (hafter b hmem) (Nat.lt_irrefl _)
    · -- The first boundary is kept.
      have hkey : b.1 = e.1 := Ranked.rank_injective heq
      have hself : ownerFrom current (e :: rest) e.1 = e.2 :=
        (if_pos (Nat.le_refl _)).trans (ownerFrom_of_lt hhead)
      have hbefore : ownerBefore current (e :: rest) e.1 = current :=
        ownerBefore_of_le (List.forall_mem_cons.mpr
          ⟨Nat.le_refl _, fun x hx => Nat.le_of_lt (hhead x hx)⟩)
      rw [hkey, hself, hbefore]
      constructor
      · rintro (rfl | h)
        · exact ⟨rfl, hsame⟩
        · have hlater := hhead b ((changes_sublist e.2 rest).subset h)
          exact absurd heq (Nat.ne_of_gt hlater)
      · exact fun h => .inl (Prod.ext hkey h.1.symm)
    · -- Behind it the others decide.
      have hcons : ownerFrom current (e :: rest) b.1 = ownerFrom e.2 rest b.1 :=
        if_pos (Nat.le_of_lt hgt)
      rw [hcons, ownerBefore_cons hgt, ← ih htail]
      refine or_iff_right ?_
      rintro rfl
      exact Nat.lt_irrefl _ hgt

/-! ## Reduced trees -/

/-- The tree has no boundary at which nothing changes. -/
def Reduced (t : LookupTree) : Prop := t.normalize = t

/-- The owners determine which boundaries are kept. -/
theorem normalize_owners_congr (hcreator : t.creator = u.creator)
    (h : ∀ id, t.ownerAt id = u.ownerAt id) : t.normalize.owners = u.normalize.owners := by
  have howner : ∀ id, ownerFrom (some t.creator) t.owners.entries id =
      ownerFrom (some t.creator) u.owners.entries id := by
    intro id
    have hsame := h id
    rwa [ownerAt_eq, ownerAt_eq, ← hcreator] at hsame
  refine SortedMap.eq_of_get? fun k => SortedMap.get?_congr fun v => ?_
  show (k, v) ∈ changes (some t.creator) t.owners.entries ↔
    (k, v) ∈ changes (some u.creator) u.owners.entries
  rw [← hcreator, mem_changes_iff t.owners.ascending, mem_changes_iff u.owners.ascending,
    ownerBefore, ownerBefore, howner, howner]

theorem reduced_normalize (t : LookupTree) : t.normalize.Reduced := by
  have howners := normalize_owners_congr (t := t.normalize) (u := t) rfl fun id => by simp
  show { t.normalize with owners := t.normalize.normalize.owners } = t.normalize
  rw [howners]

/-- Reduced trees that differ in nothing but boundaries are equal if their owners are. -/
theorem Reduced.eq (ht : t.Reduced) (hu : u.Reduced) (hboundaries : ∃ owners, u = { t with owners })
    (h : ∀ id, u.ownerAt id = t.ownerAt id) : u = t := by
  obtain ⟨owners, rfl⟩ := hboundaries
  have howners := normalize_owners_congr (t := { t with owners }) (u := t) rfl h
  rw [hu, ht] at howners
  exact congrArg (fun owners => { t with owners }) howners

theorem reduced_assign (t : LookupTree) (first last : UInt64) (owner : Option NodeId) :
    (t.assign first last owner).Reduced := reduced_normalize _

theorem reduced_reassign (t : LookupTree) (owner restorer : NodeId) :
    (t.reassign owner restorer).Reduced := reduced_normalize _

/-! ## To assign what is there -/

/-- Without a boundary between the end of a span and a place behind it, they have one owner. -/
theorem ownerAt_eq_of_no_boundary (hle : last ≤ id)
    (h : ∀ b ∈ t.owners.entries, ¬ (last < b.1 ∧ b.1 ≤ id)) : t.ownerAt id = t.ownerAt last := by
  have hsame : ∀ e ∈ t.owners.entries, rank e.1 ≤ rank id ↔ rank e.1 ≤ rank last := fun e he =>
    ⟨fun hid => Nat.not_lt.mp fun hlt => h e he ⟨hlt, hid⟩, fun hlast => Nat.le_trans hlast hle⟩
  rw [ownerAt, ownerAt, (SortedMap.neighbours_congr hsame).1]

/-- To overwrite a span with the owner it has changes no owner, not even beyond the local
identifiers. -/
theorem ownerAt_overwrite_of_owned (hspan : first ≤ last)
    (howned : ∀ x, first ≤ x → x ≤ last → t.ownerAt x = owner) (id : UInt64) :
    (t.overwrite first last owner).ownerAt id = t.ownerAt id := by
  rcases Nat.lt_or_ge (rank id) (rank first) with hbefore | hfirst
  · exact ownerAt_overwrite_of_lt hbefore
  rcases Nat.lt_or_ge (rank last) (rank id) with hafter | hlast
  swap
  · rw [ownerAt_overwrite_of_mem ⟨hfirst, hlast⟩, howned id hfirst hlast]
  by_cases hboundary : ∃ b ∈ t.owners.entries, last < b.1 ∧ b.1 ≤ id
  · obtain ⟨b, hb, hlast, hid⟩ := hboundary
    exact ownerAt_overwrite_of_boundary hspan hb hlast hid
  -- Otherwise the place belongs to whom the end of the span belongs to.
  have hnone : ∀ b ∈ t.owners.entries, ¬ (last < b.1 ∧ b.1 ≤ id) :=
    fun b hb h => hboundary ⟨b, hb, h⟩
  have hnone' : ∀ b ∈ (t.overwrite first last owner).owners.entries,
      ¬ (last < b.1 ∧ b.1 ≤ id) := by
    intro b hb h
    rcases mem_owners_overwrite.mp hb with rfl | ⟨hb, -⟩
    · exact absurd h.1 (Nat.not_lt.mpr hspan)
    · exact hnone b hb h
  have hend : (t.overwrite first last owner).ownerAt last = owner :=
    ownerAt_overwrite_of_mem ⟨hspan, Nat.le_refl _⟩
  rw [ownerAt_eq_of_no_boundary (Nat.le_of_lt hafter) hnone',
    ownerAt_eq_of_no_boundary (Nat.le_of_lt hafter) hnone, hend,
    howned last hspan (Nat.le_refl _)]

theorem ownerAt_assign_of_owned (hspan : first ≤ last)
    (howned : ∀ x, first ≤ x → x ≤ last → t.ownerAt x = owner) (id : UInt64) :
    (t.assign first last owner).ownerAt id = t.ownerAt id := by
  rw [assign_eq, ownerAt_normalize]
  split
  case isTrue =>
    have hsplit : ∀ x, first ≤ x → x ≤ last → (t.splitAt (last + 1)).ownerAt x = owner :=
      fun x h h' => (ownerAt_splitAt t (last + 1) x).trans (howned x h h')
    rw [ownerAt_overwrite_of_owned hspan hsplit, ownerAt_splitAt]
  case isFalse => exact ownerAt_overwrite_of_owned hspan howned id

/-- To assign what is there leaves a reduced tree as it is. -/
theorem Reduced.assign (h : t.Reduced) (hspan : first ≤ last)
    (howned : ∀ x, first ≤ x → x ≤ last → t.ownerAt x = owner) : t.assign first last owner = t :=
  h.eq (reduced_assign t first last owner) (t.exists_assign_eq first last owner)
    (ownerAt_assign_of_owned hspan howned)

/-! ## Changes made twice -/

theorem assign_assign (t : LookupTree) (s : Span) (owner : Option NodeId) :
    (t.assign s.first s.last owner).assign s.first s.last owner =
      t.assign s.first s.last owner :=
  (reduced_assign t s.first s.last owner).assign s.ordered fun _ hfirst hlast =>
    (ownerAt_assign s.ordered (UInt64.le_trans hlast s.bounded)).trans (if_pos ⟨hfirst, hlast⟩)

/-- What went to the restorer stays there. -/
theorem handOver_handOver (owner restorer : NodeId) (o : Option NodeId) :
    handOver owner restorer (handOver owner restorer o) = handOver owner restorer o := by
  by_cases hsame : restorer = owner
  · have hself : ∀ o, handOver owner owner o = o := fun o => by
      unfold handOver
      split
      case isTrue heq => exact heq.symm
      case isFalse => rfl
    rw [hsame, hself]
  · exact handOver_of_ne (handOver_ne hsame o)

theorem reassign_reassign (t : LookupTree) (owner restorer : NodeId) :
    (t.reassign owner restorer).reassign owner restorer = t.reassign owner restorer :=
  (reduced_reassign t owner restorer).eq (reduced_reassign _ owner restorer)
    (exists_reassign_eq _ owner restorer) fun id => by
      rw [ownerAt_reassign, ownerAt_reassign, handOver_handOver]

theorem initRange_initRange (t : LookupTree) (first : ChunkId) (backups : BackupPeers) :
    (t.initRange first backups).initRange first backups = t.initRange first backups := by
  unfold initRange
  rw [SortedMap.insert_insert]

theorem initMigrationRange_initMigrationRange (t : LookupTree) (batch : UInt32)
    (backups : BackupPeers) :
    (t.initMigrationRange batch backups).initMigrationRange batch backups =
      t.initMigrationRange batch backups := by
  unfold initMigrationRange
  rw [SortedMap.insert_insert]

/-! ## Chunks that are forgotten again -/

theorem remove_eq_assign (t : LookupTree) (chunk : ChunkId) :
    t.remove chunk = t.assign chunk.localId chunk.localId none := rfl

theorem ownerAt_remove {chunk : ChunkId} (hid : id ≤ maxLocalId) :
    (t.remove chunk).ownerAt id = if id = chunk.localId then none else t.ownerAt id := by
  rw [remove_eq_assign, ownerAt_assign (UInt64.le_refl _) hid]
  refine if_congr ?_ rfl rfl
  exact ⟨fun h => UInt64.le_antisymm h.2 h.1, fun h => h ▸ ⟨UInt64.le_refl _, UInt64.le_refl _⟩⟩

/-- A chunk that was forgotten is not there after further chunks are forgotten, and the listed
chunks are not there at all. -/
theorem ownerAt_foldl_remove (chunks : List ChunkId) (hid : id ≤ maxLocalId)
    (h : t.ownerAt id = none ∨ ∃ chunk ∈ chunks, chunk.localId = id) :
    (chunks.foldl remove t).ownerAt id = none := by
  induction chunks generalizing t with
  | nil => exact h.resolve_right fun ⟨_, hmem, _⟩ => by cases hmem
  | cons chunk rest ih =>
    refine ih ?_
    rw [ownerAt_remove hid]
    by_cases hchunk : id = chunk.localId
    · exact .inl (if_pos hchunk)
    · rw [if_neg hchunk]
      refine h.imp_right fun ⟨other, hother, heq⟩ => ⟨other, ?_, heq⟩
      exact (List.mem_cons.mp hother).resolve_left fun hsame => hchunk (hsame ▸ heq).symm

/-- To forget chunks that are not there leaves a reduced tree as it is. -/
theorem Reduced.foldl_remove (h : t.Reduced) {chunks : List ChunkId}
    (hgone : ∀ chunk ∈ chunks, t.ownerAt chunk.localId = none) : chunks.foldl remove t = t := by
  induction chunks with
  | nil => rfl
  | cons chunk rest ih =>
    have hfirst : t.remove chunk = t := h.assign (UInt64.le_refl _) fun x hge hle => by
      rw [UInt64.le_antisymm hle hge]
      exact hgone chunk List.mem_cons_self
    rw [List.foldl_cons, hfirst]
    exact ih fun other hother => hgone other (List.mem_cons_of_mem chunk hother)

theorem reduced_foldl_remove (t : LookupTree) (first : ChunkId) (rest : List ChunkId) :
    ((first :: rest).foldl remove t).Reduced := by
  have hrest : ∀ u : LookupTree, u.Reduced → (rest.foldl remove u).Reduced := fun u hu =>
    List.foldlRecOn (motive := Reduced) rest remove hu fun u _ chunk _ =>
      reduced_assign u chunk.localId chunk.localId none
  exact hrest _ (reduced_assign t first.localId first.localId none)

theorem foldl_remove_twice (t : LookupTree) (first : ChunkId) (rest : List ChunkId) :
    (first :: rest).foldl remove ((first :: rest).foldl remove t) =
      (first :: rest).foldl remove t :=
  (reduced_foldl_remove t first rest).foldl_remove fun chunk hchunk =>
    ownerAt_foldl_remove _ chunk.localId_le (.inr ⟨chunk, hchunk, rfl⟩)

end LookupTree

end ChunkDirectory
