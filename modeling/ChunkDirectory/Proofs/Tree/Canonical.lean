import ChunkDirectory.Proofs.Tree.History
import ChunkDirectory.Tree.Digest

/-!
# One tree for one content

The boundaries of a tree are canonical if each of them is at a local identifier and changes the
owner (`LookupTree.Canonical`). Every change keeps them so (`Canonical.change`), and canonical
boundaries are determined by the owners of the objects (`Changing.eq`): at the first place where two
such lists differ, an object has different owners.

Trees with the same content are therefore equal and have equal digests, whatever their histories,
and assignments of spans without a common object may be made in either order
(`LookupTree.replay_determined`).
-/

namespace ChunkDirectory

namespace LookupTree

variable {t u : LookupTree} {c d : Change} {current : Option NodeId}
  {l l' rest : List (UInt64 × Option NodeId)} {b : UInt64 × Option NodeId}

/-! ## Boundaries that are needed -/

/-- Ascending boundaries at local identifiers, each of which changes the owner, `current` before the
first. -/
inductive Changing : Option NodeId → List (UInt64 × Option NodeId) → Prop where
  | nil {current : Option NodeId} : Changing current []
  | cons {current : Option NodeId} {b : UInt64 × Option NodeId}
    {rest : List (UInt64 × Option NodeId)} (bounded : b.1 ≤ maxLocalId) (differs : b.2 ≠ current)
    (before : ∀ x ∈ rest, rank b.1 < rank x.1) (tail : Changing b.2 rest) :
    Changing current (b :: rest)

/-- To drop the boundaries at which nothing changes leaves those that are needed. -/
theorem changing_changes (hasc : l.Pairwise fun a b => rank a.1 < rank b.1)
    (hbound : ∀ b ∈ l, b.1 ≤ maxLocalId) : Changing current (changes current l) := by
  induction l generalizing current with
  | nil => exact .nil
  | cons b rest ih =>
    obtain ⟨hhead, htail⟩ := List.pairwise_cons.mp hasc
    have hrest := fun x hx => hbound x (List.mem_cons_of_mem b hx)
    by_cases hsame : b.2 = current
    · rw [changes, if_pos hsame]
      exact ih htail hrest
    · rw [changes, if_neg hsame]
      exact .cons (hbound b List.mem_cons_self) hsame
        (fun x hx => hhead x ((changes_sublist b.2 rest).subset hx)) (ih htail hrest)

/-- The owner at the first boundary. -/
theorem ownerFrom_cons_self (h : Changing current (b :: rest)) :
    ownerFrom current (b :: rest) b.1 = b.2 := by
  cases h with
  | cons _ _ before _ => exact (if_pos (Nat.le_refl _)).trans (ownerFrom_of_lt before)

/-- Behind the first boundary only the others count, and up to it they say what it says. -/
theorem ownerFrom_tail (current : Option NodeId) (before : ∀ x ∈ rest, rank b.1 < rank x.1)
    (localId : UInt64) :
    ownerFrom b.2 rest localId =
      if rank b.1 ≤ rank localId then ownerFrom current (b :: rest) localId else b.2 := by
  split
  case isTrue hle => exact (if_pos hle).symm
  case isFalse hnot =>
    exact ownerFrom_of_lt fun x hx => Nat.lt_trans (Nat.not_le.mp hnot) (before x hx)

/-- Where the same objects have the same owners, no list of boundaries begins before the other. -/
theorem Changing.not_before (h : Changing current (b :: rest))
    (hafter : ∀ x ∈ l, rank b.1 < rank x.1)
    (hsame : ∀ id ≤ maxLocalId, ownerFrom current (b :: rest) id = ownerFrom current l id) :
    False := by
  have hfirst := ownerFrom_cons_self h
  cases h with
  | cons bounded differs _ _ =>
    rw [hsame b.1 bounded, ownerFrom_of_lt hafter] at hfirst
    exact differs hfirst.symm

/-- Boundaries that are needed are determined by the owners. -/
theorem Changing.eq (h : Changing current l) (h' : Changing current l')
    (hsame : ∀ id ≤ maxLocalId, ownerFrom current l id = ownerFrom current l' id) : l = l' := by
  induction h generalizing l' with
  | nil =>
    cases h' with
    | nil => rfl
    | cons bounded differs before tail =>
      exact ((Changing.cons bounded differs before tail).not_before (fun x hx => by cases hx)
        fun id hid => (hsame id hid).symm).elim
  | @cons current b rest bounded differs before tail ih =>
    have hl := Changing.cons bounded differs before tail
    cases h' with
    | nil => exact (hl.not_before (fun x hx => by cases hx) hsame).elim
    | @cons _ b' rest' bounded' differs' before' tail' =>
      have hl' := Changing.cons bounded' differs' before' tail'
      have hle : ¬ rank b.1 < rank b'.1 := fun hlt => hl.not_before (fun x hx =>
        (List.mem_cons.mp hx).elim (fun heq => heq ▸ hlt) fun hx => Nat.lt_trans hlt (before' x hx))
        hsame
      have hge : ¬ rank b'.1 < rank b.1 := fun hlt => hl'.not_before (fun x hx =>
        (List.mem_cons.mp hx).elim (fun heq => heq ▸ hlt) fun hx => Nat.lt_trans hlt (before x hx))
        fun id hid => (hsame id hid).symm
      have hkey : b.1 = b'.1 :=
        Ranked.rank_injective (Nat.le_antisymm (Nat.not_lt.mp hge) (Nat.not_lt.mp hle))
      have howner : b.2 = b'.2 := by
        rw [← ownerFrom_cons_self hl, hsame b.1 bounded, hkey, ownerFrom_cons_self hl']
      obtain rfl : b = b' := Prod.ext hkey howner
      refine congrArg (b :: ·) (ih tail' fun id hid => ?_)
      rw [ownerFrom_tail current before, ownerFrom_tail current before', hsame id hid]

/-! ## Canonical trees -/

/-- The tree has the boundaries that are needed and no others. -/
def Canonical (t : LookupTree) : Prop := Changing (some t.creator) t.owners.entries

theorem canonical_new (creator : NodeId) : (new creator).Canonical := .nil

theorem Canonical.bounded (h : t.Canonical) : ∀ b ∈ t.owners.entries, b.1 ≤ maxLocalId := by
  suffices hlist : ∀ current l, Changing current l → ∀ b ∈ l, b.1 ≤ maxLocalId from
    hlist _ _ h
  intro current l h
  induction h with
  | nil => exact fun b hb => by cases hb
  | cons bounded _ _ _ ih => exact List.forall_mem_cons.mpr ⟨bounded, ih⟩

theorem canonical_normalize (h : ∀ b ∈ t.owners.entries, b.1 ≤ maxLocalId) :
    t.normalize.Canonical := changing_changes t.owners.ascending h

theorem Canonical.assign (h : t.Canonical) (s : Span) (owner : Option NodeId) :
    (t.assign s.first s.last owner).Canonical := by
  rw [assign_eq]
  refine canonical_normalize fun b hb => ?_
  rcases mem_owners_overwrite.mp hb with rfl | ⟨hb, -⟩
  · exact UInt64.le_trans s.ordered s.bounded
  split at hb
  case isTrue hlast =>
    by_cases hnext : b.1 = s.last + 1
    · rw [hnext, UInt64.le_iff_toNat_le, toNat_succ_of_lt hlast]
      exact hlast
    · exact h.bounded b ((mem_owners_splitAt hnext).mp hb)
  case isFalse => exact h.bounded b hb

theorem Canonical.reassign (h : t.Canonical) (owner restorer : NodeId) :
    (t.reassign owner restorer).Canonical := by
  unfold LookupTree.reassign
  refine canonical_normalize fun b hb => ?_
  obtain ⟨e, he, rfl⟩ := List.mem_map.mp hb
  show e.1 ≤ maxLocalId
  split at he
  case isTrue =>
    -- The boundary that is added for the creator is the first possible one.
    rcases SortedMap.mem_entries_insert.mp he with rfl | ⟨he, -⟩
    · exact UInt64.zero_le
    · exact h.bounded e he
  case isFalse => exact h.bounded e he

/-- Every change leaves a canonical tree. -/
theorem Canonical.change (h : t.Canonical) (c : Change) : (t.change c).Canonical := by
  cases hassignment : c.assignment? with
  | some assignment =>
    rw [change_of_assignment hassignment]
    exact h.assign assignment.1 assignment.2
  | none =>
    cases c with
    | migrate | migrateRange | remove => cases hassignment
    | reassign owner restorer => exact h.reassign owner restorer
    | _ => exact h

/-- Whatever history a tree has, it is canonical. -/
theorem canonical_replay (creator : NodeId) (history : List Change) :
    (replay creator history).Canonical :=
  List.foldlRecOn (motive := Canonical) history LookupTree.change (canonical_new creator)
    fun _ h c _ => h.change c

/-! ## Equal trees -/

/-- Two trees of one creator say the same. -/
structure SameContent (t u : LookupTree) : Prop where
  owners : ∀ chunk, (t.locate chunk).map (·.primary) = (u.locate chunk).map (·.primary)
  alive : t.alive = u.alive
  backupRanges : t.backupRanges = u.backupRanges
  migrationRanges : t.migrationRanges = u.migrationRanges

/-- Canonical trees that say the same are equal. -/
theorem Canonical.eq (ht : t.Canonical) (hu : u.Canonical) (hcreator : t.creator = u.creator)
    (howners : ∀ id ≤ maxLocalId, t.ownerAt id = u.ownerAt id) (halive : t.alive = u.alive)
    (hranges : t.backupRanges = u.backupRanges)
    (hmigrated : t.migrationRanges = u.migrationRanges) : t = u := by
  have hentries : t.owners.entries = u.owners.entries := by
    refine Changing.eq ht (hcreator ▸ hu) fun id hid => ?_
    have hsame := howners id hid
    rwa [ownerAt_eq, ownerAt_eq, ← hcreator] at hsame
  obtain ⟨creator, alive, owners, backupRanges, migrationRanges⟩ := t
  obtain rfl := hcreator
  obtain rfl := halive
  obtain rfl := hranges
  obtain rfl := hmigrated
  obtain rfl := SortedMap.ext hentries
  rfl

/-- Every local identifier is that of a chunk. -/
theorem localId_mk {id : UInt64} (h : id ≤ maxLocalId) : (ChunkId.mk id).localId = id :=
  and_maxLocalId h

theorem SameContent.eq (h : t.SameContent u) (hcreator : t.creator = u.creator) (ht : t.Canonical)
    (hu : u.Canonical) : t = u := by
  refine ht.eq hu hcreator (fun id hid => ?_) h.alive h.backupRanges h.migrationRanges
  have hsame := h.owners ⟨id⟩
  rwa [primary_locate, primary_locate, localId_mk hid] at hsame

/-- Two changes assign spans without a common object. -/
def Change.Apart (c d : Change) : Prop :=
  ∃ a ∈ c.assignment?, ∃ b ∈ d.assignment?, ∀ id, id ∈ a.1 → id ∉ b.1

/-- Assignments of spans without a common object may change places. -/
theorem Canonical.change_comm (h : t.Canonical) (hapart : c.Apart d) :
    (t.change c).change d = (t.change d).change c := by
  obtain ⟨⟨s, owner⟩, hc, ⟨s', owner'⟩, hd, hdisjoint⟩ := hapart
  have hother (v : LookupTree) {e : Change} {span : Span} {o : Option NodeId}
      (he : e.assignment? = some (span, o)) :
      (v.change e).alive = v.alive ∧ (v.change e).backupRanges = v.backupRanges ∧
        (v.change e).migrationRanges = v.migrationRanges := by
    obtain ⟨owners, heq⟩ := v.exists_assign_eq span.first span.last o
    rw [change_of_assignment he, heq]
    exact ⟨rfl, rfl, rfl⟩
  obtain ⟨halive, hranges, hmigrated⟩ := hother t hc
  obtain ⟨halive', hranges', hmigrated'⟩ := hother t hd
  obtain ⟨hd₁, hd₂, hd₃⟩ := hother (t.change c) hd
  obtain ⟨hc₁, hc₂, hc₃⟩ := hother (t.change d) hc
  refine ((h.change c).change d).eq ((h.change d).change c) (by simp only [creator_change])
    (fun id hid => ?_) (hd₁.trans (halive.trans (hc₁.trans halive').symm))
    (hd₂.trans (hranges.trans (hc₂.trans hranges').symm))
    (hd₃.trans (hmigrated.trans (hc₃.trans hmigrated').symm))
  rw [ownerAt_change_of_assignment hd _ hid, ownerAt_change_of_assignment hc _ hid,
    ownerAt_change_of_assignment hc _ hid, ownerAt_change_of_assignment hd _ hid]
  by_cases hs : id ∈ s
  · rw [if_pos hs, if_neg (hdisjoint id hs), if_pos hs]
  · rw [if_neg hs, if_neg hs]

/-- What a tree says determines it, and its digest. -/
theorem replay_determined (creator : NodeId) :
    (∀ history history', (replay creator history).SameContent (replay creator history') →
      replay creator history = replay creator history' ∧
        (replay creator history).digest = (replay creator history').digest) ∧
    ∀ (c d : Change) (past rest : List Change), c.Apart d →
      replay creator (past ++ c :: d :: rest) = replay creator (past ++ d :: c :: rest) := by
  constructor
  · intro history history' hsame
    have heq := hsame.eq (by rw [creator_replay, creator_replay])
      (canonical_replay creator history) (canonical_replay creator history')
    exact ⟨heq, congrArg digest heq⟩
  · intro c d past rest hapart
    have hcomm := (canonical_replay creator past).change_comm hapart
    unfold replay at hcomm ⊢
    rw [List.foldl_append, List.foldl_append, List.foldl_cons, List.foldl_cons, List.foldl_cons,
      List.foldl_cons, hcomm]

/-- Objects that went away and came back leave no trace, and an object that is removed meanwhile may
as well be removed before. -/
theorem replay_determined_thereAndBack :
    (replay ⟨150⟩ [.migrateRange ⟨10⟩ ⟨20⟩ ⟨300⟩, .migrateRange ⟨20⟩ ⟨10⟩ ⟨150⟩]).SameContent
        (replay ⟨150⟩ []) ∧
      (Change.migrateRange ⟨10⟩ ⟨20⟩ ⟨300⟩).Apart (.remove ⟨21⟩) ∧
      replay ⟨150⟩ [.migrateRange ⟨10⟩ ⟨20⟩ ⟨300⟩, .migrateRange ⟨20⟩ ⟨10⟩ ⟨150⟩] =
        replay ⟨150⟩ [] ∧
      replay ⟨150⟩ [.migrateRange ⟨10⟩ ⟨20⟩ ⟨300⟩, .remove ⟨21⟩] =
        replay ⟨150⟩ [.remove ⟨21⟩, .migrateRange ⟨10⟩ ⟨20⟩ ⟨300⟩] := by
  have hsame : (replay ⟨150⟩
      [.migrateRange ⟨10⟩ ⟨20⟩ ⟨300⟩, .migrateRange ⟨20⟩ ⟨10⟩ ⟨150⟩]).SameContent
        (replay ⟨150⟩ []) := by
    refine ⟨fun chunk => ?_, rfl, rfl, rfl⟩
    rw [primary_locate, primary_locate, (records_replay _ _).owner _ chunk.localId_le]
    show (if _ ∨ _ then _ else if _ ∨ _ then _ else some (NodeId.mk 150)) = some (NodeId.mk 150)
    grind
  have hapart : (Change.migrateRange ⟨10⟩ ⟨20⟩ ⟨300⟩).Apart (.remove ⟨21⟩) := by
    refine ⟨_, rfl, _, rfl, fun id hspan hsingle => ?_⟩
    obtain rfl : id = 21 := Span.mem_single.mp hsingle
    exact absurd hspan (by decide)
  have hdetermined := replay_determined ⟨150⟩
  exact ⟨hsame, hapart, (hdetermined.1 _ _ hsame).1, hdetermined.2 _ _ [] [] hapart⟩

end LookupTree

end ChunkDirectory
