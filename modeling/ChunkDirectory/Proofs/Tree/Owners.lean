import ChunkDirectory.Proofs.SortedMap
import ChunkDirectory.Tree.Basic

/-!
# Owners of objects

The boundaries of a tree, read from left to right with the owner so far in hand, give the owner of
each object (`LookupTree.ownerAt_eq`). In this form it is plain that boundaries at which nothing
changes can be added (`ownerFrom_insertEntry`) and dropped (`ownerAt_normalize`) and that to
exchange an owner in all boundaries is to exchange it for all objects (`ownerAt_reassign`).
-/

namespace ChunkDirectory

namespace LookupTree

/-- Who owns an object after everything of `owner` went to `restorer`. -/
def handOver (owner restorer : NodeId) (o : Option NodeId) : Option NodeId :=
  if o = some owner then some restorer else o

/-- If they are different, `owner` is left with nothing. -/
theorem handOver_ne {owner restorer : NodeId} (h : restorer ≠ owner) (o : Option NodeId) :
    handOver owner restorer o ≠ some owner := by
  unfold handOver
  split
  case isTrue => exact fun heq => h (Option.some.inj heq)
  case isFalse hne => exact hne

theorem handOver_of_ne {owner restorer : NodeId} {o : Option NodeId} (h : o ≠ some owner) :
    handOver owner restorer o = o := if_neg h

variable {t : LookupTree} {current : Option NodeId} {l : List (UInt64 × Option NodeId)}

/-- The owner of an object by the boundaries `l`, if `current` owns everything before them. -/
def ownerFrom (current : Option NodeId) (l : List (UInt64 × Option NodeId)) (localId : UInt64) :
    Option NodeId :=
  match l with
  | [] => current
  | b :: rest => if rank b.1 ≤ rank localId then ownerFrom b.2 rest localId else current

/-- Objects before the first boundary belong to the current owner. -/
theorem ownerFrom_of_lt {localId : UInt64} (h : ∀ b ∈ l, rank localId < rank b.1) :
    ownerFrom current l localId = current := by
  cases l with
  | nil => rfl
  | cons b rest => exact if_neg (Nat.not_le.mpr (h b List.mem_cons_self))

/-- The last boundary that is not above an object decides. -/
theorem ownerFrom_eq (h : l.Pairwise fun a b => rank a.1 < rank b.1) (localId : UInt64) :
    ownerFrom current l localId =
      (((l.filter fun e => rank e.1 ≤ rank localId).getLast?).map (·.2)).getD current := by
  induction l generalizing current with
  | nil => rfl
  | cons b rest ih =>
    obtain ⟨hhead, htail⟩ := List.pairwise_cons.mp h
    by_cases hb : rank b.1 ≤ rank localId
    · have hfilter : (b :: rest).filter (fun e => rank e.1 ≤ rank localId) =
          b :: rest.filter fun e => rank e.1 ≤ rank localId :=
        List.filter_cons_of_pos (decide_eq_true hb)
      rw [ownerFrom, if_pos hb, ih htail, hfilter, List.getLast?_cons]
      cases (rest.filter fun e => rank e.1 ≤ rank localId).getLast? <;> rfl
    · have hafter : ∀ e ∈ b :: rest, ¬ rank e.1 ≤ rank localId := by
        intro e he
        rcases List.mem_cons.mp he with rfl | he
        · exact hb
        · exact fun hle => hb (Nat.le_trans (Nat.le_of_lt (hhead e he)) hle)
      rw [ownerFrom, if_neg hb, List.filter_eq_nil_iff.mpr fun e he => by simpa using hafter e he]
      rfl

theorem ownerAt_eq (t : LookupTree) (localId : UInt64) :
    t.ownerAt localId = ownerFrom (some t.creator) t.owners.entries localId := by
  rw [ownerFrom_eq t.owners.ascending, ownerAt, SortedMap.floor?]
  cases (t.owners.entries.filter fun e => rank e.1 ≤ rank localId).getLast? <;> rfl

/-! ## Adding a boundary -/

/-- A boundary that says what holds there anyway makes no difference. -/
theorem ownerFrom_insertEntry (h : l.Pairwise fun a b => rank a.1 < rank b.1)
    (place localId : UInt64) :
    ownerFrom current (SortedMap.insertEntry place (ownerFrom current l place) l) localId =
      ownerFrom current l localId := by
  induction l generalizing current with
  | nil =>
    show (if rank place ≤ rank localId then current else current) = current
    exact ite_self current
  | cons b rest ih =>
    obtain ⟨hhead, htail⟩ := List.pairwise_cons.mp h
    rw [SortedMap.insertEntry]
    split
    case isTrue hbefore =>
      -- The place lies before all boundaries, where the current owner is.
      have hcurrent : ownerFrom current (b :: rest) place = current :=
        if_neg (Nat.not_le.mpr hbefore)
      rw [hcurrent, ownerFrom]
      split
      case isTrue => rfl
      case isFalse hlt =>
        exact (if_neg fun hle => hlt (Nat.le_trans (Nat.le_of_lt hbefore) hle)).symm
    case isFalse hge =>
      have hplace : ownerFrom current (b :: rest) place = ownerFrom b.2 rest place :=
        if_pos (Nat.not_lt.mp hge)
      rw [hplace]
      split
      case isTrue heq =>
        have howner : ownerFrom b.2 rest place = b.2 := ownerFrom_of_lt fun e he => heq ▸ hhead e he
        rw [howner, ownerFrom, ownerFrom, heq]
      case isFalse => rw [ownerFrom, ownerFrom, ih htail]
/-! ## Dropping boundaries -/

theorem ownerFrom_changes (h : l.Pairwise fun a b => rank a.1 < rank b.1) (localId : UInt64) :
    ownerFrom current (changes current l) localId = ownerFrom current l localId := by
  induction l generalizing current with
  | nil => rfl
  | cons b rest ih =>
    obtain ⟨hhead, htail⟩ := List.pairwise_cons.mp h
    by_cases hsame : b.2 = current
    · rw [changes, if_pos hsame, ih htail, ownerFrom, hsame]
      split
      case isTrue => rfl
      case isFalse hlt =>
        exact ownerFrom_of_lt fun e he => Nat.lt_trans (Nat.not_le.mp hlt) (hhead e he)
    · rw [changes, if_neg hsame, ownerFrom, ownerFrom, ih htail]

@[simp] theorem ownerAt_normalize (t : LookupTree) (localId : UInt64) :
    t.normalize.ownerAt localId = t.ownerAt localId := by
  rw [ownerAt_eq, ownerAt_eq]
  exact ownerFrom_changes t.owners.ascending localId

/-! ## Exchanging an owner -/

theorem ownerFrom_map (f : Option NodeId → Option NodeId) (localId : UInt64) :
    ownerFrom (f current) (l.map fun e => (e.1, f e.2)) localId =
      f (ownerFrom current l localId) := by
  induction l generalizing current with
  | nil => rfl
  | cons b rest ih =>
    rw [List.map_cons, ownerFrom, ownerFrom, apply_ite f, ih]

/-- A boundary in front of all others, with the owner that is there anyway, makes no difference. -/
theorem ownerFrom_insert_zero (m : SortedMap UInt64 (Option NodeId)) (h : m.contains 0 = false)
    (localId : UInt64) :
    ownerFrom current (m.insert 0 current).entries localId =
      ownerFrom current m.entries localId := by
  have hafter : ∀ b ∈ m.entries, rank (0 : UInt64) < rank b.1 := by
    rintro ⟨k, o⟩ hb
    refine Nat.pos_of_ne_zero fun heq => ?_
    obtain rfl : k = 0 := Ranked.rank_injective heq
    rw [SortedMap.contains, SortedMap.get?_eq_some_iff.mpr hb] at h
    cases h
  have hinsert : ownerFrom current
      (SortedMap.insertEntry 0 (ownerFrom current m.entries 0) m.entries) localId =
      ownerFrom current m.entries localId :=
    ownerFrom_insertEntry m.ascending 0 localId
  rwa [ownerFrom_of_lt hafter] at hinsert

/-- Once the first object has a boundary, it makes no difference who owns what lies before. -/
theorem ownerFrom_of_contains_zero {m : SortedMap UInt64 (Option NodeId)}
    (h : m.contains 0 = true) (a b : Option NodeId) (localId : UInt64) :
    ownerFrom a m.entries localId = ownerFrom b m.entries localId := by
  obtain ⟨v, hv⟩ := Option.isSome_iff_exists.mp h
  have hmem := SortedMap.get?_eq_some_iff.mp hv
  have hasc := m.ascending
  revert hmem hasc
  cases m.entries with
  | nil => exact fun hmem _ => by cases hmem
  | cons e rest =>
    intro hmem hasc
    have hfirst : rank e.1 ≤ rank localId := by
      rcases List.mem_cons.mp hmem with rfl | hrest
      · exact Nat.zero_le _
      · exact absurd ((List.pairwise_cons.mp hasc).1 _ hrest) (Nat.not_lt_zero _)
    rw [ownerFrom, ownerFrom, if_pos hfirst, if_pos hfirst]

/-- The restorer owns what the owner owned, and everything else is as it was. -/
@[simp] theorem ownerAt_reassign (t : LookupTree) (owner restorer : NodeId) (localId : UInt64) :
    (t.reassign owner restorer).ownerAt localId =
      handOver owner restorer (t.ownerAt localId) := by
  have hmap : ∀ (m : SortedMap UInt64 (Option NodeId)) (current : Option NodeId),
      ownerFrom (handOver owner restorer current)
        (m.mapValues fun _ => handOver owner restorer).entries localId =
      handOver owner restorer (ownerFrom current m.entries localId) :=
    fun m current => ownerFrom_map (handOver owner restorer) localId
  rw [reassign, ownerAt_normalize, ownerAt_eq, ownerAt_eq]
  by_cases hcreator : owner = t.creator
  · subst hcreator
    -- The objects before the first boundary are the creator's, which is the one to be replaced.
    cases hzero : t.owners.contains 0 with
    | true =>
      simp only [decide_true, Bool.not_true, Bool.and_false, Bool.false_eq_true, if_false]
      refine (ownerFrom_of_contains_zero ?_ _ _ localId).trans (hmap t.owners (some t.creator))
      rw [SortedMap.contains, SortedMap.get?_mapValues, Option.isSome_map]
      exact hzero
    | false =>
      simp only [decide_true, Bool.not_false, Bool.and_true, if_true]
      refine (ownerFrom_of_contains_zero ?_ _ _ localId).trans
        ((hmap _ (some t.creator)).trans ?_)
      · rw [SortedMap.contains, SortedMap.get?_mapValues, SortedMap.get?_insert_self]
        rfl
      · rw [ownerFrom_insert_zero t.owners hzero]
  · have hkept : handOver owner restorer (some t.creator) = some t.creator :=
      handOver_of_ne fun heq => hcreator (Option.some.inj heq).symm
    have hsame := hmap t.owners (some t.creator)
    rw [hkept] at hsame
    simp only [hcreator, decide_false, Bool.false_and, Bool.false_eq_true, if_false]
    exact hsame

/-! ## Locations -/

/-- Where an object lives is decided by its owner. -/
theorem primary_locate (t : LookupTree) (chunk : ChunkId) :
    (t.locate chunk).map (·.primary) = t.ownerAt chunk.localId := by
  unfold locate
  simp only [Option.map_map]
  refine (congrArg (fun f => (t.ownerAt chunk.localId).map f) (funext fun primary => ?_)).trans
    Option.map_id_apply
  simp only [Function.comp_apply, id_eq]
  split <;> rfl

end LookupTree

end ChunkDirectory
