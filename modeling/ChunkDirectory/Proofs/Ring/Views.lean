import Mathlib.Data.List.Sort
import ChunkDirectory.Proofs.Ring.Exact
import ChunkDirectory.Protocol.Join

/-!
# Changes of a ring view

Each change of a view is described as a whole: the view it results in differs in the named fields
only, and the new lists are given by their members. A node never lists itself or a reserved
identifier, so a list that is taken over loses these.
-/

namespace ChunkDirectory

/-- Sets with the same members are equal. -/
theorem NodeSet.eq_of_mem_iff {s t : NodeSet} (h : ∀ x, x ∈ s ↔ x ∈ t) : s = t := by
  have hirrefl : Std.Irrefl fun a b : NodeId => a < b := ⟨fun a => Nat.lt_irrefl a.toNat⟩
  have hantisymm : Std.Antisymm fun a b : NodeId => a < b :=
    ⟨fun a b hab hba => absurd hab (Nat.lt_asymm hba)⟩
  exact NodeSet.ext (s.ascending.eq_of_mem_iff t.ascending fun _ => h _)

namespace Ring

variable {r : Ring} {id new : NodeId} {ids : List NodeId}

theorem admits_iff : r.admits id = true ↔ id ≠ r.me ∧ id.isReserved = false := by
  simp [admits]

theorem insertSuperpeer_eq (r : Ring) (id : NodeId) :
    ∃ t, r.insertSuperpeer id = { r with superpeers := t } ∧
      ∀ x, x ∈ t ↔ x ∈ r.superpeers ∨ x = id ∧ r.admits x = true := by
  unfold insertSuperpeer
  by_cases hid : r.admits id = true
  · rw [if_pos hid]
    refine ⟨_, rfl, fun x => ?_⟩
    rw [NodeSet.mem_insert, or_comm, and_iff_left_of_imp fun heq => heq ▸ hid]
  · rw [if_neg hid]
    refine ⟨r.superpeers, rfl, fun x => ?_⟩
    refine (or_iff_left ?_).symm
    rintro ⟨rfl, hadmits⟩
    exact hid hadmits

theorem insertPeer_eq (r : Ring) (id : NodeId) :
    ∃ t, r.insertPeer id = { r with peers := t } ∧
      ∀ x, x ∈ t ↔ x ∈ r.peers ∨ x = id ∧ r.admits x = true := by
  unfold insertPeer
  by_cases hid : r.admits id = true
  · rw [if_pos hid]
    refine ⟨_, rfl, fun x => ?_⟩
    rw [NodeSet.mem_insert, or_comm, and_iff_left_of_imp fun heq => heq ▸ hid]
  · rw [if_neg hid]
    refine ⟨r.peers, rfl, fun x => ?_⟩
    refine (or_iff_left ?_).symm
    rintro ⟨rfl, hadmits⟩
    exact hid hadmits

theorem insertSuperpeers_eq (ids : List NodeId) (r : Ring) :
    ∃ t, r.insertSuperpeers ids = { r with superpeers := t } ∧
      ∀ x, x ∈ t ↔ x ∈ r.superpeers ∨ x ∈ ids ∧ r.admits x = true := by
  induction ids generalizing r with
  | nil => exact ⟨r.superpeers, rfl, fun x => by simp⟩
  | cons id rest ih =>
    obtain ⟨t, ht, hmem⟩ := insertSuperpeer_eq r id
    obtain ⟨t', ht', hmem'⟩ := ih (r.insertSuperpeer id)
    rw [ht] at ht' hmem'
    refine ⟨t', ?_, ?_⟩
    · rw [insertSuperpeers, List.foldl_cons, ht]
      exact ht'
    · intro x
      rw [hmem', hmem, List.mem_cons, or_and_right, ← or_assoc]
      exact Iff.rfl

theorem insertPeers_eq (ids : List NodeId) (r : Ring) :
    ∃ t, r.insertPeers ids = { r with peers := t } ∧
      ∀ x, x ∈ t ↔ x ∈ r.peers ∨ x ∈ ids ∧ r.admits x = true := by
  induction ids generalizing r with
  | nil => exact ⟨r.peers, rfl, fun x => by simp⟩
  | cons id rest ih =>
    obtain ⟨t, ht, hmem⟩ := insertPeer_eq r id
    obtain ⟨t', ht', hmem'⟩ := ih (r.insertPeer id)
    rw [ht] at ht' hmem'
    refine ⟨t', ?_, ?_⟩
    · rw [insertPeers, List.foldl_cons, ht]
      exact ht'
    · intro x
      rw [hmem', hmem, List.mem_cons, or_and_right, ← or_assoc]
      exact Iff.rfl

theorem removePeers_eq (ids : List NodeId) (r : Ring) :
    ∃ t, r.removePeers ids = { r with peers := t } ∧ ∀ x, x ∈ t ↔ x ∈ r.peers ∧ x ∉ ids := by
  induction ids generalizing r with
  | nil => exact ⟨r.peers, rfl, fun x => by simp⟩
  | cons id rest ih =>
    obtain ⟨t, ht, hmem⟩ := ih (r.removePeer id)
    refine ⟨t, ?_, ?_⟩
    · rw [removePeers, List.foldl_cons]
      exact ht
    · intro x
      rw [hmem, List.mem_cons, not_or, removePeer, NodeSet.mem_erase, and_assoc]

/-- What a pointer names is listed if it may be. -/
theorem insertPointer_eq (r : Ring) (pointer : Option NodeId) :
    ∃ t, r.insertPointer (pointer.filter (· ≠ r.me)) = { r with superpeers := t } ∧
      ∀ x, x ∈ t ↔ x ∈ r.superpeers ∨ pointer = some x ∧ r.admits x = true := by
  have hpointer (x : NodeId) (hx : r.admits x = true) :
      pointer.filter (· ≠ r.me) = some x ↔ pointer = some x := by
    rw [Option.filter_eq_some_iff]
    exact and_iff_left (decide_eq_true (admits_iff.mp hx).1)
  cases hp : pointer.filter (· ≠ r.me) with
  | none =>
    refine ⟨r.superpeers, rfl, fun x => (or_iff_left ?_).symm⟩
    rintro ⟨hx, hadmits⟩
    rw [← hpointer x hadmits, hp] at hx
    cases hx
  | some id =>
    obtain ⟨t, ht, hmem⟩ := insertSuperpeer_eq r id
    refine ⟨t, ht, fun x => (hmem x).trans (or_congr_right ?_)⟩
    refine and_congr_left fun hadmits => ?_
    rw [← hpointer x hadmits, hp, Option.some_inj, eq_comm]

/-- A pointer never names the node itself. -/
theorem setSuccessor_shape (r : Ring) (pointer : Option NodeId) :
    ∃ t, r.setSuccessor pointer =
        { r with successor := pointer.filter (· ≠ r.me), superpeers := t } ∧
      ∀ x, x ∈ t ↔ x ∈ r.superpeers ∨ pointer = some x ∧ r.admits x = true :=
  insertPointer_eq { r with successor := pointer.filter (· ≠ r.me) } pointer

theorem setPredecessor_shape (r : Ring) (pointer : Option NodeId) :
    ∃ t, r.setPredecessor pointer =
        { r with predecessor := pointer.filter (· ≠ r.me), superpeers := t } ∧
      ∀ x, x ∈ t ↔ x ∈ r.superpeers ∨ pointer = some x ∧ r.admits x = true :=
  insertPointer_eq { r with predecessor := pointer.filter (· ≠ r.me) } pointer

theorem filter_ne (hne : id ≠ r.me) : (some id).filter (· ≠ r.me) = some id := by
  rw [Option.filter_some, if_pos (decide_eq_true hne)]

theorem setSuccessor_eq (r : Ring) (hid : r.admits id = true) :
    ∃ t, r.setSuccessor (some id) = { r with successor := some id, superpeers := t } ∧
      ∀ x, x ∈ t ↔ x ∈ r.superpeers ∨ x = id := by
  obtain ⟨t, ht, hmem⟩ := setSuccessor_shape r (some id)
  rw [filter_ne (admits_iff.mp hid).1] at ht
  refine ⟨t, ht, fun x => (hmem x).trans (or_congr_right ?_)⟩
  rw [Option.some_inj, eq_comm, and_iff_left_of_imp fun heq : x = id => by subst heq; exact hid]

/-- A snapshot that is taken over. -/
theorem adopt_shape (r : Ring) (snapshot : Snapshot) :
    ∃ t u, r.adopt snapshot =
        { r with
          superpeers := t
          peers := u
          predecessor := snapshot.predecessor.filter (· ≠ r.me)
          successor := snapshot.successor.filter (· ≠ r.me) } ∧
      (∀ x, x ∈ t ↔ (x ∈ snapshot.superpeers ∨ snapshot.successor = some x ∨
        snapshot.predecessor = some x) ∧ r.admits x = true) ∧
      ∀ x, x ∈ u ↔ x ∈ snapshot.peers ∧ r.admits x = true := by
  obtain ⟨t₁, h₁, hmem₁⟩ := insertSuperpeers_eq snapshot.superpeers { r with superpeers := ∅ }
  obtain ⟨u, h₂, hmem₂⟩ := insertPeers_eq snapshot.peers { r with superpeers := t₁, peers := ∅ }
  obtain ⟨t₃, h₃, hmem₃⟩ :=
    setSuccessor_shape { r with superpeers := t₁, peers := u } snapshot.successor
  obtain ⟨t, h₄, hmem₄⟩ := setPredecessor_shape
    { r with superpeers := t₃, peers := u, successor := snapshot.successor.filter (· ≠ r.me) }
    snapshot.predecessor
  have hnone : ∀ x : NodeId, x ∉ (∅ : NodeSet) := fun x h => by cases h
  refine ⟨t, u, ?_, ?_, ?_⟩
  · rw [adopt, replaceSuperpeers, h₁, replacePeers, h₂, h₃, h₄]
  · intro x
    rw [hmem₄, hmem₃, hmem₁, or_iff_right (hnone x), or_and_right, or_and_right, or_assoc]
    exact Iff.rfl
  · intro x
    rw [hmem₂, or_iff_right (hnone x)]
    exact Iff.rfl

/-! ## Whose view it is -/

theorem me_setSuccessor (r : Ring) (pointer : Option NodeId) :
    (r.setSuccessor pointer).me = r.me := by
  obtain ⟨t, ht, -⟩ := setSuccessor_shape r pointer
  rw [ht]

theorem me_setPredecessor (r : Ring) (pointer : Option NodeId) :
    (r.setPredecessor pointer).me = r.me := by
  obtain ⟨t, ht, -⟩ := setPredecessor_shape r pointer
  rw [ht]

theorem me_removeSuperpeer (r : Ring) (gone : NodeId) :
    (r.removeSuperpeer gone).me = r.me := by
  unfold removeSuperpeer
  split <;> rfl

theorem me_adopt (r : Ring) (snapshot : Snapshot) : (r.adopt snapshot).me = r.me := by
  obtain ⟨t, u, hadopt, -, -⟩ := adopt_shape r snapshot
  rw [hadopt]

/-! ## Snapshots and splits -/

/-- A snapshot whose pointers name other nodes. -/
theorem adopt_eq {snapshot : Snapshot} {p q : NodeId} (hp : snapshot.predecessor = some p)
    (hq : snapshot.successor = some q) (hpadmits : r.admits p = true)
    (hqadmits : r.admits q = true) :
    ∃ t u, r.adopt snapshot =
        { r with superpeers := t, peers := u, predecessor := some p, successor := some q } ∧
      (∀ x, x ∈ t ↔ x ∈ snapshot.superpeers ∧ r.admits x = true ∨ x = q ∨ x = p) ∧
      ∀ x, x ∈ u ↔ x ∈ snapshot.peers ∧ r.admits x = true := by
  obtain ⟨t, u, hadopt, ht, hu⟩ := adopt_shape r snapshot
  rw [hp, hq, filter_ne (admits_iff.mp hpadmits).1, filter_ne (admits_iff.mp hqadmits).1] at hadopt
  refine ⟨t, u, hadopt, fun x => ?_, hu⟩
  rw [ht, hp, hq, or_and_right, Option.some_inj, Option.some_inj, eq_comm (a := q),
    eq_comm (a := p)]
  refine or_congr_right (and_iff_left_of_imp ?_)
  rintro (rfl | rfl)
  · exact hqadmits
  · exact hpadmits

/-- A range that is split. At the node itself no pointer is set. -/
theorem splitRing_shape (r : Ring) (moved : List NodeId) (new : NodeId) (alone : Bool) :
    ∃ t u, Node.splitRing r moved new alone =
        { r with
          superpeers := t
          peers := u
          predecessor := (some new).filter (· ≠ r.me)
          successor := if alone then (some new).filter (· ≠ r.me) else r.successor } ∧
      (∀ x, x ∈ t ↔ x ∈ r.superpeers ∨ x = new ∧ r.admits x = true) ∧
      ∀ x, x ∈ u ↔ (x ∈ r.peers ∧ x ∉ moved) ∧ x ≠ new := by
  obtain ⟨u, h₁, hmem₁⟩ := removePeers_eq moved r
  have hpeers : ∀ x, x ∈ u.erase new ↔ (x ∈ r.peers ∧ x ∉ moved) ∧ x ≠ new := by
    intro x
    rw [NodeSet.mem_erase, hmem₁]
  cases alone with
  | false =>
    obtain ⟨t, h₂, hmem₂⟩ := setPredecessor_shape { r with peers := u.erase new } (some new)
    refine ⟨t, u.erase new, ?_, fun x => (hmem₂ x).trans (or_congr_right ?_), hpeers⟩
    · rw [Node.splitRing, h₁]
      exact h₂
    · exact and_congr_left fun _ => Option.some_inj.trans eq_comm
  | true =>
    obtain ⟨t₂, h₂, hmem₂⟩ := setSuccessor_shape { r with peers := u.erase new } (some new)
    obtain ⟨t, h₃, hmem₃⟩ := setPredecessor_shape
      { r with
        peers := u.erase new
        successor := (some new).filter (· ≠ r.me)
        superpeers := t₂ } (some new)
    refine ⟨t, u.erase new, ?_, ?_, hpeers⟩
    · rw [Node.splitRing, h₁]
      simp only [if_true]
      rw [removePeer, h₂, h₃]
    · intro x
      rw [hmem₃, hmem₂, or_assoc]
      refine or_congr_right (or_self_iff.trans ?_)
      exact and_congr_left fun _ => Option.some_inj.trans eq_comm

/-- A range that is split at another node. -/
theorem splitRing_eq_of_ne (moved : List NodeId) (alone : Bool) (hne : new ≠ r.me) :
    ∃ t u, Node.splitRing r moved new alone =
        { r with
          superpeers := t
          peers := u
          predecessor := some new
          successor := if alone then some new else r.successor } ∧
      (∀ x, x ∈ t ↔ x ∈ r.superpeers ∨ x = new ∧ r.admits x = true) ∧
      ∀ x, x ∈ u ↔ (x ∈ r.peers ∧ x ∉ moved) ∧ x ≠ new := by
  obtain ⟨t, u, hsplit, hsuperpeers, hpeers⟩ := splitRing_shape r moved new alone
  rw [filter_ne hne] at hsplit
  exact ⟨t, u, hsplit, hsuperpeers, hpeers⟩

/-- A range that is split at a newcomer. -/
theorem splitRing_eq (moved : List NodeId) (alone : Bool) (hnew : r.admits new = true) :
    ∃ t u, Node.splitRing r moved new alone =
        { r with
          superpeers := t
          peers := u
          predecessor := some new
          successor := if alone then some new else r.successor } ∧
      (∀ x, x ∈ t ↔ x ∈ r.superpeers ∨ x = new) ∧
      ∀ x, x ∈ u ↔ (x ∈ r.peers ∧ x ∉ moved) ∧ x ≠ new := by
  obtain ⟨t, u, hsplit, ht, hu⟩ := splitRing_eq_of_ne moved alone (admits_iff.mp hnew).1
  refine ⟨t, u, hsplit, fun x => ?_, hu⟩
  rw [ht, and_iff_left_of_imp fun heq : x = new => by subst heq; exact hnew]

end Ring

end ChunkDirectory
