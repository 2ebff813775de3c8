import ChunkDirectory.Proofs.Ring.Exact
import ChunkDirectory.Proofs.Ring.Loss
import ChunkDirectory.Protocol.Upkeep

/-!
# Learning the ring

A superpeer that knows its neighbours and some others learns about the rest by asking those it knows
for their successors, one after the other. As long as somebody is missing, some listed superpeer has a
successor that is not listed (`NodeSet.Knowing.exists_unknown`). It need not be the next one to be
asked. But each question that teaches nothing brings its turn nearer (`nextToAsk_spec`), and each
question that does leaves one superpeer less to learn about. So the list is complete after a number of
questions that is known in advance, wherever the cursor stands (`NodeSet.Due`, `NodeSet.Due.step`).
-/

namespace ChunkDirectory

open NodeId Protocol

namespace NodeSet

variable {s t l : NodeSet} {me id x y z : NodeId}

/-! ## Sizes -/

theorem size_le_length {ids : List NodeId} (h : ∀ x ∈ s, x ∈ ids) : s.size ≤ ids.length :=
  (List.subperm_of_subset s.toList_nodup h).length_le

theorem length_le_size {ids : List NodeId} (hnodup : ids.Nodup) (h : ∀ x ∈ ids, x ∈ s) :
    ids.length ≤ s.size := (List.subperm_of_subset hnodup h).length_le

theorem size_le_of_subset (h : ∀ x ∈ s, x ∈ t) : s.size ≤ t.size := size_le_length h

theorem eq_of_subset_of_size_le (h : ∀ x ∈ s, x ∈ t) (hsize : t.size ≤ s.size) : s = t :=
  eq_of_mem_iff fun _ => ((List.subperm_of_subset s.toList_nodup h).perm_of_length_le hsize).mem_iff

theorem size_insert (h : id ∉ s) : (s.insert id).size = s.size + 1 := by
  have hperm : (s.insert id).toList.Perm (id :: s.toList) := by
    refine (List.perm_ext_iff_of_nodup (toList_nodup _)
      (List.nodup_cons.mpr ⟨h, s.toList_nodup⟩)).mpr fun x => ?_
    rw [List.mem_cons]
    exact mem_insert
  exact hperm.length_eq

theorem insert_of_mem (h : id ∈ s) : s.insert id = s :=
  eq_of_mem_iff fun x => by
    rw [mem_insert]
    exact or_iff_right_of_imp fun heq => heq ▸ h

theorem not_mem_erase_self (s : NodeSet) (x : NodeId) : x ∉ s.erase x :=
  fun hx => (mem_erase.mp hx).2 rfl

theorem insert_erase (h : x ∈ s) : (s.erase x).insert x = s := by
  apply eq_of_mem_iff
  intro y
  rw [mem_insert, mem_erase]
  by_cases hy : y = x
  · simp [hy, h]
  · simp [hy]

theorem size_eq_of_mem (h : x ∈ s) : s.size = (s.erase x).size + 1 := by
  rw [← size_insert (s.not_mem_erase_self x), insert_erase h]

/-- Of several members one is not `x`. -/
theorem exists_ne (h : 2 ≤ s.size) (x : NodeId) : ∃ y ∈ s, y ≠ x := by
  by_contra hnone
  push Not at hnone
  have hle : s.size ≤ 1 := size_le_length fun y hy => List.mem_singleton.mpr (hnone y hy)
  omega

/-! ## What a list lacks -/

/-- The list `l` of the member `me` names other members of `s`, the next one among them. -/
structure Knowing (s : NodeSet) (me : NodeId) (l : NodeSet) : Prop where
  listed : ∀ x ∈ l, x ∈ s ∧ x ≠ me
  next : ∀ q, s.After me q → q ∈ l
  several : 2 ≤ l.size

namespace Knowing

/-- In a ring of at least three the neighbours are two. -/
theorem of_neighbours (hsize : 3 ≤ s.size) (hlisted : ∀ x ∈ l, x ∈ s ∧ x ≠ me)
    (hbefore : ∀ p, s.Before me p → p ∈ l) (hafter : ∀ q, s.After me q → q ∈ l) :
    s.Knowing me l := by
  refine ⟨hlisted, hafter, ?_⟩
  by_contra hfew
  have hsmall (x : NodeId) (h : ∀ z ∈ s, z = me ∨ z = x) : False := by
    have hle : s.size ≤ 2 := size_le_length fun z hz => List.mem_pair.mpr (h z hz)
    omega
  obtain ⟨y, hy, hne⟩ := exists_ne (by omega : 2 ≤ s.size) me
  obtain ⟨p, hp⟩ := exists_before hy hne
  obtain ⟨q, hq⟩ := exists_after hy hne
  have hsame : p = q := by
    by_contra hpq
    have hnodup : [p, q].Nodup := by simpa using hpq
    refine hfew (length_le_size hnodup fun z hz => ?_)
    rcases List.mem_pair.mp hz with rfl | rfl
    · exact hbefore _ hp
    · exact hafter _ hq
  -- Whoever is nearest on both sides is the only one.
  subst hsame
  refine hsmall p fun z hz => ?_
  by_cases hzme : z = me
  · exact .inl hzme
  · have hnear := hp.2.2 z hz hzme
    have hnext := hq.2.2 z hz hzme
    have hturn := clockwise_add_swap hp.2.1
    have hturn' := clockwise_add_swap hzme
    exact .inr (eq_of_clockwise_from (a := me) (by omega))

/-- As long as a list is not complete, it names somebody whose successor it does not name: whoever is
listed nearest before somebody that is missing. -/
theorem exists_unknown (h : s.Knowing me l) (hme : me ∈ s) (hne : l ≠ s.erase me) :
    ∃ y q, y ∈ l ∧ s.After y q ∧ q ∉ l ∧ q ≠ me := by
  obtain ⟨z, hz, hzme, hzl⟩ : ∃ z ∈ s, z ≠ me ∧ z ∉ l := by
    by_contra hnone
    push Not at hnone
    refine hne (eq_of_mem_iff fun x => ⟨fun hx => mem_erase.mpr (h.listed x hx), fun hx => ?_⟩)
    exact hnone x (mem_erase.mp hx).1 (mem_erase.mp hx).2
  obtain ⟨y, hy, hyz, hnearest⟩ :=
    exists_before (s := l.insert me) (mem_insert.mpr (.inl rfl)) hzme.symm
  have hys : y ∈ s := (mem_insert.mp hy).elim (fun heq => heq ▸ hme) fun hy => (h.listed y hy).1
  obtain ⟨q, hq⟩ := exists_after hz hyz.symm
  have hqnot : q ∉ l.insert me := by
    intro hql
    have hqz : q ≠ z := by
      rintro rfl
      exact (mem_insert.mp hql).elim hzme hzl
    have hpass := clockwise_add_of_le (hq.2.2 z hz hyz.symm)
    have hstep := clockwise_pos hq.2.1.symm
    have hfar := hnearest q hql hqz
    omega
  rw [mem_insert, not_or] at hqnot
  have hyl : y ∈ l := by
    refine (mem_insert.mp hy).resolve_left ?_
    rintro rfl
    exact hqnot.2 (h.next q hq)
  exact ⟨y, q, hyl, hq, hqnot.2, hqnot.1⟩

end Knowing

/-! ## Questions -/

/-- What becomes of a list by hearing of a member. -/
def learn (l : NodeSet) (me x : NodeId) : NodeSet := if x = me then l else l.insert x

theorem Knowing.learn (h : s.Knowing me l) (hx : x ∈ s) : s.Knowing me (l.learn me x) := by
  unfold NodeSet.learn
  split
  case isTrue => exact h
  case isFalse hne =>
    refine ⟨fun y hy => ?_, fun q hq => mem_insert.mpr (.inr (h.next q hq)), ?_⟩
    · rcases mem_insert.mp hy with rfl | hy
      · exact ⟨hx, hne⟩
      · exact h.listed y hy
    · exact h.several.trans (size_le_of_subset fun y hy => mem_insert.mpr (.inr hy))

/-- Who is known already is not learned about. -/
theorem learn_of_mem (h : x ≠ me → x ∈ l) : l.learn me x = l := by
  unfold NodeSet.learn
  split
  case isTrue => rfl
  case isFalse hne => exact insert_of_mem (h hne)

/-- The place in a list a cursor stands at. Behind the end it goes on at the beginning. -/
def place (size cursor : Nat) : Nat := if size ≤ cursor then 0 else cursor

/-- How many places the cursor passes on its way to place `j` of a list. -/
def ahead (size cursor j : Nat) : Nat :=
  if place size cursor ≤ j then j - place size cursor else size - place size cursor + j

theorem place_lt {size : Nat} (hsize : 0 < size) (cursor : Nat) : place size cursor < size := by
  unfold place
  split <;> omega

theorem place_of_lt {size cursor : Nat} (h : cursor < size) : place size cursor = cursor :=
  if_neg (Nat.not_le.mpr h)

theorem ahead_place {size : Nat} (hsize : 0 < size) (cursor j : Nat) :
    ahead size (place size cursor) j = ahead size cursor j := by
  rw [ahead, place_of_lt (place_lt hsize cursor), ahead]

theorem ahead_lt {size cursor j : Nat} (hj : j < size) : ahead size cursor j < size := by
  have hplace := place_lt (Nat.zero_lt_of_lt hj) cursor
  unfold ahead
  split <;> omega

/-- The cursor passes one place. -/
theorem ahead_succ {size i j : Nat} (hi : i < size) (hj : j < size) (hne : j ≠ i) :
    ahead size (i + 1) j + 1 = ahead size i j := by
  have hplace : place size (i + 1) = if i + 1 = size then 0 else i + 1 := by
    unfold place
    split <;> split <;> omega
  rw [ahead, ahead, place_of_lt hi, hplace]
  split <;> split <;> split <;> omega

/-- Whoever is asked is listed. The turn of everybody else who is to be asked comes nearer. -/
theorem nextToAsk_spec {r : Ring} (hsize : 2 ≤ r.superpeers.size) (cursor : Nat) :
    ∃ i contact, nextToAsk r cursor = some (contact, i + 1) ∧
      r.superpeers.toList[i]? = some contact ∧
      ∀ j y, r.superpeers.toList[j]? = some y → r.predecessor ≠ some y → j ≠ i →
        ahead r.superpeers.size (i + 1) j + 1 ≤ ahead r.superpeers.size cursor j := by
  have hpos : 0 < r.superpeers.size := by omega
  have hlt := place_lt hpos cursor
  have hnext : nextToAsk r cursor =
      let i := if r.superpeers.toList[place r.superpeers.size cursor]? = r.predecessor then
        (place r.superpeers.size cursor + 1) % r.superpeers.size else place r.superpeers.size cursor
      r.superpeers.toList[i]?.map fun contact => (contact, i + 1) := rfl
  generalize hplace : place r.superpeers.size cursor = i at hnext hlt
  have hturn (j : Nat) (hj : j < r.superpeers.size) (hne : j ≠ i) :
      ahead r.superpeers.size (i + 1) j + 1 = ahead r.superpeers.size cursor j := by
    rw [← ahead_place hpos cursor, hplace, ahead_succ hlt hj hne]
  obtain ⟨contact, hcontact⟩ : ∃ contact, r.superpeers.toList[i]? = some contact :=
    ⟨_, List.getElem?_eq_getElem hlt⟩
  have hbound {j : Nat} {y : NodeId} (hy : r.superpeers.toList[j]? = some y) :
      j < r.superpeers.size := (List.getElem?_eq_some_iff.mp hy).1
  by_cases hskip : r.superpeers.toList[i]? = r.predecessor
  case neg =>
    rw [if_neg hskip] at hnext
    dsimp only at hnext
    rw [hcontact] at hnext
    exact ⟨i, contact, hnext, hcontact, fun j y hy _ hne => Nat.le_of_eq (hturn j (hbound hy) hne)⟩
  case pos =>
    -- The predecessor is passed over; whoever is to be asked is somebody else.
    have hmod : (i + 1) % r.superpeers.size = place r.superpeers.size (i + 1) := by
      unfold place
      split
      case isTrue hend =>
        have heq : i + 1 = r.superpeers.size := by omega
        rw [heq, Nat.mod_self]
      case isFalse hmore => exact Nat.mod_eq_of_lt (by omega)
    have hlt' := place_lt hpos (i + 1)
    obtain ⟨other, hother⟩ :
        ∃ other, r.superpeers.toList[place r.superpeers.size (i + 1)]? = some other :=
      ⟨_, List.getElem?_eq_getElem hlt'⟩
    rw [if_pos hskip, hmod] at hnext
    dsimp only at hnext
    rw [hother] at hnext
    refine ⟨_, other, hnext, hother, fun j y hy hpredecessor hne => ?_⟩
    have hji : j ≠ i := by
      rintro rfl
      exact hpredecessor (hskip ▸ hy)
    have hpassed := ahead_succ hlt' (hbound hy) hne
    rw [ahead_place hpos] at hpassed
    have hfirst := hturn j (hbound hy) hji
    omega

/-! ## When the list is complete -/

/-- The list is complete, or somebody whose successor is missing is due so soon that it is after at
most `rounds` more questions, if each one that is missing takes a turn of the whole ring. -/
def Due (s : NodeSet) (me : NodeId) (l : NodeSet) (cursor rounds : Nat) : Prop :=
  l = s.erase me ∨ ∃ j y q, l.toList[j]? = some y ∧ s.After y q ∧ q ∉ l ∧ q ≠ me ∧
    ((s.erase me).size - l.size - 1) * s.size + ahead l.size cursor j + 1 ≤ rounds

theorem Due.mono {cursor rounds more : Nat} (h : s.Due me l cursor rounds) (hle : rounds ≤ more) :
    s.Due me l cursor more := by
  rcases h with hdone | ⟨j, y, q, hy, hq, hnot, hne, hrounds⟩
  · exact .inl hdone
  · exact .inr ⟨j, y, q, hy, hq, hnot, hne, hrounds.trans hle⟩

/-- Without another question the list is complete. -/
theorem Due.complete {cursor : Nat} (h : s.Due me l cursor 0) : l = s.erase me := by
  rcases h with hdone | ⟨j, y, q, -, -, -, -, hrounds⟩
  · exact hdone
  · omega

/-- Wherever the cursor stands, a turn of the whole ring for each one that is missing is enough. -/
theorem Knowing.due (h : s.Knowing me l) (hme : me ∈ s) (cursor : Nat) {rounds : Nat}
    (hrounds : ((s.erase me).size - l.size) * s.size ≤ rounds) : s.Due me l cursor rounds := by
  by_cases hdone : l = s.erase me
  case pos => exact .inl hdone
  case neg =>
    obtain ⟨y, q, hy, hq, hnot, hne⟩ := h.exists_unknown hme hdone
    obtain ⟨j, hj⟩ := List.getElem?_of_mem hy
    refine .inr ⟨j, y, q, hj, hq, hnot, hne, ?_⟩
    have hmissing : l.size < (s.erase me).size := by
      by_contra hfull
      exact hdone (eq_of_subset_of_size_le (fun x hx => mem_erase.mpr (h.listed x hx))
        (Nat.not_lt.mp hfull))
    have hturn : ahead l.size cursor j < s.size :=
      (ahead_lt (List.getElem?_eq_some_iff.mp hj).1).trans_le
        (size_le_of_subset fun x hx => (h.listed x hx).1)
    obtain ⟨missing, hsize⟩ : ∃ missing, (s.erase me).size - l.size = missing + 1 :=
      ⟨(s.erase me).size - l.size - 1, by omega⟩
    rw [hsize, Nat.succ_mul] at hrounds
    rw [hsize, Nat.add_sub_cancel]
    omega

/-- A question brings the list nearer to its completion, whether or not it teaches anything. -/
theorem Due.step {r : Ring} {contact q : NodeId} {i cursor rounds : Nat}
    (h : s.Due me r.superpeers cursor rounds) (hknowing : s.Knowing me r.superpeers) (hme : me ∈ s)
    (hpredecessor : ∀ p, r.predecessor = some p → s.After p me)
    (hcontact : r.superpeers.toList[i]? = some contact)
    (hturn : ∀ j y, r.superpeers.toList[j]? = some y → r.predecessor ≠ some y → j ≠ i →
      ahead r.superpeers.size (i + 1) j + 1 ≤ ahead r.superpeers.size cursor j)
    (hq : s.After contact q) : s.Due me (r.superpeers.learn me q) (i + 1) (rounds - 1) := by
  by_cases hnew : q ≠ me ∧ q ∉ r.superpeers
  case pos =>
    -- One less is missing, and its turn of the ring is still to be spent.
    have hlearned : r.superpeers.learn me q = r.superpeers.insert q := if_neg hnew.1
    refine (hknowing.learn hq.1).due hme (i + 1) ?_
    have hsize : (r.superpeers.learn me q).size = r.superpeers.size + 1 := by
      rw [hlearned, size_insert hnew.2]
    rcases h with hdone | ⟨j, y, q', -, -, -, -, hrounds⟩
    · exact absurd (hdone ▸ mem_erase.mpr ⟨hq.1, hnew.1⟩) hnew.2
    · rw [hsize, Nat.sub_add_eq]
      omega
  case neg =>
    have hknown : r.superpeers.learn me q = r.superpeers :=
      learn_of_mem fun hne => by
        by_contra hnot
        exact hnew ⟨hne, hnot⟩
    rw [hknown]
    rcases h with hdone | ⟨j, y, q', hy, hq', hnot, hne, hrounds⟩
    · exact .inl hdone
    · have hji : j ≠ i := by
        rintro rfl
        rw [hcontact] at hy
        cases hy
        rw [hq.unique hq'] at hnew
        exact hnew ⟨hne, hnot⟩
      have hyp : r.predecessor ≠ some y := fun hp => hne (hq'.unique (hpredecessor y hp))
      have hnearer := hturn j y hy hyp hji
      exact .inr ⟨j, y, q', hy, hq', hnot, hne, by omega⟩

end NodeSet

end ChunkDirectory
