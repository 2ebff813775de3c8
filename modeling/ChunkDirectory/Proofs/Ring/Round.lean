import ChunkDirectory.Proofs.Ascending
import ChunkDirectory.Proofs.Ring.Distance
import ChunkDirectory.Ring.Area

/-!
# The round of a set

`NodeSet.roundFrom s id` lists the members of a set in the order in which they are met going
clockwise from `id` (`roundFrom_ascending`). Its ends are therefore the nearest members: the first
one is at or after `id` (`Owns`), the last one before it (`Before`), and with `id` itself left out
the first one is after it (`After`). The queries of a ring view are stated here in these terms, so
that no later proof looks at lists.
-/

namespace ChunkDirectory

open NodeId

namespace NodeSet

variable {s : NodeSet} {id x y : NodeId}

/-! ## Nearest members -/

/-- `x` is the first member at or after `id`. -/
def Owns (s : NodeSet) (id x : NodeId) : Prop :=
  x ∈ s ∧ ∀ y ∈ s, clockwise id x ≤ clockwise id y

/-- `x` is the nearest member before `id`, other than `id` itself. -/
def Before (s : NodeSet) (id x : NodeId) : Prop :=
  x ∈ s ∧ x ≠ id ∧ ∀ y ∈ s, y ≠ id → clockwise x id ≤ clockwise y id

/-- `x` is the nearest member after `id`, other than `id` itself. -/
def After (s : NodeSet) (id x : NodeId) : Prop :=
  x ∈ s ∧ x ≠ id ∧ ∀ y ∈ s, y ≠ id → clockwise id x ≤ clockwise id y

instance (s : NodeSet) (id x : NodeId) : Decidable (s.Owns id x) :=
  inferInstanceAs (Decidable (x ∈ s.toList ∧ ∀ y ∈ s.toList, clockwise id x ≤ clockwise id y))

instance (s : NodeSet) (id x : NodeId) : Decidable (s.Before id x) :=
  inferInstanceAs (Decidable
    (x ∈ s.toList ∧ x ≠ id ∧ ∀ y ∈ s.toList, y ≠ id → clockwise x id ≤ clockwise y id))

instance (s : NodeSet) (id x : NodeId) : Decidable (s.After id x) :=
  inferInstanceAs (Decidable
    (x ∈ s.toList ∧ x ≠ id ∧ ∀ y ∈ s.toList, y ≠ id → clockwise id x ≤ clockwise id y))

theorem Owns.unique (hx : s.Owns id x) (hy : s.Owns id y) : x = y :=
  eq_of_clockwise_from (Nat.le_antisymm (hx.2 y hy.1) (hy.2 x hx.1))

theorem Before.unique (hx : s.Before id x) (hy : s.Before id y) : x = y :=
  eq_of_clockwise_to (Nat.le_antisymm (hx.2.2 y hy.1 hy.2.1) (hy.2.2 x hx.1 hx.2.1))

theorem After.unique (hx : s.After id x) (hy : s.After id y) : x = y :=
  eq_of_clockwise_from (Nat.le_antisymm (hx.2.2 y hy.1 hy.2.1) (hy.2.2 x hx.1 hx.2.1))

/-- A member owns itself. -/
theorem owns_self (h : x ∈ s) : s.Owns x x :=
  ⟨h, fun y _ => by rw [clockwise_self]; exact Nat.zero_le _⟩

/-- A member that does not precede `id` lies before the nearest one: going on from it to `id` passes
the nearest one. -/
theorem Before.clockwise_add (h : s.Before id x) (hy : y ∈ s) (hne : y ≠ id) :
    clockwise y x + clockwise x id = clockwise y id :=
  clockwise_add_of_le' (h.2.2 y hy hne)

/-- The nearest member after the nearest one before a member is that member. -/
theorem Before.after (h : s.Before id x) (hid : id ∈ s) : s.After x id := by
  refine ⟨hid, fun e => h.2.1 e.symm, fun y hy hne => ?_⟩
  by_cases hyid : y = id
  · exact Nat.le_of_eq (by rw [hyid])
  · have hpass := h.clockwise_add hy hyid
    have hturn := clockwise_add_swap hne
    have hlt := clockwise_lt y id
    omega

/-- The nearest member before the nearest one after a member is that member. -/
theorem After.before (h : s.After id x) (hid : id ∈ s) : s.Before x id := by
  refine ⟨hid, fun e => h.2.1 e.symm, fun y hy hne => ?_⟩
  by_cases hyid : y = id
  · exact Nat.le_of_eq (by rw [hyid])
  · have hpass := clockwise_add_of_le (h.2.2 y hy hyid)
    have hturn := clockwise_add_swap hyid
    have hlt := clockwise_lt id y
    have hxy := clockwise_add_swap hne
    omega

/-- The nearest members before and after a member are among the others. -/
theorem before_erase_self : (s.erase id).Before id x ↔ s.Before id x := by
  constructor
  · rintro ⟨hx, hne, hmin⟩
    exact ⟨(mem_erase.mp hx).1, hne, fun y hy hyne => hmin y (mem_erase.mpr ⟨hy, hyne⟩) hyne⟩
  · intro h
    exact ⟨mem_erase.mpr ⟨h.1, h.2.1⟩, h.2.1, fun y hy hyne => h.2.2 y (mem_erase.mp hy).1 hyne⟩

theorem after_erase_self : (s.erase id).After id x ↔ s.After id x := by
  constructor
  · rintro ⟨hx, hne, hmin⟩
    exact ⟨(mem_erase.mp hx).1, hne, fun y hy hyne => hmin y (mem_erase.mpr ⟨hy, hyne⟩) hyne⟩
  · intro h
    exact ⟨mem_erase.mpr ⟨h.1, h.2.1⟩, h.2.1, fun y hy hyne => h.2.2 y (mem_erase.mp hy).1 hyne⟩

/-! ## The order of the round -/

theorem clockwise_of_le (h : id ≤ x) : clockwise id x = x.toNat - id.toNat := by
  have hx := toNat_lt x
  have hle := le_def.mp h
  rw [clockwise_eq]
  omega

theorem clockwise_of_lt (h : x < id) : clockwise id x = 65536 - id.toNat + x.toNat := by
  have hid := toNat_lt id
  have hlt := lt_def.mp h
  rw [clockwise_eq]
  omega

/-- The round lists the members by their distance from its start. -/
theorem roundFrom_ascending (s : NodeSet) (id : NodeId) :
    (s.roundFrom id).Pairwise fun a b => clockwise id a < clockwise id b := by
  refine List.pairwise_append.mpr ⟨?_, ?_, ?_⟩
  · refine (s.ascending.filter _).imp_of_mem fun {a b} ha hb hab => ?_
    have hia := of_decide_eq_true (List.mem_filter.mp ha).2
    have hib := of_decide_eq_true (List.mem_filter.mp hb).2
    have hab := lt_def.mp hab
    have hle := le_def.mp hia
    rw [clockwise_of_le hia, clockwise_of_le hib]
    omega
  · refine (s.ascending.filter _).imp_of_mem fun {a b} ha hb hab => ?_
    have hai := of_decide_eq_true (List.mem_filter.mp ha).2
    have hbi := of_decide_eq_true (List.mem_filter.mp hb).2
    have hab := lt_def.mp hab
    rw [clockwise_of_lt hai, clockwise_of_lt hbi]
    omega
  · intro a ha b hb
    have hia := of_decide_eq_true (List.mem_filter.mp ha).2
    have hbi := of_decide_eq_true (List.mem_filter.mp hb).2
    have hlt := toNat_lt a
    have hidlt := toNat_lt id
    rw [clockwise_of_le hia, clockwise_of_lt hbi]
    omega

/-- The round starts with the first member at or after its start. -/
theorem head?_roundFrom : (s.roundFrom id).head? = some x ↔ s.Owns id x := by
  rw [head?_eq_some_iff_of_ascending (roundFrom_ascending s id)]
  simp only [mem_roundFrom, Owns]

/-- The round ends with the nearest member before its start, unless the start is the only member. -/
theorem getLast?_roundFrom :
    (s.roundFrom id).getLast?.filter (· ≠ id) = some x ↔ s.Before id x := by
  rw [Option.filter_eq_some_iff,
    getLast?_eq_some_iff_of_ascending (roundFrom_ascending s id)]
  simp only [mem_roundFrom, Before, decide_eq_true_eq, and_assoc]
  refine and_congr_right fun hx => ?_
  constructor
  · rintro ⟨hmax, hne⟩
    exact ⟨hne, fun y hy hyne => (clockwise_from_le_iff hyne hne).mp (hmax y hy)⟩
  · rintro ⟨hne, hmin⟩
    refine ⟨fun y hy => ?_, hne⟩
    by_cases hyid : y = id
    · rw [hyid, clockwise_self]; exact Nat.zero_le _
    · exact (clockwise_from_le_iff hyid hne).mpr (hmin y hy hyid)

end NodeSet

namespace Ring

variable {r : Ring} {id x : NodeId}

theorem responsible_eq_some_iff : r.responsible id = some x ↔ r.superpeers.Owns id x :=
  NodeSet.head?_roundFrom

theorem previousBefore_eq_some_iff : r.previousBefore id = some x ↔ r.superpeers.Before id x :=
  NodeSet.getLast?_roundFrom

theorem mem_successorsAfter : x ∈ r.successorsAfter id ↔ x ∈ r.superpeers ∧ x ≠ id := by
  simp [successorsAfter, NodeSet.mem_roundFrom]

/-- The successors of a node are listed by their distance from it. -/
theorem successorsAfter_ascending (r : Ring) (id : NodeId) :
    (r.successorsAfter id).Pairwise fun a b => clockwise id a < clockwise id b :=
  (r.superpeers.roundFrom_ascending id).filter _

theorem nextAfter_eq_some_iff : r.nextAfter id = some x ↔ r.superpeers.After id x := by
  rw [nextAfter, head?_eq_some_iff_of_ascending (r.successorsAfter_ascending id)]
  simp only [mem_successorsAfter, NodeSet.After, and_imp, and_assoc]

/-- The keepers of copies are distinct. -/
theorem backups_nodup (r : Ring) (id : NodeId) : (r.backups id).Nodup := by
  refine ((r.successorsAfter_ascending id).sublist (List.take_sublist _ _)).imp fun hlt e => ?_
  rw [e] at hlt
  exact Nat.lt_irrefl _ hlt

theorem mem_of_mem_backups (h : x ∈ r.backups id) : x ∈ r.superpeers ∧ x ≠ id :=
  mem_successorsAfter.mp (List.mem_of_mem_take h)

end Ring

end ChunkDirectory
