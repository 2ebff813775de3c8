import Mathlib.Algebra.BigOperators.Group.List.Basic
import Mathlib.Data.List.Dedup
import ChunkDirectory.Proofs.Overlay.Complete
import ChunkDirectory.Proofs.Overlay.Steps
import ChunkDirectory.Proofs.Protocol.Request
import ChunkDirectory.Proofs.Replication
import ChunkDirectory.Proofs.Wire.Codec

/-!
# Counting mappings

A mapping is stored by the owner of its position and by the owner's backups, and it is counted once:
every superpeer is asked, and each counts what it is primary for (`Settled.mappingCount_eq`). What
the superpeers are primary for divides the ring, so the counts add up to the number of identifiers
that are mapped (`sum_countP_eq`), whoever asks. A superpeer does not list itself and asks itself
last; a peer lists all superpeers.

Insertions and counts made one after the other return what `census` says
(`Settled.calls_census`).
-/

namespace ChunkDirectory

open Protocol

/-- An operation that maps an application identifier or counts the mappings. -/
inductive MappingCall where
  | insert (id : ApplicationId) (chunk : ChunkId)
  | count

/-- What such an operation returns. -/
inductive MappingAnswer where
  | inserted (result : Except LookupError Unit)
  | counted (result : Except LookupError Nat)

/-- The operation as a node carries it out. -/
def MappingCall.task : MappingCall → Task MappingAnswer
  | .insert id chunk => do return .inserted (← insertId id chunk)
  | .count => do return .counted (← mappingCount)

/-- What operations return where the identifiers in `known` are mapped: every insertion succeeds,
and a count is the number of different identifiers mapped so far. -/
def census (known : List ApplicationId) : List MappingCall → List MappingAnswer
  | [] => []
  | .insert id _ :: rest => .inserted (.ok ()) :: census (id :: known) rest
  | .count :: rest => .counted (.ok known.dedup.length) :: census known rest

/-! ## Counting by owner -/

/-- Elements counted by the value they have under `f` are all counted, each once. -/
theorem sum_countP_eq {α β : Type} [DecidableEq β] {f : α → β} {l : List α} {values : List β}
    (hnodup : values.Nodup) (hall : ∀ a ∈ l, f a ∈ values) :
    (values.map fun b => l.countP fun a => f a = b).sum = l.length := by
  have hone : ∀ b (values : List β),
      (values.map fun x => if b = x then 1 else 0).sum = values.count b := by
    intro b values
    induction values with
    | nil => rfl
    | cons x rest ih =>
      rw [List.map_cons, List.sum_cons, List.count_cons, ih, Nat.add_comm]
      simp only [beq_iff_eq, @eq_comm β b]
  induction l with
  | nil => simp
  | cons a rest ih =>
    have hrest := ih fun a' ha' => hall a' (List.mem_cons_of_mem a ha')
    simp only [List.countP_cons, decide_eq_true_eq, List.sum_map_add, hrest, hone,
      List.count_eq_one_of_mem hnodup (hall a List.mem_cons_self), List.length_cons]

namespace MappingTable

variable {table : MappingTable} {known : List ApplicationId} {keep : NodeId → Bool}

/-- A table in which the identifiers in `known` are those that are mapped, as far as a test goes. -/
theorem countWhere_eq
    (h : ∀ id, keep id.position = true → ((table.get? id).isSome ↔ id ∈ known)) :
    table.countWhere keep = known.dedup.countP fun id => keep id.position := by
  have hkeys := (table.retain keep).byId.keys_nodup
  have hmem : ∀ id, id ∈ (table.retain keep).byId.keys ↔
      id ∈ known.dedup.filter fun id => keep id.position := by
    intro id
    rw [List.mem_filter, List.mem_dedup, SortedMap.mem_keys_iff]
    simp only [retain, SortedMap.get?_filter]
    by_cases hkeep : keep id.position = true
    · have hid := h id hkeep
      rw [get?] at hid
      rw [hkeep, ← hid]
      cases table.byId.get? id <;> simp
    · simp only [hkeep]
      cases table.byId.get? id <;> simp
  have hperm := (List.perm_ext_iff_of_nodup hkeys (known.nodup_dedup.filter _)).mpr hmem
  rw [List.countP_eq_length_filter, ← hperm.length_eq]
  exact (List.length_map _).symm

/-- A count fits into the answer that carries it. -/
theorem toNat_countWhere (table : MappingTable) (keep : NodeId → Bool) :
    (UInt64.ofNat (table.countWhere keep)).toNat = table.countWhere keep := by
  have hle : table.countWhere keep ≤ 2 ^ 32 :=
    SortedMap.size_le _ fun id => id.val.toNat_lt
  refine UInt64.toNat_ofNat_of_lt' (Nat.lt_of_le_of_lt hle ?_)
  decide

end MappingTable

namespace Overlay

/-- The owner of its position holds a mapping of an identifier exactly if the identifier is in
`known`. -/
def Maps {ρ : Type} (s : NodeSet) (o : Overlay ρ) (known : List ApplicationId) : Prop :=
  ∀ id owner, s.Owns (Slot.mapping id).position owner →
    ((o.read owner (.mapping id)).isSome ↔ id ∈ known)

namespace Settled

variable {ρ : Type} {s : NodeSet} {o : Overlay ρ} {known : List ApplicationId} {x caller : NodeId}
  {n : Node} {owner : ApplicationId → NodeId}

/-! ## Insertions -/

/-- Mapping an identifier adds it to those that are mapped, and changes no other mapping. -/
theorem maps_mutateEach {id : ApplicationId} {chunk : ChunkId} (h : o.Settled s)
    (hmaps : o.Maps s known) (hn : o.node? x = some n)
    (hown : s.Owns (Mutation.insertId id chunk).key x) :
    (o.mutateEach (.insertId id chunk) (x :: n.ring.backups x)).Maps s (id :: known) := by
  intro id' owner hown'
  have hbefore := hmaps id' owner hown'
  rw [h.read_mutateEach (h.holders_mem hn hown.1) (h.holders_nodup hn hown.1)]
  by_cases hid : id' = id
  · subst hid
    have howner : owner = x := hown'.unique hown
    subst howner
    rw [if_pos List.mem_cons_self]
    simp [Mutation.change, Mutation.changeMapping]
  · have hne : Slot.mapping id' ≠ .mapping id := fun heq => hid (Slot.mapping.inj heq)
    rw [Mutation.change_of_ne (m := .insertId id chunk) rfl hne]
    simp only [ite_self, hbefore, List.mem_cons, hid, false_or]

/-- Every insertion is acknowledged. -/
theorem leads_insertId (h : o.Settled s) (hmaps : o.Maps s known) (hn : o.node? caller = some n)
    (id : ApplicationId) (chunk : ChunkId) :
    ∃ o', Leads o caller (insertId id chunk) (.ok ()) o' ∧ o'.Settled s ∧ o.SameViews o' ∧
      o'.Maps s (id :: known) := by
  obtain ⟨owner, no, hown, hno, -⟩ := h.exists_owner (Mutation.insertId id chunk).key
  have hleads := h.leads_requestMutation_of_applied .insertId hn (m := .insertId id chunk)
    (fun _ => rfl) hown hno rfl
  exact ⟨_, hleads, h.mutateEach, h.sameViews_mutateEach, h.maps_mutateEach hmaps hno hown⟩

/-! ## Counts -/

/-- A superpeer counts the identifiers that it is the owner of. -/
theorem mappingCount_eq (h : o.Settled s) (hmaps : o.Maps s known) (hn : o.node? x = some n)
    (hx : x ∈ s) (howner : ∀ id, s.Owns (Slot.mapping id).position (owner id)) :
    ∃ count, n.mappingCount = .mappingCount count ∧
      count.toNat = known.dedup.countP fun id => owner id = x := by
  have hrole := (h.superpeer_iff x n hn).mpr hx
  obtain ⟨d, hd⟩ := Node.exists_directory hrole
  obtain ⟨area, harea⟩ : ∃ area, n.primaryArea = some area := by
    unfold Node.primaryArea
    rw [if_pos hrole]
    cases n.ring.predecessor <;> exact ⟨_, rfl⟩
  have hprimary : ∀ id : ApplicationId, area.contains id.position = true ↔ owner id = x := by
    intro id
    have hiff := h.isPrimaryFor_iff hn id.position
    rw [Node.isPrimaryFor, harea] at hiff
    rw [hiff]
    constructor
    · intro hown
      exact (howner id).unique hown
    · rintro rfl
      exact howner id
  refine ⟨_, by rw [Node.mappingCount, hd, harea], ?_⟩
  have hmapped : ∀ id, area.contains id.position = true →
      ((d.mappings.get? id).isSome ↔ id ∈ known) := by
    intro id hid
    have howns : s.Owns (Slot.mapping id).position x := (hprimary id).mp hid ▸ howner id
    rw [← hmaps id x howns, read_of_node? hn, Node.read_of_directory? hd]
    rfl
  rw [MappingTable.toNat_countWhere, MappingTable.countWhere_eq hmapped]
  refine List.countP_congr fun id _ => ?_
  rw [hprimary, decide_eq_true_iff]

/-- Superpeers that are asked for their counts all answer. -/
theorem leads_sumCounts {superpeers : List NodeId} (total : Nat) (h : o.Settled s)
    (hmaps : o.Maps s known) (hn : o.node? caller = some n)
    (howner : ∀ id, s.Owns (Slot.mapping id).position (owner id))
    (hall : ∀ x ∈ superpeers, x ∈ s) :
    Leads o caller (sumCounts total superpeers)
      (total + (superpeers.map fun x => known.dedup.countP fun id => owner id = x).sum) o := by
  induction superpeers generalizing total with
  | nil => exact Leads.pure hn
  | cons x rest ih =>
    obtain ⟨nx, hnx, -⟩ := h.exists_superpeer (hall x List.mem_cons_self)
    obtain ⟨count, hanswer, hcount⟩ :=
      h.mappingCount_eq hmaps hnx (hall x List.mem_cons_self) howner
    have hask : Leads o x (handleMessage caller .getMappingCount) (.mappingCount count) o := by
      rw [← hanswer]
      exact .of_does (Does.question (f := (·.mappingCount)) hnx rfl)
    have hrest := ih (total + count.toNat) fun y hy => hall y (List.mem_cons_of_mem x hy)
    rw [List.map_cons, List.sum_cons, ← hcount, ← Nat.add_assoc]
    unfold sumCounts
    exact (Leads.call h.toCalm hn hask hn).bind hrest

/-- Every node asks each superpeer of the ring once: a superpeer the others and itself, a peer all
that it lists. -/
theorem asked_superpeers (h : o.Settled s) (hn : o.node? caller = some n) :
    (n.ring.superpeers.toList ++ if n.isSuperpeer then [n.me] else []).Nodup ∧
      ∀ x, x ∈ n.ring.superpeers.toList ++ (if n.isSuperpeer then [n.me] else []) ↔ x ∈ s := by
  have hme : n.me = caller := h.me hn
  by_cases hcaller : caller ∈ s
  · have hrole := (h.superpeer_iff caller n hn).mpr hcaller
    have hlist : n.ring.superpeers = s.erase caller := by
      rw [← hme]
      exact (h.exact caller n hn hcaller).superpeers
    have hnot : caller ∉ s.erase caller := fun hmem => (NodeSet.mem_erase.mp hmem).2 rfl
    rw [if_pos hrole, hlist, hme]
    refine ⟨List.nodup_append.mpr ⟨NodeSet.toList_nodup _, List.nodup_singleton _, ?_⟩, ?_⟩
    · intro x hx y hy hxy
      rw [hxy, List.mem_singleton.mp hy] at hx
      exact hnot hx
    · intro x
      rw [List.mem_append, List.mem_singleton]
      show x ∈ s.erase caller ∨ _ ↔ _
      rw [NodeSet.mem_erase]
      by_cases hx : x = caller
      · simp [hx, hcaller]
      · simp [hx]
  · have hrole : n.isSuperpeer = false := by
      rw [← Bool.not_eq_true]
      exact fun hsuper => hcaller ((h.superpeer_iff caller n hn).mp hsuper)
    rw [if_neg (by simp [hrole]), h.lists caller n hn hcaller, List.append_nil]
    exact ⟨NodeSet.toList_nodup _, fun _ => Iff.rfl⟩

/-- Every node counts each identifier once. -/
theorem leads_mappingCount (h : o.Settled s) (hmaps : o.Maps s known)
    (hn : o.node? caller = some n) :
    Leads o caller mappingCount (.ok known.dedup.length) o := by
  have hexists : ∀ id : ApplicationId, ∃ owner, s.Owns (Slot.mapping id).position owner :=
    fun id => let ⟨owner, _, hown, _⟩ := h.exists_owner (Slot.mapping id).position; ⟨owner, hown⟩
  choose owner howner using hexists
  obtain ⟨hnodup, hasked⟩ := h.asked_superpeers hn
  have hsum := h.leads_sumCounts 0 hmaps hn howner fun x hx => (hasked x).mp hx
  rw [sum_countP_eq hnodup fun id _ => (hasked _).mpr (howner id).1, Nat.zero_add] at hsum
  have hsome : (n.ring.superpeers.toList ++ if n.isSuperpeer then [n.me] else []).isEmpty =
      false := by
    obtain ⟨x, hx⟩ := h.inhabited
    rw [List.isEmpty_eq_false_iff]
    exact List.ne_nil_of_mem ((hasked x).mpr hx)
  unfold mappingCount
  apply Leads.node_bind hn
  simp only [hsome]
  exact hsum.map hn

/-! ## Sequences of operations -/

variable {o : Overlay MappingAnswer}

/-- An operation returns what the census says and leaves the identifiers mapped that it says. -/
theorem takes_calls_of_maps {calls : List (NodeId × MappingCall)} (h : o.Settled s)
    (hmaps : o.Maps s known) (hcallers : ∀ c ∈ calls, ∃ n, o.node? c.1 = some n) :
    ∃ rs o', o.Takes (calls.map fun c => .run c.1 c.2.task) rs o' ∧
      rs.map (·.1) = (census known (calls.map (·.2))).map .value := by
  induction calls generalizing o known with
  | nil => exact ⟨[], o, .nil, rfl⟩
  | cons first rest ih =>
    obtain ⟨caller, call⟩ := first
    obtain ⟨n, hn⟩ := hcallers (caller, call) List.mem_cons_self
    have hcallers' : ∀ c ∈ rest, ∃ n, o.node? c.1 = some n :=
      fun c hc => hcallers c (List.mem_cons_of_mem _ hc)
    cases call with
    | insert id chunk =>
      obtain ⟨o₁, hleads, hsettled, hviews, hmaps₁⟩ := h.leads_insertId hmaps hn id chunk
      obtain ⟨n₁, hn₁, -⟩ := hviews.exists_node? hn
      obtain ⟨events, hrun⟩ := (hleads.map (f := MappingAnswer.inserted) hn₁).run
      obtain ⟨rs, o₂, htakes, hresults⟩ := ih hsettled hmaps₁ fun c hc => by
        obtain ⟨n', hn'⟩ := hcallers' c hc
        obtain ⟨n'', hn'', -⟩ := hviews.exists_node? hn'
        exact ⟨n'', hn''⟩
      exact ⟨_, o₂, .cons hrun hsettled.queue htakes, by rw [List.map_cons, hresults]; rfl⟩
    | count =>
      obtain ⟨events, hrun⟩ := ((h.leads_mappingCount hmaps hn).map
        (f := MappingAnswer.counted) hn).run
      obtain ⟨rs, o₂, htakes, hresults⟩ := ih h hmaps hcallers'
      exact ⟨_, o₂, .cons hrun h.queue htakes, by rw [List.map_cons, hresults]; rfl⟩

/-- In a settled overlay without mappings, insertions and counts are made one after the other, each
by any node. All insertions are acknowledged, and each count is the number of different identifiers
inserted before, however many superpeers store a mapping and however often an identifier was
inserted. -/
theorem calls_census (calls : List (NodeId × MappingCall)) (h : o.Settled s)
    (hempty : ∀ x id, o.read x (.mapping id) = none)
    (hcallers : ∀ c ∈ calls, ∃ n, o.node? c.1 = some n) :
    ∃ rs o', o.Takes (calls.map fun c => .run c.1 c.2.task) rs o' ∧
      rs.map (·.1) = (census [] (calls.map (·.2))).map .value :=
  h.takes_calls_of_maps (fun id x _ => by simp [hempty]) hcallers

/-- On the ring of five, where four superpeers store each mapping, a peer and a superpeer map three
identifiers, one of them twice, and a peer and a superpeer count three. -/
theorem calls_census_ringOfFive :
    ∃ rs o', (complete ringOfFive nodesOfFive : Overlay MappingAnswer).Takes
      [.run ⟨500⟩ (MappingCall.insert ⟨7⟩ (.make ⟨500⟩ 1)).task,
        .run ⟨1000⟩ (MappingCall.insert ⟨8⟩ (.make ⟨500⟩ 2)).task,
        .run ⟨500⟩ (MappingCall.insert ⟨7⟩ (.make ⟨500⟩ 3)).task,
        .run ⟨0⟩ (MappingCall.insert ⟨9⟩ (.make ⟨500⟩ 4)).task,
        .run ⟨500⟩ MappingCall.count.task, .run ⟨4000⟩ MappingCall.count.task] rs o' ∧
      rs.map (·.1) = [.value (.inserted (.ok ())), .value (.inserted (.ok ())),
        .value (.inserted (.ok ())), .value (.inserted (.ok ())), .value (.counted (.ok 3)),
        .value (.counted (.ok 3))] := by
  obtain ⟨rs, o', htakes, hresults⟩ := calls_census
    [(⟨500⟩, .insert ⟨7⟩ (.make ⟨500⟩ 1)), (⟨1000⟩, .insert ⟨8⟩ (.make ⟨500⟩ 2)),
      (⟨500⟩, .insert ⟨7⟩ (.make ⟨500⟩ 3)), (⟨0⟩, .insert ⟨9⟩ (.make ⟨500⟩ 4)),
      (⟨500⟩, .count), (⟨4000⟩, .count)]
    settled_five (fun _ _ => read_complete) (by
      intro c hc
      simp only [List.mem_cons, List.not_mem_nil, or_false] at hc
      rcases hc with rfl | rfl | rfl | rfl | rfl | rfl <;> exact ⟨_, rfl⟩)
  exact ⟨rs, o', htakes, hresults.trans rfl⟩

end Settled

end Overlay

end ChunkDirectory
