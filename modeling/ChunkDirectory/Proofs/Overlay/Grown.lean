import ChunkDirectory.Proofs.Overlay.Settled
import ChunkDirectory.Proofs.Protocol.Welcome

/-!
# Growing overlays

A ring that is formed by joins consists of the superpeers and peers that have joined
(`Membership`). In a grown overlay each superpeer knows its neighbours and the peers it is
responsible for (`Overlay.Grown`). Nothing is said of nodes that run and have not joined, so a
newcomer that is created leaves an overlay grown (`Grown.create`).
-/

namespace ChunkDirectory

/-- Those who have joined. -/
structure Membership where
  superpeers : NodeSet
  peers : NodeSet

namespace Membership

/-- The members after `id` joined. -/
def join (r : Membership) (id : NodeId) (isSuperpeer : Bool) : Membership :=
  if isSuperpeer then { r with superpeers := r.superpeers.insert id }
  else { r with peers := r.peers.insert id }

/-- An identifier that can be used for a newcomer. -/
structure Fresh (r : Membership) (id : NodeId) : Prop where
  notSuperpeer : id ∉ r.superpeers
  notPeer : id ∉ r.peers
  valid : id.isReserved = false

theorem mem_join {r : Membership} {id x : NodeId} {isSuperpeer : Bool} :
    x ∈ (r.join id isSuperpeer).superpeers ∨ x ∈ (r.join id isSuperpeer).peers ↔
      x = id ∨ x ∈ r.superpeers ∨ x ∈ r.peers := by
  cases isSuperpeer with
  | true =>
    show x ∈ r.superpeers.insert id ∨ x ∈ r.peers ↔ _
    rw [NodeSet.mem_insert, or_assoc]
  | false =>
    show x ∈ r.superpeers ∨ x ∈ r.peers.insert id ↔ _
    rw [NodeSet.mem_insert]
    exact or_left_comm

theorem mem_superpeers_join {r : Membership} {id x : NodeId} {isSuperpeer : Bool}
    (h : x ∈ r.superpeers) : x ∈ (r.join id isSuperpeer).superpeers := by
  cases isSuperpeer with
  | true => exact NodeSet.mem_insert.mpr (.inr h)
  | false => exact h

end Membership

namespace Overlay

variable {ρ : Type} {o : Overlay ρ} {r : Membership} {c : Config} {contact : Option NodeId}
  {holdsData : Bool} {id : NodeId}

/-- Every message is delivered, the superpeers of `r` have right views of the ring and the peers of
`r` are running. -/
structure Grown (r : Membership) (o : Overlay ρ) : Prop extends Calm o where
  inhabited : ∃ x, x ∈ r.superpeers
  valid : ∀ x, x ∈ r.superpeers ∨ x ∈ r.peers → x.isReserved = false
  superpeer : ∀ x ∈ r.superpeers, ∃ n, o.node? x = some n ∧ n.isSuperpeer = true ∧
    n.ring.Formed r.superpeers r.peers
  peer : ∀ x ∈ r.peers, ∃ n, o.node? x = some n ∧ n.isSuperpeer = false

/-! ## New nodes -/

/-- The state in which a node is created. -/
def created (o : Overlay ρ) (c : Config) (contact : Option NodeId) : Node :=
  .new { c with bootstrap := contact.getD (o.founder.getD c.nodeId) }

theorem isSuperpeer_created (o : Overlay ρ) (c : Config) (contact : Option NodeId) :
    (o.created c contact).isSuperpeer = decide (c.role = .superpeer) := by
  unfold created Node.new Node.isSuperpeer Node.directory?
  cases c.role <;> rfl

/-- Creating a node adds it, and takes it for reachable. -/
theorem create_eq (o : Overlay ρ) (c : Config) (contact : Option NodeId) (holdsData : Bool) :
    ∃ conditions, o.create c contact holdsData = (o.nodes.size,
      { o with
        nodes := o.nodes.push (o.created c contact)
        members := o.members.insert c.nodeId ⟨o.nodes.size, .start⟩
        conditions }) ∧
    ∀ x, (Condition.down, x) ∈ conditions → x ≠ c.nodeId ∧ (Condition.down, x) ∈ o.conditions := by
  have hdown : ∀ x, (Condition.down, x) ∈ (o.change .down [] [c.nodeId]).conditions →
      x ≠ c.nodeId ∧ (Condition.down, x) ∈ o.conditions := by
    intro x hx
    obtain ⟨hmem, hkept⟩ := List.mem_filter.mp hx
    refine ⟨fun heq => ?_, hmem⟩
    simp [heq] at hkept
  cases holdsData with
  | false => exact ⟨_, rfl, hdown⟩
  | true =>
    refine ⟨_, rfl, fun x hx => hdown x ?_⟩
    obtain ⟨hmem, -⟩ := List.mem_filter.mp hx
    simpa using hmem

theorem node?_create_self (o : Overlay ρ) (c : Config) (contact : Option NodeId)
    (holdsData : Bool) :
    (o.create c contact holdsData).2.node? c.nodeId = some (o.created c contact) := by
  obtain ⟨conditions, heq, -⟩ := create_eq o c contact holdsData
  rw [heq]
  exact node?_eq_some_iff.mpr ⟨_, SortedMap.get?_insert_self, Array.getElem?_push_size⟩

namespace Calm

theorem node?_create_of_ne (h : o.Calm) (hne : id ≠ c.nodeId) :
    (o.create c contact holdsData).2.node? id = o.node? id := by
  obtain ⟨conditions, heq, -⟩ := create_eq o c contact holdsData
  apply Option.ext
  intro n
  rw [heq, node?_eq_some_iff, node?_eq_some_iff, SortedMap.get?_insert_of_ne hne]
  refine exists_congr fun member => and_congr_right fun hmember => ?_
  obtain ⟨m, hm, -⟩ := h.numbered id member hmember
  have hlt := (Array.getElem?_eq_some_iff.mp hm).1
  rw [Array.getElem?_push, if_neg (Nat.ne_of_lt hlt)]

/-- Creating a node keeps an overlay calm. -/
theorem create (h : o.Calm) : (o.create c contact holdsData).2.Calm := by
  obtain ⟨conditions, heq, hdown⟩ := create_eq o c contact holdsData
  rw [heq]
  refine ⟨h.rules, h.queue, ?_, ?_⟩
  · intro id member hmember
    refine decide_eq_false fun hmem => ?_
    obtain ⟨hne, hold⟩ := hdown id hmem
    rw [SortedMap.get?_insert_of_ne hne] at hmember
    exact of_decide_eq_false (h.up id member hmember) hold
  · intro id member hmember
    by_cases hid : id = c.nodeId
    · subst hid
      rw [SortedMap.get?_insert_self] at hmember
      cases hmember
      exact ⟨_, Array.getElem?_push_size, rfl⟩
    · rw [SortedMap.get?_insert_of_ne hid] at hmember
      obtain ⟨n, hn, hme⟩ := h.numbered id member hmember
      have hlt := (Array.getElem?_eq_some_iff.mp hn).1
      refine ⟨n, ?_, hme⟩
      rw [Array.getElem?_push, if_neg (Nat.ne_of_lt hlt)]
      exact hn

end Calm

theorem Grown.create (h : o.Grown r) (hfresh : r.Fresh c.nodeId) :
    (o.create c contact holdsData).2.Grown r := by
  refine ⟨h.toCalm.create, h.inhabited, h.valid, ?_, ?_⟩
  · intro x hx
    rw [h.node?_create_of_ne fun heq => hfresh.notSuperpeer (heq ▸ hx)]
    exact h.superpeer x hx
  · intro x hx
    rw [h.node?_create_of_ne fun heq => hfresh.notPeer (heq ▸ hx)]
    exact h.peer x hx

end Overlay

end ChunkDirectory
