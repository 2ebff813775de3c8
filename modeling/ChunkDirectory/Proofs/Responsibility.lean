import ChunkDirectory.Proofs.Overlay.Complete
import ChunkDirectory.Proofs.Protocol.Lookup

/-!
# Who is responsible

A node is informed about a ring if it knows what its role asks for: a superpeer has an exact view, a
peer lists all superpeers (`Node.Informed`). Informed nodes divide the identifiers among the
superpeers. Each identifier, reserved or not, has one owner; its owner and nobody else takes itself
for the primary, and every node names it, from its own list alone or by asking others
(`NodeSet.responsibility`).
-/

namespace ChunkDirectory

variable {s : NodeSet} {n : Node} {id owner : NodeId}

/-- A node knows of the ring what its role asks for. -/
def Node.Informed (s : NodeSet) (n : Node) : Prop :=
  if n.isSuperpeer then n.me ∈ s ∧ n.ring.Exact s else n.ring.superpeers = s

/-- All nodes of a settled overlay are informed. -/
theorem Overlay.Settled.informed {ρ : Type} {o : Overlay ρ} (h : o.Settled s)
    (hn : o.node? id = some n) : n.Informed s := by
  unfold Node.Informed
  by_cases hid : id ∈ s
  · rw [if_pos ((h.superpeer_iff id n hn).mpr hid), h.me hn]
    exact ⟨hid, h.exact id n hn hid⟩
  · rw [if_neg fun hsuper => hid ((h.superpeer_iff id n hn).mp hsuper)]
    exact h.lists id n hn hid

namespace Node.Informed

/-- Of the informed nodes only the superpeer that owns an identifier calls itself its primary. -/
theorem isPrimaryFor_iff (h : n.Informed s) (hown : s.Owns id owner) :
    n.isPrimaryFor id = true ↔ n.isSuperpeer = true ∧ n.me = owner := by
  cases hrole : n.isSuperpeer with
  | true =>
    rw [Informed, if_pos hrole] at h
    rw [Node.isPrimaryFor_iff hrole h.2.toPointed h.1, and_iff_right rfl]
    exact ⟨fun hme => hme.unique hown, fun heq => heq ▸ hown⟩
  | false => simp [Node.isPrimaryFor_of_peer hrole]

/-- The list of an informed node that is not the owner itself names the owner. -/
theorem responsible (h : n.Informed s) (hown : s.Owns id owner)
    (hprimary : n.isPrimaryFor id ≠ true) : n.ring.responsible id = some owner := by
  rw [ne_eq, h.isPrimaryFor_iff hown] at hprimary
  cases hrole : n.isSuperpeer with
  | true =>
    rw [Informed, if_pos hrole] at h
    have hother : ¬ s.Owns id n.ring.me := fun hme => hprimary ⟨hrole, hme.unique hown⟩
    exact (h.2.responsible hother).mpr hown
  | false =>
    rw [Informed, if_neg (by simp [hrole])] at h
    rw [Ring.responsible_eq_some_iff, h]
    exact hown

/-- Without asking anybody an informed node finds the owner. -/
theorem resolve (h : n.Informed s) (hown : s.Owns id owner) :
    Protocol.resolve id false n = .done (some owner) n := by
  show (if n.isPrimaryFor id then (pure (some n.me) : Task (Option NodeId)) else _) n = _
  by_cases hprimary : n.isPrimaryFor id = true
  · rw [if_pos hprimary, ((h.isPrimaryFor_iff hown).mp hprimary).2]
    rfl
  · rw [if_neg hprimary, h.responsible hown hprimary]
    rfl

end Node.Informed

/-- Every identifier has exactly one responsible superpeer, and all nodes agree on it: the informed
superpeer that it is, and no other informed node, is primary; every informed node finds it in its
list; and in a settled overlay every node that has its list checked by others finds it too. -/
theorem NodeSet.responsibility (h : ∃ x, x ∈ s) (id : NodeId) :
    ∃ owner ∈ s,
      (∀ n : Node, n.Informed s →
        (n.isPrimaryFor id = true ↔ n.isSuperpeer = true ∧ n.me = owner) ∧
        Protocol.resolve id false n = .done (some owner) n) ∧
      ∀ (ρ : Type) (o : Overlay ρ) (x : NodeId) (n : Node), o.Settled s → o.node? x = some n →
        o.Leads x (Protocol.resolve id true) (some owner) o := by
  obtain ⟨x, hx⟩ := h
  obtain ⟨owner, hown⟩ := exists_owner hx id
  refine ⟨owner, hown.1, fun n hn => ?_, fun ρ o x n hsettled hn => ?_⟩
  · exact ⟨hn.isPrimaryFor_iff hown, hn.resolve hown⟩
  · exact hsettled.leads_resolve hn hown true

/-- The last position of a ring of two, which no node can have, has its owner too. -/
theorem responsibility_smallRing :
    (∃ x, x ∈ Overlay.smallRing) ∧
      ∃ owner ∈ Overlay.smallRing,
        (∀ n : Node, n.Informed Overlay.smallRing →
          (n.isPrimaryFor ⟨65535⟩ = true ↔ n.isSuperpeer = true ∧ n.me = owner) ∧
          Protocol.resolve ⟨65535⟩ false n = .done (some owner) n) ∧
        ∀ (ρ : Type) (o : Overlay ρ) (x : NodeId) (n : Node), o.Settled Overlay.smallRing →
          o.node? x = some n → o.Leads x (Protocol.resolve ⟨65535⟩ true) (some owner) o :=
  ⟨⟨⟨0⟩, by decide⟩, NodeSet.responsibility ⟨⟨0⟩, by decide⟩ ⟨65535⟩⟩

end ChunkDirectory
