import ChunkDirectory.Proofs.Overlay.Direct

/-!
# Overlays with nodes that are cut off

In a plain overlay no rule interferes with messages, but any of the nodes may be gone or cut off. A
message is handled by its receiver if that one is reached, and is lost otherwise
(`Plain.does_send`, `Plain.does_send_lost`). Who is reached does not change with the states of nodes
(`SameFrame`).
-/

namespace ChunkDirectory

namespace Overlay

variable {ρ : Type} {o o₁ o₂ : Overlay ρ} {id other : NodeId} {n m k : Node}

/-- Messages reach the node. -/
def reaches (o : Overlay ρ) (id : NodeId) : Bool := (o.reachable? id).isSome

/-- No rule interferes, and running nodes are found under their own identifiers. -/
structure Plain (o : Overlay ρ) : Prop where
  rules : o.rules = []
  numbered : ∀ id member, o.members.get? id = some member →
    ∃ n, o.nodes[member.node]? = some n ∧ n.me = id

theorem Calm.plain (h : o.Calm) : o.Plain := ⟨h.rules, h.numbered⟩

/-- At most the states of nodes differ. -/
structure SameFrame (o o₁ : Overlay ρ) : Prop where
  members : o₁.members = o.members
  conditions : o₁.conditions = o.conditions
  plain : o₁.Plain

theorem holds_down_of_reaches (h : o.reaches id = true) : o.holds .down id = false := by
  cases hdown : o.holds .down id with
  | false => rfl
  | true =>
    unfold reaches reachable? at h
    rw [hdown] at h
    cases h

/-- Whoever is reached is running. -/
theorem exists_node?_of_reaches (h : o.reaches id = true) : ∃ n, o.node? id = some n := by
  obtain ⟨⟨member, n⟩, hreach⟩ := Option.isSome_iff_exists.mp h
  rw [reachable?, holds_down_of_reaches h] at hreach
  exact ⟨n, Option.map_eq_some_iff.mpr ⟨_, hreach, rfl⟩⟩

namespace Plain

/-- Without background work, and with nobody cut off, the overlay would be calm. -/
theorem calm (h : o.Plain) : ({ o with queue := [], conditions := [] } : Overlay ρ).Calm :=
  ⟨h.rules, rfl, fun _ _ _ => rfl, h.numbered⟩

theorem me (h : o.Plain) (hn : o.node? id = some n) : n.me = id := h.calm.me hn

theorem node?_put_of_ne (h : o.Plain) (hne : other ≠ id) :
    (o.put id n).node? other = o.node? other := by
  have hsame := Calm.node?_put_of_ne h.calm (n := n) hne
  cases hmember : o.members.get? id with
  | none => simp only [Overlay.put, hmember]
  | some member =>
    simp only [Overlay.put, hmember] at hsame ⊢
    exact hsame

theorem put (h : o.Plain) (hme : n.me = id) : (o.put id n).Plain := by
  have hcalm := Calm.put h.calm hme
  cases hmember : o.members.get? id with
  | none =>
    simp only [Overlay.put, hmember] at hcalm ⊢
    exact ⟨hcalm.rules, hcalm.numbered⟩
  | some member =>
    simp only [Overlay.put, hmember] at hcalm ⊢
    exact ⟨hcalm.rules, hcalm.numbered⟩

end Plain

namespace SameFrame

theorem refl (h : o.Plain) : SameFrame o o := ⟨rfl, rfl, h⟩

theorem trans (h : SameFrame o o₁) (h₁ : SameFrame o₁ o₂) : SameFrame o o₂ :=
  ⟨h₁.members.trans h.members, h₁.conditions.trans h.conditions, h₁.plain⟩

theorem put (h : o.Plain) (hme : n.me = id) : SameFrame o (o.put id n) := by
  refine ⟨members_put, ?_, h.put hme⟩
  unfold Overlay.put
  split <;> rfl

theorem holds_eq (h : SameFrame o o₁) (condition : Condition) (x : NodeId) :
    o₁.holds condition x = o.holds condition x := by
  unfold holds
  rw [h.conditions]

/-- A running node keeps running. -/
theorem exists_node? (h : SameFrame o o₁) (hplain : o.Plain) :
    (∃ n, o₁.node? id = some n) ↔ ∃ n, o.node? id = some n := by
  have hmember {o : Overlay ρ} (h : o.Plain) :
      (∃ n, o.node? id = some n) ↔ ∃ member, o.members.get? id = some member := by
    constructor
    · rintro ⟨n, hn⟩
      obtain ⟨member, hmember, -⟩ := node?_eq_some_iff.mp hn
      exact ⟨member, hmember⟩
    · rintro ⟨member, hmember⟩
      exact h.calm.exists_node? hmember
  rw [hmember h.plain, hmember hplain, h.members]

theorem reaches_eq (h : SameFrame o o₁) (hplain : o.Plain) (x : NodeId) :
    o₁.reaches x = o.reaches x := by
  have hrunning : ∀ {o : Overlay ρ}, (o.running? x).isSome = true ↔ ∃ n, o.node? x = some n := by
    intro o
    rw [node?, ← Option.isSome_iff_exists, Option.isSome_map]
  unfold reaches reachable?
  rw [h.holds_eq]
  split
  · rfl
  · rw [Bool.eq_iff_iff, hrunning, hrunning]
    exact h.exists_node? hplain

end SameFrame

/-! ## Messages -/

variable {message reply : Message} {events : List (Event ρ)}

namespace Plain

/-- What is sent is handled by its receiver if that one is reached. -/
theorem does_send (h : o.Plain) (hn : o.node? id = some n) (hreach : o.reaches other = true)
    (hhandle : Does o other (Protocol.handleMessage id message) reply o₁ events)
    (hn₁ : o₁.node? id = some m) :
    Does o id (Task.send other message) (.ok ()) o₁
      (events ++ [.sent id other message (.ok ())]) := by
  have hreached := ends_deliver_reached (holds_down_of_reaches hreach) hhandle
  exact .send_of_deliver h.rules (h.me hn) hn hreached hhandle.members hn₁

/-- What is sent to a node that is not reached is lost. -/
theorem does_send_lost (h : o.Plain) (hn : o.node? id = some n)
    (hreach : o.reaches other = false) (message : Message) :
    Does o id (Task.send other message) (.error (.unreachable other .refused)) o
      [.sent id other message (.error (.unreachable other .refused))] := by
  have hnone : o.reachable? other = none :=
    Option.isNone_iff_eq_none.mp (Option.isSome_eq_false_iff.mp hreach)
  exact .send_of_deliver h.rules (h.me hn) hn (ends_deliver_lost hnone) rfl hn

end Plain

end Overlay

end ChunkDirectory
