import ChunkDirectory.Proofs.Overlay.Complete
import ChunkDirectory.Proofs.Protocol.Walk
import ChunkDirectory.Proofs.Ring.Learning

/-!
# Lists of superpeers converge

Superpeers that know their neighbours make up a ring (`Overlay.Linked`), whatever else they know. One
of them asks those it knows for their successors, some in each round of upkeep. Every question is
answered, and what it makes of the list is described by `NodeSet.learn`
(`Overlay.Linked.leads_fixSuperpeers`). So the list is complete after as many rounds as the square of
the size of the ring, and it does not change any more (`Overlay.Linked.superpeers_converge`).
-/

namespace ChunkDirectory

open Protocol

namespace Protocol

/-- Completes the list in several rounds of upkeep. In each of them as many superpeers are asked as
the configuration says. -/
def fixRounds : Nat → UpkeepState → Task UpkeepState
  | 0, state => return state
  | rounds + 1, state => do
    let n ← Task.node
    let state ← fixSuperpeers state (max (n.config.expectedSuperpeers / superpeersPerCheck) 1)
    fixRounds rounds state

end Protocol

/-- The node with another list of superpeers. -/
def Node.withSuperpeers (n : Node) (l : NodeSet) : Node := n.mapRing ({ · with superpeers := l })

namespace Overlay

variable {ρ : Type} {o o₁ : Overlay ρ} {s l : NodeSet} {id contact q : NodeId} {n m : Node}
  {state : UpkeepState}

/-- The members of `s` are running superpeers, and each of them knows its neighbours. -/
structure Linked (s : NodeSet) (o : Overlay ρ) : Prop where
  direct : o.Direct
  valid : ∀ x ∈ s, x.isReserved = false
  linked : ∀ x ∈ s, ∃ n, o.node? x = some n ∧ n.isSuperpeer = true ∧ n.ring.Pointed s

/-- A list that is kept makes no difference. -/
theorem put_withSuperpeers_self (hn : o.node? id = some n) :
    o.put id (n.withSuperpeers n.ring.superpeers) = o := put_of_node? hn

/-- Settled overlays are linked. -/
theorem Settled.linked (h : o.Settled s) : o.Linked s := by
  refine ⟨h.toCalm.direct, h.valid, fun x hx => ?_⟩
  obtain ⟨n, hn⟩ := h.running x hx
  exact ⟨n, hn, (h.superpeer_iff x n hn).mpr hx, (h.exact x n hn hx).toPointed⟩

namespace Linked

theorem pointed (h : o.Linked s) (hid : id ∈ s) (hn : o.node? id = some n) : n.ring.Pointed s := by
  obtain ⟨m, hm, -, hpointed⟩ := h.linked id hid
  rw [hn] at hm
  cases hm
  exact hpointed

/-- Whom a member lists makes no difference. -/
theorem put (h : o.Linked s) (hn : o.node? id = some n) (l : NodeSet) :
    (o.put id (n.withSuperpeers l)).Linked s := by
  refine ⟨h.direct.put (show n.me = id from h.direct.me hn), h.valid, fun x hx => ?_⟩
  obtain ⟨m, hm, hrole, hpointed⟩ := h.linked x hx
  by_cases heq : x = id
  · subst heq
    rw [hn] at hm
    cases hm
    exact ⟨_, node?_put_self hn, hrole, hpointed.predecessor, hpointed.successor⟩
  · exact ⟨m, (h.direct.node?_put_of_ne heq).trans hm, hrole, hpointed⟩

theorem chained (h : o.Linked s) : o.Chained s := by
  refine ⟨h.direct, fun x hx => ?_⟩
  obtain ⟨n, hn, hrole, hpointed⟩ := h.linked x hx
  have hme : n.ring.me = x := h.direct.me hn
  exact ⟨n, hn, hrole, hme ▸ hpointed.successor⟩

/-- A member that is asked for its successor names the next member. -/
theorem exists_leads_call (h : o.Linked s) (hid : id ∈ s) (hn : o.node? id = some n)
    (hcontact : contact ∈ s) (hne : contact ≠ id) :
    ∃ q, s.After contact q ∧
      Leads o id (Task.call contact .askAboutSuccessor) (.ok (.successorIs (some q))) o := by
  obtain ⟨q, hq⟩ := NodeSet.exists_after hid hne.symm
  exact ⟨q, hq, (h.chained.leads_askAboutSuccessor hn hcontact hq).leads⟩

/-- What is made of an answer. -/
theorem leads_learn (h : o.Linked s) (hn : o.node? id = some n) (hq : q ∈ s) {t : Task UpkeepState}
    {state' : UpkeepState}
    (hrest : Leads (o.put id (n.withSuperpeers (n.ring.superpeers.learn id q))) id t state' o₁) :
    Leads o id (do
      if n.ring.nextAfter contact ≠ some q && q ≠ n.me then
        Task.modifyRing (·.insertSuperpeer q)
      t) state' o₁ := by
  have hme : n.me = id := h.direct.me hn
  by_cases hnew : (decide (n.ring.nextAfter contact ≠ some q) && decide (q ≠ n.me)) = true
  case pos =>
    rw [if_pos hnew]
    rw [Bool.and_eq_true, decide_eq_true_iff, decide_eq_true_iff] at hnew
    have hlisted : n.mapRing (·.insertSuperpeer q) =
        n.withSuperpeers (n.ring.superpeers.learn id q) := by
      have hadmits : n.ring.admits q = true := Ring.admits_iff.mpr ⟨hnew.2, h.valid q hq⟩
      rw [Node.mapRing, Ring.insertSuperpeer, if_pos hadmits, NodeSet.learn,
        if_neg (hme ▸ hnew.2)]
      rfl
    exact Leads.modify_bind hn (hlisted ▸ hrest)
  case neg =>
    rw [if_neg hnew]
    have hknown : n.ring.superpeers.learn id q = n.ring.superpeers := by
      refine NodeSet.learn_of_mem fun hne => ?_
      by_contra hnot
      have hnext : n.ring.nextAfter contact ≠ some q :=
        fun hnext => hnot (Ring.nextAfter_eq_some_iff.mp hnext).1
      exact hnew (by simp [hme, hne, hnext])
    rw [hknown, put_withSuperpeers_self hn] at hrest
    exact hrest

/-- Some questions, one after the other. -/
theorem leads_fixSuperpeers (h : o.Linked s) (hid : id ∈ s) (hn : o.node? id = some n)
    (hknowing : s.Knowing id n.ring.superpeers) {due : Nat}
    (hdue : s.Due id n.ring.superpeers state.nextSuperpeer due) (rounds : Nat) :
    ∃ l state', Leads o id (fixSuperpeers state rounds) state' (o.put id (n.withSuperpeers l)) ∧
      s.Knowing id l ∧ s.Due id l state'.nextSuperpeer (due - rounds) := by
  induction rounds generalizing o n state due with
  | zero =>
    refine ⟨n.ring.superpeers, state, ?_, hknowing, hdue⟩
    rw [put_withSuperpeers_self hn]
    exact Leads.pure hn
  | succ rounds ih =>
    obtain ⟨i, contact, hask, hcontact, hturn⟩ :=
      NodeSet.nextToAsk_spec hknowing.several state.nextSuperpeer
    obtain ⟨hmember, hother⟩ := hknowing.listed contact (List.mem_of_getElem? hcontact)
    obtain ⟨q, hq, hcall⟩ := h.exists_leads_call hid hn hmember hother
    have hme : n.ring.me = id := h.direct.me hn
    have hpredecessor (p : NodeId) (hp : n.ring.predecessor = some p) : s.After p id :=
      (hme ▸ ((h.pointed hid hn).predecessor p).mp hp : s.Before id p).after hid
    have hdue₁ := hdue.step hknowing hid hpredecessor hcontact hturn hq
    let next : UpkeepState := { state with nextSuperpeer := i + 1 }
    change s.Due id _ next.nextSuperpeer _ at hdue₁
    obtain ⟨l, state', hrest, hknowing', hdue'⟩ :=
      ih (h.put hn _) (node?_put_self hn) (hknowing.learn hq.1) hdue₁
    rw [put_put] at hrest
    refine ⟨l, state', Leads.node_bind hn ?_, hknowing', by rwa [Nat.sub_sub, Nat.add_comm] at hdue'⟩
    rw [if_neg (Nat.not_lt.mpr hknowing.several), hask]
    exact hcall.bind (h.leads_learn hn hq.1 hrest)

/-- Some rounds of upkeep, each with a question at least. -/
theorem leads_fixRounds (h : o.Linked s) (hid : id ∈ s) (hn : o.node? id = some n)
    (hknowing : s.Knowing id n.ring.superpeers) {rounds : Nat}
    (hdue : s.Due id n.ring.superpeers state.nextSuperpeer rounds) :
    ∃ state', Leads o id (fixRounds rounds state) state'
      (o.put id (n.withSuperpeers (s.erase id))) := by
  induction rounds generalizing o n state with
  | zero =>
    refine ⟨state, ?_⟩
    rw [← hdue.complete, put_withSuperpeers_self hn]
    exact Leads.pure hn
  | succ rounds ih =>
    let asked := max (n.config.expectedSuperpeers / superpeersPerCheck) 1
    have hasked : 1 ≤ asked := Nat.le_max_right _ _
    obtain ⟨l, state₁, hfirst, hknowing₁, hdue₁⟩ :=
      h.leads_fixSuperpeers hid hn hknowing hdue asked
    obtain ⟨state₂, hrest⟩ := ih (h.put hn l) (node?_put_self hn) hknowing₁
      (hdue₁.mono (by omega))
    rw [put_put] at hrest
    exact ⟨state₂, Leads.node_bind hn (hfirst.bind hrest)⟩

/-- In a ring of at least three superpeers, let one list its neighbours and any of the others, and let
its cursor stand anywhere. After as many rounds as the square of the size of the ring, and after any
number of further rounds, its list is complete, and nothing else has changed. -/
theorem superpeers_converge (h : o.Linked s) (hsize : 3 ≤ s.size) (hid : id ∈ s)
    (hn : o.node? id = some n) (hlisted : ∀ x ∈ n.ring.superpeers, x ∈ s ∧ x ≠ id)
    (hneighbours : ∀ x, n.ring.predecessor = some x ∨ n.ring.successor = some x →
      x ∈ n.ring.superpeers) (state : UpkeepState) {rounds : Nat}
    (hrounds : s.size * s.size ≤ rounds) :
    ∃ state', Leads o id (fixRounds rounds state) state'
      (o.put id (n.withSuperpeers (s.erase id))) := by
  have hme : n.ring.me = id := h.direct.me hn
  have hpointed := h.pointed hid hn
  have hknowing : s.Knowing id n.ring.superpeers := by
    refine .of_neighbours hsize hlisted (fun p hp => ?_) fun q hq => ?_
    · exact hneighbours p (.inl ((hpointed.predecessor p).mpr (hme.symm ▸ hp)))
    · exact hneighbours q (.inr ((hpointed.successor q).mpr (hme.symm ▸ hq)))
  refine h.leads_fixRounds hid hn hknowing (hknowing.due hid _ (le_trans ?_ hrounds))
  have hmissing : (s.erase id).size - n.ring.superpeers.size ≤ s.size :=
    (Nat.sub_le _ _).trans (NodeSet.size_le_of_subset fun x hx => (NodeSet.mem_erase.mp hx).1)
  exact Nat.mul_le_mul_right _ hmissing

/-- In a ring of five, one superpeer that has forgotten all but its neighbours learns about the other
two, although its cursor stands behind the end of the list. -/
theorem superpeers_converge_five :
    ∃ (o : Overlay Unit) (n : Node) (state' : UpkeepState), o.node? ⟨0⟩ = some n ∧
      n.ring.superpeers = .ofList [⟨1000⟩, ⟨4000⟩] ∧
      Leads o ⟨0⟩ (fixRounds 25 ⟨7, 0⟩) state'
        (o.put ⟨0⟩ (n.withSuperpeers (.ofList [⟨1000⟩, ⟨2000⟩, ⟨3000⟩, ⟨4000⟩]))) := by
  have hsettled : (complete ringOfFive nodesOfFive : Overlay Unit).Settled ringOfFive := settled_five
  have hmember : (⟨0⟩ : NodeId) ∈ ringOfFive := by decide
  have hbefore : ringOfFive.Before ⟨0⟩ ⟨4000⟩ := by
    have hnearest : ∀ y ∈ ringOfFive.toList, y ≠ ⟨0⟩ →
        NodeId.clockwise ⟨4000⟩ ⟨0⟩ ≤ NodeId.clockwise y ⟨0⟩ := by decide
    exact ⟨by decide, by decide, hnearest⟩
  have hafter : ringOfFive.After ⟨0⟩ ⟨1000⟩ := by
    have hnearest : ∀ y ∈ ringOfFive.toList, y ≠ ⟨0⟩ →
        NodeId.clockwise ⟨0⟩ ⟨1000⟩ ≤ NodeId.clockwise ⟨0⟩ y := by decide
    exact ⟨by decide, by decide, hnearest⟩
  have hlisted : ∀ x ∈ (NodeSet.ofList [⟨1000⟩, ⟨4000⟩]).toList, x ∈ ringOfFive ∧ x ≠ ⟨0⟩ := by decide
  obtain ⟨k, hk⟩ := hsettled.running ⟨0⟩ hmember
  have hme : k.ring.me = ⟨0⟩ := hsettled.toCalm.me hk
  obtain ⟨hpredecessor, hsuccessor⟩ := hsettled.linked.pointed hmember hk
  have hneighbours : ∀ x, k.ring.predecessor = some x ∨ k.ring.successor = some x →
      x ∈ NodeSet.ofList [⟨1000⟩, ⟨4000⟩] := by
    rintro x (hp | hq)
    · rw [((hpredecessor x).mp hp).unique (hme.symm ▸ hbefore)]
      decide
    · rw [((hsuccessor x).mp hq).unique (hme.symm ▸ hafter)]
      decide
  have hrounds : ringOfFive.size * ringOfFive.size ≤ 25 := by decide
  obtain ⟨state', hleads⟩ := (hsettled.linked.put hk (.ofList [⟨1000⟩, ⟨4000⟩])).superpeers_converge
    (by decide) hmember (node?_put_self hk) hlisted hneighbours ⟨7, 0⟩ hrounds
  exact ⟨_, k.withSuperpeers (.ofList [⟨1000⟩, ⟨4000⟩]), state', node?_put_self hk, rfl, hleads⟩

end Linked

end Overlay

end ChunkDirectory
