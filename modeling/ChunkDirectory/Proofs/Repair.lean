import ChunkDirectory.Proofs.Overlay.Loss
import ChunkDirectory.Proofs.Protocol.Survivor
import ChunkDirectory.Proofs.Replication

/-!
# Repair after the loss of a superpeer

A superpeer of a settled overlay fails. Each of the others handles the failure once, in any order,
and meanwhile some of them may try to have a peer promoted, as they are asked to. If no promotion
goes through, the survivors end up with an exact view of the ring that is left, and what was stored
by the owner of a position is stored by the new owner and by its backups (`failure_repaired`).

What holds after some superpeers have handled the failure is `Repairing`. It knows of no order,
since nobody's part depends on what the others have done: what is passed on is what the owner stored
before the failure, and to store that twice is to store it once.
-/

namespace ChunkDirectory

open Protocol

namespace NodeSet

variable {s : NodeSet} {failed id x y : NodeId}

/-- Who passes something on holds it. -/
theorem Passes.mem_holders (h : s.Passes failed id x y) : x ∈ s.holders id := by
  cases h with
  | dataOf hround => simp [holders, hround, replicas]
  | own hround _ => simp [holders, hround]

end NodeSet

/-- What a superpeer does after another one has failed. -/
inductive Chore where
  /-- It handles the failure. -/
  | handle (superpeer : NodeId)
  /-- It tries to have a peer promoted, as another superpeer asked it to. -/
  | promote (superpeer : NodeId) (hops : UInt16)

namespace Chore

def superpeer : Chore → NodeId
  | handle x => x
  | promote x _ => x

def task (failed : NodeId) : Chore → Task Unit
  | handle _ => handleFailure failed
  | promote _ hops => delegatedPromotion hops

/-- The superpeer that handles the failure. -/
def handler? : Chore → Option NodeId
  | handle x => some x
  | promote .. => none

end Chore

namespace Overlay

variable {ρ : Type} {o o₁ o₂ : Overlay ρ} {s : NodeSet} {failed x y : NodeId} {n : Node}
  {slot : Slot} {handled : List NodeId}

/-! ## Chores -/

/-- Tasks of running nodes come to their ends one after the other. -/
inductive Performs : Overlay ρ → List (NodeId × Task Unit) → Overlay ρ → Prop
  | nil {o : Overlay ρ} : Performs o [] o
  | cons {o o₁ o₂ : Overlay ρ} {x : NodeId} {task : Task Unit} {rest : List (NodeId × Task Unit)} :
      Leads o x task () o₁ → Performs o₁ rest o₂ → Performs o ((x, task) :: rest) o₂

/-- Where the survivors of a loss stand when some of them have handled it. -/
structure Repairing (s : NodeSet) (failed : NodeId) (handled : List NodeId) (o o₁ : Overlay ρ) :
    Prop where
  direct : o₁.Direct
  denying : o₁.Denying
  keyed : o₁.Keyed
  views : ∀ x ∈ s, x ≠ failed → ∃ n, o₁.node? x = some n ∧ n.isSuperpeer = true ∧
    n.ring.Exact (if x ∈ handled then s.erase failed else s)
  /-- Nothing is stored but what was, and what the owner had. -/
  reads : ∀ owner y slot, s.Owns slot.position owner → y ≠ failed →
    o₁.read y slot = o.read y slot ∨ o₁.read y slot = (o.read owner slot).or (o.read y slot)
  /-- What those who have handled the failure pass on has come to its heir. -/
  passed : ∀ owner x y slot, s.Owns slot.position owner → y ≠ failed → x ∈ handled →
    s.Passes failed slot.position x y → o₁.read y slot = (o.read owner slot).or (o.read y slot)

/-- Right after the loss nobody has handled it. -/
theorem Settled.repairing (h : o.Settled s) (hkeyed : o.Keyed) (hdenying : o.Denying)
    (failed : NodeId) : Repairing s failed [] o (o.fail failed) := by
  refine ⟨h.direct.fail failed, fun x k hk => ?_, fun x k hk => ?_, fun x hx hne => ?_,
    fun _ y slot _ hne => .inl (read_fail_of_ne hne), nofun⟩
  · refine (hdenying x k (node?_of_fail hk).2).imp_right fun hcannot => ?_
    exact holds_fail_iff.mpr (.inl hcannot)
  · exact hkeyed x k (node?_of_fail hk).2
  · obtain ⟨n, hn, hrole⟩ := h.exists_superpeer hx
    exact ⟨n, (node?_fail_of_ne hne).trans hn, hrole, h.exact x n hn hx⟩

namespace Repairing

/-- An attempt at a promotion makes no difference. -/
theorem of_alike (h : Repairing s failed handled o o₁) (hsame : Alike Node.standing o₁ o₂) :
    Repairing s failed handled o o₂ := by
  refine ⟨hsame.direct, h.denying.of_place (hsame.weaken Node.place_of_standing),
    hsame.keyed h.keyed, fun x hx hne => ?_, fun owner y slot hown hne => ?_,
    fun owner x y slot hown hne hhandled hpasses => ?_⟩
  · obtain ⟨n, hn, hrole, hexact⟩ := h.views x hx hne
    obtain ⟨n₁, hn₁, hview⟩ := hsame.exists_node? hn
    have hplace := Node.place_of_standing hview
    exact ⟨n₁, hn₁, (Node.isSuperpeer_of_place hplace).trans hrole,
      Node.exact_of_place hplace hexact⟩
  · rw [hsame.read_eq]
    exact h.reads owner y slot hown hne
  · rw [hsame.read_eq]
    exact h.passed owner x y slot hown hne hhandled hpasses

/-- A holder that has survived still stores what the owner stored before the loss. -/
theorem read_of_mem_holders {owner : NodeId} (h : Repairing s failed handled o o₁)
    (hsettled : o.Settled s) (hagrees : o.Agrees s) (hown : s.Owns slot.position owner)
    (hx : x ∈ s.holders slot.position) (hne : x ≠ failed) :
    o₁.read x slot = o.read owner slot := by
  have hbefore := hsettled.read_of_mem_holders hagrees hown hx
  rcases h.reads owner x slot hown hne with hsame | hstored
  · exact hsame.trans hbefore
  · rw [hstored, hbefore, Option.or_self]

/-- One more superpeer handles the failure. -/
theorem handle (h : Repairing s failed handled o o₁) (hsettled : o.Settled s)
    (hagrees : o.Agrees s) (hx : x ∈ s) (hne : x ≠ failed)
    (hhandled : Handled s failed x o₁ o₂) : Repairing s failed (x :: handled) o o₂ := by
  have hstill {owner : NodeId} {slot : Slot} (hown : s.Owns slot.position owner)
      (hholder : x ∈ s.holders slot.position) : o₁.read x slot = o.read owner slot :=
    h.read_of_mem_holders hsettled hagrees hown hholder hne
  -- What is stored a second time is stored already.
  have htwice {owner y : NodeId} {slot : Slot} (hown : s.Owns slot.position owner)
      (hy : y ≠ failed) : (o.read owner slot).or (o₁.read y slot) =
        (o.read owner slot).or (o.read y slot) := by
    rcases h.reads owner y slot hown hy with hsame | hstored
    · rw [hsame]
    · rw [hstored, ← Option.or_assoc, Option.or_self]
  refine ⟨hhandled.direct, hhandled.denying, hhandled.keyed, fun y hy hyfailed => ?_,
    fun owner y slot hown hy => ?_, fun owner z y slot hown hy hz hpasses => ?_⟩
  · by_cases heq : y = x
    · subst heq
      rw [if_pos List.mem_cons_self]
      exact hhandled.self
    · obtain ⟨n, hn, hrole, hexact⟩ := h.views y hy hyfailed
      obtain ⟨n₁, hn₁, hplace⟩ := hhandled.others y n heq hn
      refine ⟨n₁, hn₁, (Node.isSuperpeer_of_place hplace).trans hrole,
        Node.exact_of_place hplace ?_⟩
      simpa only [List.mem_cons, heq, false_or] using hexact
  · rcases hhandled.reads y slot with hsame | ⟨hholder, hstored⟩
    · rw [hsame]
      exact h.reads owner y slot hown hy
    · exact .inr (by rw [hstored, hstill hown hholder, htwice hown hy])
  · rcases List.mem_cons.mp hz with rfl | hz
    · rw [hhandled.passed y slot hpasses, hstill hown hpasses.mem_holders, htwice hown hy]
    · have hbefore := h.passed owner z y slot hown hy hz hpasses
      rcases hhandled.reads y slot with hsame | ⟨hholder, hstored⟩
      · exact hsame.trans hbefore
      · rw [hstored, hstill hown hholder, htwice hown hy]

theorem leads_handle (h : Repairing s failed handled o o₁) (hsettled : o.Settled s)
    (hagrees : o.Agrees s) (hfailed : failed ∈ s) (hx : x ∈ s.erase failed) (hnot : x ∉ handled) :
    ∃ o₂, Leads o₁ x (handleFailure failed) () o₂ ∧
      Repairing s failed (x :: handled) o o₂ := by
  obtain ⟨hx, hne⟩ := NodeSet.mem_erase.mp hx
  obtain ⟨n, hn, hrole, hexact⟩ := h.views x hx hne
  rw [if_neg hnot] at hexact
  have hothers : ∀ y ∈ s, y ≠ failed → y ≠ x → o₁.Other x y := by
    intro y hy hyfailed hyx
    obtain ⟨m, hm, hsuper, -⟩ := h.views y hy hyfailed
    exact ⟨hyx, m, hm, hsuper⟩
  obtain ⟨o₂, hleads, hhandled⟩ := leads_handleFailure h.direct h.denying h.keyed hn hrole hexact
    hx hfailed (Ne.symm hne) hothers
  exact ⟨o₂, hleads, h.handle hsettled hagrees hx hne hhandled⟩

theorem leads_promote (h : Repairing s failed handled o o₁) (hx : x ∈ s.erase failed)
    (hops : UInt16) : ∃ o₂, Leads o₁ x (delegatedPromotion hops) () o₂ ∧
      Repairing s failed handled o o₂ := by
  obtain ⟨hx, hne⟩ := NodeSet.mem_erase.mp hx
  obtain ⟨n, hn, -⟩ := h.views x hx hne
  obtain ⟨⟨⟩, o₂, hleads, hsame⟩ := h.denying.idle_delegatedPromotion hn hops o₁ (.rfl h.direct)
  exact ⟨o₂, hleads, h.of_alike (hsame.weaken Node.standing_of_core)⟩

/-- Superpeers do their chores, none of them handling the failure twice. -/
theorem performs {chores : List Chore} (h : Repairing s failed handled o o₁)
    (hsettled : o.Settled s) (hagrees : o.Agrees s) (hfailed : failed ∈ s)
    (hmembers : ∀ chore ∈ chores, chore.superpeer ∈ s.erase failed)
    (honce : (chores.filterMap Chore.handler?).Nodup)
    (hnew : ∀ x ∈ chores.filterMap Chore.handler?, x ∉ handled) :
    ∃ o₂, o₁.Performs (chores.map fun chore => (chore.superpeer, chore.task failed)) o₂ ∧
      Repairing s failed ((chores.filterMap Chore.handler?).reverse ++ handled) o o₂ := by
  induction chores generalizing o₁ handled with
  | nil => exact ⟨o₁, .nil, h⟩
  | cons chore rest ih =>
    obtain ⟨hmember, hothers⟩ := List.forall_mem_cons.mp hmembers
    cases chore with
    | handle x =>
      have hlist : (Chore.handle x :: rest).filterMap Chore.handler? =
        x :: rest.filterMap Chore.handler? := rfl
      rw [hlist] at honce hnew ⊢
      obtain ⟨hfresh, honce⟩ := List.nodup_cons.mp honce
      obtain ⟨hnot, hnew⟩ := List.forall_mem_cons.mp hnew
      obtain ⟨o₂, hleads, hnext⟩ := h.leads_handle hsettled hagrees hfailed hmember hnot
      obtain ⟨o₃, hperforms, hlast⟩ := ih hnext hothers honce fun y hy => by
        rw [List.mem_cons, not_or]
        exact ⟨ne_of_mem_of_not_mem hy hfresh, hnew y hy⟩
      rw [List.reverse_cons, List.append_assoc]
      exact ⟨o₃, .cons hleads hperforms, hlast⟩
    | promote x hops =>
      obtain ⟨o₂, hleads, hnext⟩ := h.leads_promote hmember hops
      obtain ⟨o₃, hperforms, hlast⟩ := ih hnext hothers honce hnew
      exact ⟨o₃, .cons hleads hperforms, hlast⟩

end Repairing

/-! ## The repair -/

/-- The loss of a superpeer is made good. -/
structure Repaired (s : NodeSet) (failed : NodeId) (o o₁ : Overlay ρ) : Prop where
  /-- Each survivor lists the others, and its pointers are its neighbours among them. -/
  views : ∀ x ∈ s.erase failed, ∃ n, o₁.node? x = some n ∧ n.isSuperpeer = true ∧
    n.ring.Exact (s.erase failed)
  /-- What the owner of a position stored is stored by the new one and by its backups. Where it
  stored nothing they have what they had. -/
  copies : ∀ slot owner heir n, s.Owns slot.position owner →
    (s.erase failed).Owns slot.position heir → o₁.node? heir = some n →
    ∀ y ∈ heir :: n.ring.backups heir, o₁.read y slot = (o.read owner slot).or (o.read y slot)

/-- When everybody has handled the failure, the loss is made good. -/
theorem Repairing.repaired (h : Repairing s failed handled o o₁) (hsettled : o.Settled s)
    (hagrees : o.Agrees s) (hall : ∀ x ∈ s.erase failed, x ∈ handled) :
    Repaired s failed o o₁ := by
  have hviews : ∀ x ∈ s.erase failed, ∃ n, o₁.node? x = some n ∧ n.isSuperpeer = true ∧
      n.ring.Exact (s.erase failed) := by
    intro x hx
    obtain ⟨hmem, hne⟩ := NodeSet.mem_erase.mp hx
    obtain ⟨n, hn, hrole, hexact⟩ := h.views x hmem hne
    rw [if_pos (hall x hx)] at hexact
    exact ⟨n, hn, hrole, hexact⟩
  refine ⟨hviews, fun slot owner heir n hown hheir hn y hy => ?_⟩
  obtain ⟨n', hn', -, hexact⟩ := hviews heir hheir.1
  rw [hn] at hn'
  cases hn'
  have hme : n.ring.me = heir := h.direct.me hn
  have hholders := hexact.holders (hme.symm ▸ hheir)
  rw [hme] at hholders
  rw [hholders] at hy
  have hyfailed : y ≠ failed := by
    have hmem : y ∈ s.erase failed := NodeSet.mem_roundFrom.mp (List.mem_of_mem_take hy)
    exact (NodeSet.mem_erase.mp hmem).2
  rcases NodeSet.holders_erase hy with hholder | ⟨x, hx, hpasses⟩
  · rw [h.read_of_mem_holders hsettled hagrees hown hholder hyfailed,
      hsettled.read_of_mem_holders hagrees hown hholder, Option.or_self]
  · exact h.passed owner x y slot hown hyfailed (hall x hx) hpasses

/-- A superpeer is lost. When each of the others has handled the failure, in any order and with any
attempts at a promotion in between, the loss is made good. -/
theorem Settled.failure_repaired {chores : List Chore} (h : o.Settled s) (hagrees : o.Agrees s)
    (hkeyed : o.Keyed) (hdenying : o.Denying) (hfailed : failed ∈ s)
    (hmembers : ∀ chore ∈ chores, chore.superpeer ∈ s.erase failed)
    (honce : (chores.filterMap Chore.handler?).Perm (s.erase failed).toList) :
    ∃ o₁, (o.fail failed).Performs
        (chores.map fun chore => (chore.superpeer, chore.task failed)) o₁ ∧
      Repaired s failed o o₁ := by
  have hnodup : (chores.filterMap Chore.handler?).Nodup :=
    honce.nodup_iff.mpr (s.erase failed).toList_nodup
  obtain ⟨o₁, hperforms, hrepairing⟩ := (h.repairing hkeyed hdenying failed).performs h hagrees
    hfailed hmembers hnodup fun _ _ => List.not_mem_nil
  refine ⟨o₁, hperforms, hrepairing.repaired h hagrees fun x hx => ?_⟩
  rw [List.append_nil, List.mem_reverse]
  exact honce.mem_iff.mpr hx

/-! ## A loss in the ring of five -/

/-- The first range of a peer at 500 is registered. -/
def firstRange : Mutation := .initRange (.created (.make ⟨500⟩ 0)) ⟨500⟩ .empty

/-- The first range of the peer is stored where it should be, and the peer cannot move its objects.
-/
def overlayOfFive : Overlay ρ :=
  ((complete ringOfFive nodesOfFive).mutateEach firstRange
    (ringOfFive.holders firstRange.key)).change .handOverFails [⟨500⟩] []

theorem settled_overlayOfFive : (overlayOfFive : Overlay ρ).Settled ringOfFive :=
  settled_five.mutateEach.change (by decide)

theorem agrees_overlayOfFive : (overlayOfFive : Overlay ρ).Agrees ringOfFive := by
  have hslot : firstRange.slot? = some (.tree ⟨500⟩) := rfl
  have hempty : (complete ringOfFive nodesOfFive : Overlay ρ).Agrees ringOfFive :=
    fun _ _ _ _ _ _ _ => by rw [read_complete, read_complete]
  exact (settled_five.agrees_mutateHolders hempty hslot).change

theorem keyed_overlayOfFive : (overlayOfFive : Overlay ρ).Keyed :=
  (keyed_complete.mutateEach settled_five).change

theorem denying_overlayOfFive : (overlayOfFive : Overlay ρ).Denying := by
  intro x k hk
  rw [overlayOfFive, node?_change] at hk
  obtain ⟨k₁, hk₁, -⟩ := settled_five.sameViews_mutateEach.symm.exists_node? hk
  obtain ⟨c, hc, rfl⟩ := exists_config_of_node? hk₁
  rcases List.mem_append.mp hc with hc | hc
  · obtain ⟨x, hx, rfl⟩ := List.mem_map.mp hc
    exact .inl ((settled_five.mutateEach.superpeer_iff _ k hk).mpr hx)
  · cases List.mem_singleton.mp hc
    exact .inr rfl

/-- The superpeer at 1000, which owns the peer's range, is lost. -/
theorem failure_repaired_overlayOfFive :
    ∃ o₁, ((overlayOfFive : Overlay Unit).fail ⟨1000⟩).Performs
        ([Chore.handle ⟨2000⟩, .promote ⟨0⟩ 2, .handle ⟨4000⟩, .handle ⟨0⟩, .handle ⟨3000⟩].map
          fun chore => (chore.superpeer, chore.task ⟨1000⟩)) o₁ ∧
      Repaired ringOfFive ⟨1000⟩ overlayOfFive o₁ :=
  settled_overlayOfFive.failure_repaired agrees_overlayOfFive keyed_overlayOfFive
    denying_overlayOfFive (by decide) (by decide) (by decide)

end Overlay

end ChunkDirectory
