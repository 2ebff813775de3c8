import ChunkDirectory.Proofs.Overlay.Complete
import ChunkDirectory.Proofs.Protocol.Token

/-!
# A promotion that is passed on

A superpeer that cannot promote one of its peers passes the job on, and so may the one that gets it.
The stages of such a job are the first attempt and the work on each delivery (`Delegation`). Nothing
is assumed about the nodes: each stage may find its node in any state, each message may be lost, and
a stage need not be over when the next one begins.

The job is a token. At any time at most one delivery of it is not worked on, so that the stages form
a chain, and all of them together promote at most one peer. Hops are counted in 16 bits, up to a
maximum that is kept. Where nodes know so few superpeers that they drop the job before that, it is
delivered at most twice as often as one of the visited nodes knows superpeers
(`delegation_is_one_token`).
-/

namespace ChunkDirectory

open Protocol

/-- The part that one node has in a promotion that is passed on. -/
structure Stage where
  node : NodeId
  /-- The state in which the node begins. -/
  before : Node
  /-- What has come of its part so far. -/
  deeds : List Deed

namespace Stage

/-- The deliveries of the job to other nodes. -/
def deliveries (s : Stage) : Nat := (s.deeds.filterMap Deed.delegated?).length

/-- The peers that were promoted. -/
def promotions (s : Stage) : Nat := (s.deeds.filterMap Deed.promoted?).length

/-- The deliveries that work was started for. -/
def started (s : Stage) : List (NodeId × UInt16) := s.deeds.filterMap Deed.started?

/-- The number of hops at which the node drops the job. -/
def limit (s : Stage) : Nat := 2 * max s.before.ring.superpeers.size 1

end Stage

/-- The stages of a promotion so far: the first, the visited ones, latest first, and the deliveries
that are not worked on yet. -/
inductive Delegation (target : NodeId) : Stage → List Stage → List (NodeId × UInt16) → Prop
  | begun {id : NodeId} {n : Node} {deeds : List Deed} {result : Option Unit} :
      (promoteOnePeer target n).Causes id deeds result →
      Delegation target ⟨id, n, deeds⟩ [] (Stage.started ⟨id, n, deeds⟩)
  | visited {first : Stage} {visits : List Stage} {before after : List (NodeId × UInt16)}
      {id : NodeId} {hops : UInt16} {n : Node} {deeds : List Deed} {result : Option Unit} :
      Delegation target first visits (before ++ (id, hops) :: after) →
      ((Background.promoteForOther hops).task n).Causes id deeds result →
      Delegation target first (⟨id, n, deeds⟩ :: visits)
        (before ++ after ++ Stage.started ⟨id, n, deeds⟩)

/-- How often the job was delivered. -/
def deliveries (stages : List Stage) : Nat :=
  (stages.flatMap fun s => s.deeds.filterMap Deed.delegated?).length

/-- How many peers were promoted. -/
def promotions (stages : List Stage) : Nat :=
  (stages.flatMap fun s => s.deeds.filterMap Deed.promoted?).length

theorem deliveries_cons (s : Stage) (stages : List Stage) :
    deliveries (s :: stages) = s.deliveries + deliveries stages := List.length_append

theorem promotions_cons (s : Stage) (stages : List Stage) :
    promotions (s :: stages) = s.promotions + promotions stages := List.length_append

/-! ## One stage -/

/-- A stage keeps the job to itself, or it has passed it on and promoted nobody. -/
inductive Stage.Outcome (hops : UInt16) (s : Stage) : Prop
  | kept (started : s.started = []) (deliveries : s.deliveries ≤ 1) (promotions : s.promotions ≤ 1)
  | passed (contact : NodeId) (started : s.started = [(contact, hops)])
      (deliveries : s.deliveries = 1) (promotions : s.promotions = 0)

namespace Stage

variable {hops : UInt16} {s : Stage} {result : Option Unit}

theorem outcome_of_deeds (h : s.deeds = [] ∨ Spent hops s.deeds) : s.Outcome hops := by
  obtain ⟨node, before, deeds⟩ := s
  rcases h with rfl | hspent
  · exact .kept rfl (Nat.zero_le 1) (Nat.zero_le 1)
  · cases hspent with
    | promoted peer => exact .kept rfl (Nat.zero_le 1) le_rfl
    | delegated contact => exact .kept rfl le_rfl (Nat.zero_le 1)
    | started contact => exact .passed contact rfl rfl rfl

theorem outcome_of_carries {p : Progress Unit} (h : p.Carries hops (fun _ _ => True) true)
    (hcauses : p.Causes s.node s.deeds result) : s.Outcome hops := by
  rcases h.sound hcauses with ⟨hnone, -⟩ | ⟨-, hspent, -⟩
  · exact outcome_of_deeds (.inl hnone)
  · exact outcome_of_deeds (.inr hspent)

theorem Outcome.deliveries_le (h : s.Outcome hops) : s.deliveries ≤ 1 := by
  cases h with
  | kept _ hdeliveries => exact hdeliveries
  | passed _ _ hdeliveries => exact hdeliveries.le

theorem outcome_of_promoteOnePeer {target : NodeId}
    (h : (promoteOnePeer target s.before).Causes s.node s.deeds result) : s.Outcome 1 :=
  outcome_of_carries (carries_promoteOnePeer target s.before) h

theorem outcome_of_promoteForOther
    (h : ((Background.promoteForOther hops).task s.before).Causes s.node s.deeds result) :
    s.Outcome (nextHop hops) :=
  outcome_of_carries (carries_delegatedPromotion hops s.before) h

/-- A node that gets the job after too many hops drops it. -/
theorem deliveries_of_limit (hlimit : s.limit ≤ hops.toNat)
    (h : ((Background.promoteForOther hops).task s.before).Causes s.node s.deeds result) :
    s.deliveries = 0 := by
  have hdrop : (Background.promoteForOther hops).task s.before = .done () s.before :=
    delegatedPromotion_of_limit hlimit
  have hnone : s.deeds = [] := by
    rw [hdrop] at h
    exact Progress.deeds_of_done h
  rw [deliveries, hnone]
  rfl

end Stage

/-- Hops are counted up to the greatest number of 16 bits. -/
theorem toNat_nextHop (hops : UInt16) : (nextHop hops).toNat = min (hops.toNat + 1) 65535 := by
  have hlt := hops.toNat_lt
  unfold nextHop
  split
  case isTrue hmax => rw [hmax]; rfl
  case isFalse hmax =>
    have hne : hops.toNat ≠ 65535 := fun h => hmax (UInt16.toNat_inj.mp h)
    have hadd : (hops + 1).toNat = (hops.toNat + 1) % 65536 := UInt16.toNat_add _ _
    omega

/-! ## The chain of stages -/

/-- Where the token is: with one delivery that is not worked on yet, after as many hops as there
were stages, or with a stage that keeps it. -/
inductive TokenAt (stages : List Stage) (pending : List (NodeId × UInt16)) : Prop
  | kept (pending : pending = []) (promotions : promotions stages ≤ 1)
  | inFlight (contact : NodeId) (hops : UInt16) (pending : pending = [(contact, hops)])
      (count : hops.toNat = min stages.length 65535) (deliveries : deliveries stages = stages.length)
      (promotions : promotions stages = 0)

/-- A delivery that is being waited for is the only one. -/
theorem TokenAt.of_mem {stages : List Stage} {before after : List (NodeId × UInt16)} {id : NodeId}
    {hops : UInt16} (h : TokenAt stages (before ++ (id, hops) :: after)) :
    before = [] ∧ after = [] ∧ hops.toNat = min stages.length 65535 ∧
      deliveries stages = stages.length ∧ promotions stages = 0 := by
  cases h with
  | kept hpending => simp at hpending
  | inFlight contact hops' hpending hcount hdeliveries hpromotions =>
    cases before with
    | nil =>
      cases hpending
      exact ⟨rfl, rfl, hcount, hdeliveries, hpromotions⟩
    | cons => simp at hpending

namespace Delegation

variable {target : NodeId} {first : Stage} {visits : List Stage}
  {pending : List (NodeId × UInt16)}

theorem tokenAt (h : Delegation target first visits pending) :
    TokenAt (visits ++ [first]) pending := by
  induction h with
  | @begun id n deeds result hcauses =>
    cases Stage.outcome_of_promoteOnePeer (s := ⟨id, n, deeds⟩) hcauses with
    | kept hstarted _ hpromotions =>
      exact .kept hstarted ((promotions_cons _ []).trans_le hpromotions)
    | passed contact hstarted hdeliveries hpromotions =>
      exact .inFlight contact 1 hstarted rfl ((deliveries_cons _ []).trans hdeliveries)
        ((promotions_cons _ []).trans hpromotions)
  | @visited first visits before after id hops n deeds result _ hcauses ih =>
    obtain ⟨rfl, rfl, hcount, hdeliveries, hpromotions⟩ := ih.of_mem
    cases Stage.outcome_of_promoteForOther (s := ⟨id, n, deeds⟩) hcauses with
    | kept hstarted _ hkept =>
      refine .kept hstarted ?_
      rw [List.cons_append, promotions_cons]
      omega
    | passed contact hstarted hdelivered hnone =>
      refine .inFlight contact (nextHop hops) hstarted ?_ ?_ ?_
      · rw [toNat_nextHop, List.cons_append, List.length_cons]
        omega
      · rw [List.cons_append, deliveries_cons, List.length_cons]
        omega
      · rw [List.cons_append, promotions_cons]
        omega

theorem deliveries_le_one (h : Delegation target first visits pending) :
    ∀ s ∈ visits ++ [first], s.deliveries ≤ 1 := by
  induction h with
  | @begun id n deeds result hcauses =>
    intro s hs
    rw [List.mem_singleton.mp hs]
    exact (Stage.outcome_of_promoteOnePeer hcauses).deliveries_le
  | @visited first visits before after id hops n deeds result _ hcauses ih =>
    intro s hs
    rcases List.mem_cons.mp hs with rfl | hs
    · exact (Stage.outcome_of_promoteForOther hcauses).deliveries_le
    · exact ih s hs

/-- The number of deliveries is bounded by what one of the visited nodes knows, unless hops were not
counted any more. -/
theorem deliveries_le_limit (h : Delegation target first visits pending)
    (hknown : ∀ v ∈ visits, v.before.ring.superpeers.size ≤ 32767) :
    visits = [] ∧ deliveries [first] ≤ 1 ∨ ∃ v ∈ visits, deliveries (visits ++ [first]) ≤ v.limit := by
  induction h with
  | @begun id n deeds result hcauses =>
    have hfirst := (Stage.outcome_of_promoteOnePeer (s := ⟨id, n, deeds⟩) hcauses).deliveries_le
    exact .inl ⟨rfl, (deliveries_cons _ []).trans_le hfirst⟩
  | @visited first visits before after id hops n deeds result hprefix hcauses ih =>
    obtain ⟨-, -, hcount, hdeliveries, -⟩ := hprefix.tokenAt.of_mem
    let v : Stage := ⟨id, n, deeds⟩
    have htotal : deliveries (v :: visits ++ [first]) =
        v.deliveries + deliveries (visits ++ [first]) := deliveries_cons _ _
    right
    rw [htotal]
    by_cases hlimit : v.limit ≤ hops.toNat
    · -- The job is dropped, so that nothing has changed since the visit before.
      rw [Stage.deliveries_of_limit hlimit hcauses, Nat.zero_add]
      rcases ih fun v hv => hknown v (List.mem_cons_of_mem _ hv) with ⟨rfl, hone⟩ | ⟨v', hv', hle⟩
      · have htwo : 2 ≤ v.limit := by
          unfold Stage.limit
          omega
        exact ⟨v, List.mem_cons_self, hone.trans (by omega)⟩
      · exact ⟨v', List.mem_cons_of_mem _ hv', hle⟩
    · -- The count of hops is below its maximum and therefore exact.
      have hone := (Stage.outcome_of_promoteForOther (s := v) hcauses).deliveries_le
      have hsize : n.ring.superpeers.size ≤ 32767 := hknown v List.mem_cons_self
      refine ⟨v, List.mem_cons_self, ?_⟩
      have hv : v.limit = 2 * max n.ring.superpeers.size 1 := rfl
      omega

end Delegation

/-- The stages of a promotion that is passed on form a chain, however many messages are lost and
whatever the nodes are when they are visited: each stage delivers the job at most once, and at most
one delivery is not worked on yet. They promote at most one peer. Where each visited node knows at
most 32767 superpeers, the job was delivered at most twice as often as one of them knows superpeers,
or twice if that one knows none; before the first visit it was delivered at most once. -/
theorem delegation_is_one_token {target : NodeId} {first : Stage} {visits : List Stage}
    {pending : List (NodeId × UInt16)} (h : Delegation target first visits pending) :
    pending.length ≤ 1 ∧ (∀ s ∈ visits ++ [first], s.deliveries ≤ 1) ∧
      promotions (visits ++ [first]) ≤ 1 ∧
      ((∀ v ∈ visits, v.before.ring.superpeers.size ≤ 32767) →
        visits = [] ∧ deliveries [first] ≤ 1 ∨
          ∃ v ∈ visits, deliveries (visits ++ [first]) ≤
            2 * max v.before.ring.superpeers.size 1) := by
  refine ⟨?_, h.deliveries_le_one, ?_, h.deliveries_le_limit⟩
  · cases h.tokenAt with
    | kept hpending => rw [hpending]; exact Nat.zero_le 1
    | inFlight contact hops hpending => rw [hpending]; exact le_rfl
  · cases h.tokenAt with
    | kept _ hpromotions => exact hpromotions
    | inFlight _ _ _ _ _ hpromotions => rw [hpromotions]; exact Nat.zero_le 1

open Overlay (smallRing twoAttempts)

/-- Two superpeers without peers pass the job to and fro, until the one that began drops it. -/
theorem delegation_is_one_token_smallRing :
    ∃ first visits, Delegation ⟨900⟩ first visits [] ∧ visits.length = 2 ∧
      deliveries (visits ++ [first]) = 2 ∧
      ∃ v ∈ visits, deliveries (visits ++ [first]) ≤ 2 * max v.before.ring.superpeers.size 1 := by
  let zero : Node := .complete smallRing (twoAttempts ⟨0⟩ .superpeer)
  let thousand : Node := .complete smallRing (twoAttempts ⟨1000⟩ .superpeer)
  have hjob {id : NodeId} (n m : Node) {contact : NodeId} {hops : UInt16} :
      (delegateTo hops [contact] n).Causes id
        [.delegated contact hops, .started contact hops] (some ()) := by
    have hworking : (Progress.done Message.ack m).Causes contact [] (some .ack) := .done
    have hhandled : (handleMessage id (.delegatePromotePeer hops) m).Causes contact
        [.started contact hops] (some .ack) := .answered rfl () hworking
    have hrest : (Progress.done () n).Causes id [] (some ()) := .done
    have hsent : (Request.send contact (.delegatePromotePeer hops)).delivery? =
        some ⟨contact, .delegatePromotePeer hops, fun reply => reply.map fun _ => ()⟩ := rfl
    exact .handled hsent hhandled hrest
  have hfirst : (promoteOnePeer ⟨900⟩ thousand).Causes ⟨1000⟩
      [.delegated ⟨0⟩ 1, .started ⟨0⟩ 1] (some ()) := hjob thousand zero
  have hsecond : ((Background.promoteForOther 1).task zero).Causes ⟨0⟩
      [.delegated ⟨1000⟩ 2, .started ⟨1000⟩ 2] (some ()) := hjob zero thousand
  have hthird : ((Background.promoteForOther 2).task thousand).Causes ⟨1000⟩ [] (some ()) := .done
  have hone : Delegation ⟨900⟩ _ [] ([] ++ (⟨0⟩, 1) :: []) := .begun hfirst
  have htwo : Delegation ⟨900⟩ _ _ ([] ++ (⟨1000⟩, 2) :: []) := hone.visited hsecond
  have hchain := htwo.visited hthird
  have hsizes : zero.ring.superpeers.size = 1 ∧ thousand.ring.superpeers.size = 1 := by decide
  obtain ⟨-, -, -, hbound⟩ := delegation_is_one_token hchain
  obtain ⟨hnone, -⟩ | hlimit := hbound (by simp [hsizes])
  · cases hnone
  · exact ⟨_, _, hchain, rfl, rfl, hlimit⟩

end ChunkDirectory
