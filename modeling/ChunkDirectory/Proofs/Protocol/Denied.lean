import ChunkDirectory.Proofs.Protocol.Candidate

/-!
# Promotions that are denied

Where no node can take over what it is offered (`Overlay.Denying`), every attempt at a promotion is
idle: the search for a candidate and for a replacement, the offer, the next attempt, and the job
that is passed on to another superpeer.
-/

namespace ChunkDirectory

open Protocol

namespace Overlay

variable {ρ : Type} {o o₁ : Overlay ρ} {id : NodeId} {n : Node}

/-- Every running node is a superpeer or cannot move its objects. -/
def Denying (o : Overlay ρ) : Prop :=
  ∀ x k, o.node? x = some k → k.isSuperpeer = true ∨ o.holds .handOverFails x = true

theorem Denying.of_alike {γ : Type} {view : Node → γ} (h : o.Denying) (hsame : Alike view o o₁)
    (hrole : ∀ {n m : Node}, view n = view m → n.isSuperpeer = m.isSuperpeer) : o₁.Denying := by
  intro x k hk
  obtain ⟨k₁, hk₁, hview⟩ := hsame.exists_node?_back hk
  rw [← hrole hview, hsame.holds_eq]
  exact h x k₁ hk₁

theorem Denying.put {m : Node} (h : o.Denying) (hdirect : o.Direct) (hn : o.node? id = some n)
    (hrole : m.isSuperpeer = true) : (o.put id m).Denying := by
  refine hdirect.forall_put hn (fun x k hk => ?_) (.inl hrole)
  rw [holds_put]
  exact h x k hk

namespace Idle

variable {α γ : Type} {view : Node → γ}

theorem shuffle (hn : o.node? id = some n) (l : List α) : Idle view o id (Task.shuffle l) := by
  unfold Task.shuffle
  split
  · exact pure hn _
  · exact (ask hn rfl).bind fun _ => pure hn _

end Idle

/-- To be asked for a promotion is to have some background work. -/
theorem idle_delegated {γ : Type} {view : Node → γ} {sender : NodeId} (hn : o.node? id = some n)
    (hops : UInt16) : Idle view o id (handleMessage sender (.delegatePromotePeer hops)) :=
  Idle.node_bind hn fun _ _ => (Idle.ask hn rfl).bind fun _ => .pure hn _

theorem idle_delegateTo (hn : o.node? id = some n) (hops : UInt16) (contacts : List NodeId) :
    Idle Node.core o id (delegateTo hops contacts) := by
  induction contacts with
  | nil => exact .pure hn ()
  | cons contact rest ih =>
    refine (Idle.send hn fun m hm => idle_delegated hm hops).bind fun sent => ?_
    cases sent with
    | ok => exact .pure hn ()
    | error e => exact (Idle.enqueue hn contact fun n => n.core_enqueue contact).bind fun _ => ih

theorem idle_delegatePromotion (hn : o.node? id = some n) (hops : UInt16) :
    Idle Node.core o id (delegatePromotion hops) :=
  Idle.node_bind hn fun _ _ => (Idle.shuffle hn _).bind fun _ => idle_delegateTo hn hops _

namespace Denying

variable (h : o.Denying) (hn : o.node? id = some n)

include h hn

theorem idle_promoteWith (candidate replacement : NodeId) :
    Idle Node.core o id (promoteWith candidate replacement) := by
  intro o₁ halike
  obtain ⟨n₁, hn₁, -⟩ := halike.exists_node? hn
  have hdenying := h.of_alike halike Node.isSuperpeer_of_core
  obtain ⟨error, o₂, hleads, hsame⟩ :=
    leads_promoteWith_denied halike.direct hn₁ (hdenying candidate) replacement
  exact ⟨_, o₂, hleads, hsame⟩

theorem idle_promote (candidate : NodeId) (safe : Bool) :
    Idle Node.core o id (promote candidate safe) := by
  refine Idle.node_bind hn fun n₁ _ => ?_
  split
  · exact .pure hn _
  split
  · exact .pure hn _
  have hset (busy : Bool) :
      Idle Node.core o id (Task.modify fun n => { n with promoting := busy }) :=
    .modify hn (fun _ => rfl) fun _ => rfl
  have hclose (result : Except PromotionError Unit) : Idle Node.core o id (do
      Task.modify fun n => { n with promoting := false }
      return result) := (hset false).bind fun _ => .pure hn _
  refine (hset true).bind fun _ => (idle_findReplacement hn candidate safe).bind fun found => ?_
  cases found with
  | none => exact (Idle.pure hn (Except.error .noReplacement)).bind hclose
  | some replacement => exact (h.idle_promoteWith hn candidate replacement).bind hclose

theorem idle_tryCandidates (target : NodeId) (attempts : Nat) (tried : List NodeId) :
    Idle Node.core o id (tryCandidates target attempts tried) := by
  induction attempts generalizing tried with
  | zero => exact .pure hn _
  | succ attempts ih =>
    refine Idle.node_bind hn fun n₁ _ => ?_
    split
    · exact .pure hn _
    · refine (h.idle_promote hn _ true).bind fun result => ?_
      cases result with
      | ok => exact .pure hn _
      | error error =>
        cases error with
        | busy => exact .pure hn _
        | noReplacement => exact .pure hn _
        | rejected => exact ih _
        | peerUnavailable => exact ih _

theorem idle_promoteOnePeer (target : NodeId) : Idle Node.core o id (promoteOnePeer target) := by
  refine Idle.node_bind hn fun n₁ _ => (h.idle_tryCandidates hn target _ []).bind fun series => ?_
  cases series with
  | settled => exact .pure hn ()
  | exhausted => exact idle_delegatePromotion hn 1

/-- What a promotion that was passed on does with the candidate it has drawn. -/
theorem idle_promoteDrawn (hops : UInt16) (candidate : Option NodeId) :
    Idle Node.core o id (do
      match candidate with
      | none => delegatePromotion (nextHop hops)
      | some candidate =>
        match ← promote candidate false with
        | .ok () => return ()
        | .error .busy => return ()
        | .error _ => delegatePromotion (nextHop hops)) := by
  cases candidate with
  | none => exact idle_delegatePromotion hn _
  | some candidate =>
    refine (h.idle_promote hn candidate false).bind fun result => ?_
    cases result with
    | ok => exact .pure hn ()
    | error error =>
      cases error with
      | busy => exact .pure hn ()
      | noReplacement => exact idle_delegatePromotion hn _
      | rejected => exact idle_delegatePromotion hn _
      | peerUnavailable => exact idle_delegatePromotion hn _

theorem idle_delegatedPromotion (hops : UInt16) :
    Idle Node.core o id (delegatedPromotion hops) := by
  refine Idle.node_bind hn fun n₁ _ => ?_
  split
  · exact .pure hn ()
  by_cases hspare : 1 < n₁.ring.peers.toList.length
  · show Idle Node.core o id (if 1 < n₁.ring.peers.toList.length then _ else _)
    rw [if_pos hspare]
    exact (Idle.choose hn _).bind (h.idle_promoteDrawn hn hops)
  · show Idle Node.core o id (if 1 < n₁.ring.peers.toList.length then _ else _)
    rw [if_neg hspare]
    exact (Idle.pure hn none).bind (h.idle_promoteDrawn hn hops)

end Denying

end Overlay

end ChunkDirectory
