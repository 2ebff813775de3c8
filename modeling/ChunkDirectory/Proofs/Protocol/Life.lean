import ChunkDirectory.Proofs.Protocol.Handled
import ChunkDirectory.Proofs.Protocol.Tending

/-!
# The life of a node

A node deals with one thing after the other, each undisturbed: messages, replies to its own requests
to join, failures of other nodes, and promotions of its peers. `Node.Becomes n e n'` says that it can
come from `n` to `n'` by dealing with `e`, whatever its surroundings answer meanwhile, and
`Node.Arises` gathers the states that come about from the start as long as what the node deals with
is allowed in the state it meets.

What an event can make of a node is listed once (`Node.Dealt`, `dealt_of_becomes`).
-/

namespace ChunkDirectory

open Protocol

namespace Node

/-- What a node deals with. -/
inductive Event where
  | message (sender : NodeId) (message : Message)
  /-- What a contact replies to the node's own request to join. -/
  | reply (contact : NodeId) (reply : Message)
  | failure (failed : NodeId)
  /-- The promotion of a peer near a position. -/
  | promotion (target : NodeId)
  /-- A promotion that was passed on by another superpeer. -/
  | delegated (hops : UInt16)

/-- What a node can become by dealing with an event. -/
inductive Becomes (n : Node) : Event → Node → Prop
  | message {sender : NodeId} {message reply : Message} {n' : Node} :
      (handleMessage sender message n).Yields reply n' → Becomes n (.message sender message) n'
  | reply {attempt : JoinAttempt} {contact : NodeId} {reply : Message} {step : JoinStep} {n' : Node}
      {resume : Except NetError Message → Node → Progress JoinStep} :
      attempt.isSuperpeer = n.isSuperpeer →
      askAdmission attempt contact n =
        .wait n (.call contact (.join n.me attempt.isSuperpeer)) resume →
      (resume (.ok reply) n).Yields step n' → Becomes n (.reply contact reply) n'
  | failure {failed : NodeId} {n' : Node} :
      (Task.failureHandling failed n).Yields () n' → Becomes n (.failure failed) n'
  | promotion {target : NodeId} {n' : Node} :
      (promoteOnePeer target n).Yields () n' → Becomes n (.promotion target) n'
  | delegated {hops : UInt16} {n' : Node} :
      (delegatedPromotion hops n).Yields () n' → Becomes n (.delegated hops) n'

/-- A state a node comes to from its start by dealing with one event after the other, each allowed in
the state in which it meets the node. -/
inductive Arises (allowed : Node → Event → Prop) : Node → Prop
  | new (config : Config) : Arises allowed (Node.new config)
  | next {n n' : Node} {e : Event} :
      Arises allowed n → allowed n e → n.Becomes e n' → Arises allowed n'

/-- What dealing with an event comes to. -/
inductive Dealt (n : Node) : Event → Node → Prop
  | handled {sender : NodeId} {message : Message} {m n' : Node} :
      n.Handled sender message m → n'.core = m.core → Dealt n (.message sender message) n'
  | installed {contact : NodeId} {snapshot : Snapshot} : n.isSuperpeer = true →
      Dealt n (.reply contact (.joinAccepted snapshot)) (n.install snapshot)
  | attached {contact : NodeId} {superpeers : List NodeId} : n.isSuperpeer = false →
      Dealt n (.reply contact (.joinAcceptedPeer superpeers)) (n.attach contact superpeers)
  /-- A reply that does not admit the node in its role. -/
  | ignored {contact : NodeId} {reply : Message} : Dealt n (.reply contact reply) n
  | tended {e : Event} {n' : Node} : n.Tended (n.isSuperpeer = true) n' → Dealt n e n'

variable {n n' : Node} {e : Event} {allowed allowed' : Node → Event → Prop}

/-- A reply admits the node in its own role, or nothing comes of it. -/
theorem dealt_of_reply {attempt : JoinAttempt} {contact : NodeId} {reply : Message}
    {step : JoinStep} {resume : Except NetError Message → Node → Progress JoinStep}
    (hrole : attempt.isSuperpeer = n.isSuperpeer)
    (hask : askAdmission attempt contact n =
      .wait n (.call contact (.join n.me attempt.isSuperpeer)) resume)
    (hyields : (resume (.ok reply) n).Yields step n') : n.Dealt (.reply contact reply) n' := by
  have hignored {step' : JoinStep} (h : (Progress.done step' n).Yields step n') :
      n.Dealt (.reply contact reply) n' := by
    rw [(Progress.yields_done.mp h).2]
    exact .ignored
  obtain ⟨bootstrap, isSuperpeer, attempts⟩ := attempt
  cases hask
  cases reply with
  | joinAccepted snapshot =>
    cases isSuperpeer with
    | true =>
      obtain ⟨⟨⟩, hlast⟩ := Progress.yields_wait.mp hyields
      rw [(Progress.yields_done.mp hlast).2]
      exact .installed hrole.symm
    | false => exact hignored hyields
  | joinAcceptedPeer superpeers =>
    cases isSuperpeer with
    | true => exact hignored hyields
    | false =>
      rw [(Progress.yields_done.mp hyields).2]
      exact .attached hrole.symm
  | status status =>
    cases status with
    | notSuperpeer =>
      change ((if contact = bootstrap then _ else _ : Task JoinStep) n).Yields step n' at hyields
      split at hyields
      · exact hignored hyields
      · exact hignored hyields
    | _ => exact hignored hyields
  | _ => exact hignored hyields

theorem dealt_of_becomes (h : n.Becomes e n') : n.Dealt e n' := by
  cases h with
  | message hyields =>
    obtain ⟨m, hm, hcore⟩ := handled_of_handleMessage hyields
    exact .handled hm hcore
  | reply hrole hask hyields => exact dealt_of_reply hrole hask hyields
  | failure hyields => exact .tended ((keeps_failureHandling _).tended hyields)
  | promotion hyields => exact .tended ((keeps_promoteOnePeer _).tended hyields)
  | delegated hyields => exact .tended ((keeps_delegatedPromotion _).tended hyields)

/-- What is allowed may be allowed more generally. -/
theorem Arises.mono (h : n.Arises allowed) (hallowed : ∀ n e, allowed n e → allowed' n e) :
    n.Arises allowed' := by
  induction h with
  | new config => exact .new config
  | next _ he hbecomes ih => exact ih.next (hallowed _ _ he) hbecomes

end Node

end ChunkDirectory
