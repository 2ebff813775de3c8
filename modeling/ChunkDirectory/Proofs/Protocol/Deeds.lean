import ChunkDirectory.Proofs.Concurrency.Promotion

/-!
# What comes of a task

A task sends messages, these are handled elsewhere, and that may lead to more messages. The deeds of
a task are what it brings about in this way, on every node, as far as passing promotions on is
concerned: jobs that are delivered, work that is started for them, and peers that stay superpeers.

A message that is lost is not delivered. A message that is delivered is handled once, by its
receiver, and the reply gets back. Otherwise anything may be answered, and while a task or the
handling of a message waits other tasks may make anything of the nodes. Work that is started in the
background is not part of what starts it; it is only taken note of that it was started.
-/

namespace ChunkDirectory

/-- What a task brings about on some node. -/
inductive Deed where
  /-- The job to promote a peer was delivered, after so many hops. -/
  | delegated (contact : NodeId) (hops : UInt16)
  /-- Work on such a job was started. -/
  | started (node : NodeId) (hops : UInt16)
  /-- A peer that was to become a superpeer has moved its objects, and stays a superpeer. -/
  | promoted (node : NodeId)
deriving DecidableEq

namespace Deed

def delegated? : Deed → Option (NodeId × UInt16)
  | .delegated contact hops => some (contact, hops)
  | _ => none

def started? : Deed → Option (NodeId × UInt16)
  | .started node hops => some (node, hops)
  | _ => none

def promoted? : Deed → Option NodeId
  | .promoted node => some node
  | _ => none

end Deed

/-- A message on its way, and what the outcome is to the one who sent it. -/
structure Delivery (r : Request) where
  target : NodeId
  message : Message
  outcome : Except NetError Message → r.Answer

namespace Delivery

/-- What it means in itself that a message is delivered. -/
def deeds {r : Request} (d : Delivery r) : List Deed :=
  match d.message with
  | .delegatePromotePeer hops => [.delegated d.target hops]
  | _ => []

end Delivery

namespace Request

/-- The message that a request sends. -/
def delivery? : (r : Request) → Option (Delivery r)
  | .call target message => some ⟨target, message, id⟩
  | .send target message => some ⟨target, message, fun reply => reply.map fun _ => ()⟩
  | _ => none

/-- What it means in itself that a node is answered a request that sends nothing. -/
def deeds (id : NodeId) : (r : Request) → r.Answer → List Deed
  | .spawn (.promoteForOther hops), _ => [.started id hops]
  | .handOver _, true => [.promoted id]
  | _, _ => []

end Request

/-- The rest of a task of the node `id` has brought deeds about and, if it has ended, has a result.
-/
inductive Progress.Causes : {α : Type} → NodeId → Progress α → List Deed → Option α → Prop
  | underWay {α : Type} {id : NodeId} {p : Progress α} : Causes id p [] none
  | done {α : Type} {id : NodeId} {a : α} {n : Node} : Causes id (.done a n) [] (some a)
  | lost {α : Type} {id : NodeId} {n n' : Node} {r : Request}
      {resume : r.Answer → Node → Progress α} {d : Delivery r} {deeds : List Deed}
      {result : Option α} (sent : r.delivery? = some d) (e : NetError) :
      Causes id (resume (d.outcome (.error e)) n') deeds result →
      Causes id (.wait n r resume) deeds result
  | handling {α : Type} {id : NodeId} {n m : Node} {r : Request}
      {resume : r.Answer → Node → Progress α} {d : Delivery r} {deeds : List Deed}
      {reply : Option Message} (sent : r.delivery? = some d) :
      Causes d.target (Protocol.handleMessage id d.message m) deeds reply →
      Causes id (.wait n r resume) (d.deeds ++ deeds) none
  | handled {α : Type} {id : NodeId} {n n' m : Node} {r : Request}
      {resume : r.Answer → Node → Progress α} {d : Delivery r} {deeds more : List Deed}
      {reply : Message} {result : Option α} (sent : r.delivery? = some d) :
      Causes d.target (Protocol.handleMessage id d.message m) deeds (some reply) →
      Causes id (resume (d.outcome (.ok reply)) n') more result →
      Causes id (.wait n r resume) (d.deeds ++ deeds ++ more) result
  | answered {α : Type} {id : NodeId} {n n' : Node} {r : Request}
      {resume : r.Answer → Node → Progress α} {deeds : List Deed} {result : Option α}
      (quiet : r.delivery? = none) (x : r.Answer) :
      Causes id (resume x n') deeds result →
      Causes id (.wait n r resume) (r.deeds id x ++ deeds) result
  | entered {α : Type} {id : NodeId} {n n' : Node} {r : Routine}
      {resume : r.Result → Node → Progress α} {deeds : List Deed} {result : Option α} :
      Causes id ((r.task n').bind resume) deeds result →
      Causes id (.enter n r resume) deeds result

/-- What has ended has no deeds left. -/
theorem Progress.deeds_of_done {α : Type} {id : NodeId} {a : α} {n : Node} {deeds : List Deed}
    {result : Option α} (h : (Progress.done a n).Causes id deeds result) : deeds = [] := by
  cases h <;> rfl

/-! ## The token

To promote a peer for someone is like to hold a token: the holder may make one peer a superpeer or
pass the job on to one other superpeer, and then it has nothing left to do.
-/

namespace Request

/-- The answer means that the token is spent. -/
def spends : (r : Request) → r.Answer → Bool
  | .call _ (.promotePeer ..), .ok (.promotionResult true) => true
  | .send _ (.delegatePromotePeer _), .ok _ => true
  | .handOver _, true => true
  | _, _ => false

/-- What a holder of the token asks for. It passes the job on with this number of hops. -/
def Permitted (hops : UInt16) : Request → Prop
  | .call _ message =>
    message = .searchForPeer ∨ (∃ snapshot replacement, message = .promotePeer snapshot replacement) ∨
      ∃ owner restorer, message = .updateAll owner restorer true
  | .send _ message =>
    (∃ node, message = .notifyAboutNewSuccessor node) ∨ message = .delegatePromotePeer hops
  | .spawn work => ∃ failed, work = .handleFailure failed
  | _ => True

end Request

namespace Progress

/-- The rest of a task that holds the token or does not. It asks for what is permitted and spends
the token at most once, if it holds it; each of its results fits whether the token is left. -/
def Carries {α : Type} (hops : UInt16) (ends : Bool → α → Prop) : Bool → Progress α → Prop
  | token, .done a _ => ends token a
  | token, .wait _ r resume =>
    r.Permitted hops ∧ ∀ x n', (r.spends x = true → token = true) ∧
      (resume x n').Carries hops ends (token && !r.spends x)
  | _, .enter .. => False

variable {α β : Type} {hops : UInt16} {token : Bool} {ends ends' : Bool → α → Prop}
  {goal : Bool → β → Prop} {p : Progress α} {f : α → Task β}

/-- A request that spends nothing whatever is answered. -/
theorem Carries.keep {n : Node} {r : Request} {resume : r.Answer → Node → Progress α}
    (hr : r.Permitted hops) (hspends : ∀ x, r.spends x = false)
    (hrest : ∀ x n', (resume x n').Carries hops ends token) :
    (Progress.wait n r resume).Carries hops ends token := by
  refine ⟨hr, fun x n' => ⟨fun hx => ?_, ?_⟩⟩
  · rw [hspends x] at hx
    cases hx
  · rw [hspends x, Bool.not_false, Bool.and_true]
    exact hrest x n'

theorem Carries.kept {n : Node} {r : Request} {resume : r.Answer → Node → Progress α}
    {x : r.Answer} (h : (Progress.wait n r resume).Carries hops ends token)
    (hx : r.spends x = false) (n' : Node) : (resume x n').Carries hops ends token := by
  have hrest := (h.2 x n').2
  rwa [hx, Bool.not_false, Bool.and_true] at hrest

/-- Who asks for what can spend the token holds it. -/
theorem Carries.held {n : Node} {r : Request} {resume : r.Answer → Node → Progress α}
    {x : r.Answer} (h : (Progress.wait n r resume).Carries hops ends token)
    (hx : r.spends x = true) : token = true := (h.2 x n).1 hx

theorem Carries.spent {n : Node} {r : Request} {resume : r.Answer → Node → Progress α}
    {x : r.Answer} (h : (Progress.wait n r resume).Carries hops ends token)
    (hx : r.spends x = true) (n' : Node) : (resume x n').Carries hops ends false := by
  have hrest := (h.2 x n').2
  rwa [hx, Bool.not_true, Bool.and_false] at hrest

theorem Carries.bind (h : p.Carries hops ends token)
    (hf : ∀ token a n, ends token a → (f a n).Carries hops goal token) :
    (p.bind f).Carries hops goal token := by
  induction p generalizing token with
  | done a n => exact hf token a n h
  | wait n r resume ih => exact ⟨h.1, fun x n' => ⟨(h.2 x n').1, ih x n' (h.2 x n').2⟩⟩
  | enter n r resume ih => exact h.elim

theorem Carries.node_bind {n : Node} {f : Node → Task α}
    (h : (f n n).Carries hops ends token) : ((Task.node >>= f) n).Carries hops ends token := h

theorem Carries.mono (h : p.Carries hops ends token)
    (hends : ∀ token a, ends token a → ends' token a) : p.Carries hops ends' token := by
  induction p generalizing token with
  | done a n => exact hends token a h
  | wait n r resume ih => exact ⟨h.1, fun x n' => ⟨(h.2 x n').1, ih x n' (h.2 x n').2⟩⟩
  | enter n r resume ih => exact h.elim

end Progress

end ChunkDirectory
