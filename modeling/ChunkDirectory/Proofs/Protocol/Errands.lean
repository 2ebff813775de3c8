import ChunkDirectory.Proofs.Protocol.Failing
import ChunkDirectory.Proofs.Protocol.Interleaved
import ChunkDirectory.Protocol.Client

/-!
# Errands

To handle failures other nodes are asked about nothing but the ring: whether they are there, whether
they have a peer to spare, and whether they take over a part of a range (`Request.IsErrand`). Who
looks for the owner of a position also asks who comes after them (`Request.IsSearch`). Everything
else that is sent needs no reply.

Meanwhile the node goes onward (`Node.Onward`): it is the same node with the same configuration,
failures are only added to the queue, superpeers are only dropped from the list, and nobody else
begins or ends to drain the queue. There are two exceptions. Only a candidate that has accepted its
promotion is listed, and only the draining itself takes failures off. So what is kept by steps
onward and by such promotions is kept by the handling of a failure
(`Protocol.within_handleFailure`), and draining keeps what does not depend on the queue either
(`Protocol.within_drainQueue`). There is one statement for each task.
-/

namespace ChunkDirectory

/-- What is asked for to handle failures. -/
def Request.IsErrand : Request → Prop
  | .call _ message =>
    message = .pingSuperpeer ∨ message = .searchForPeer ∨
      ∃ snapshot replacement, message = .promotePeer snapshot replacement
  | _ => True

/-- What is asked for to find an owner. -/
def Request.IsSearch (r : Request) : Prop := r.IsErrand ∨ ∃ node, r = .call node .askAboutSuccessor

namespace Node

/-- The same node with the same configuration and the same draining, with at least the same failures
queued and at most the same superpeers listed. -/
structure Onward (n n' : Node) : Prop where
  config : n'.config = n.config
  me : n'.me = n.me
  draining : n'.draining = n.draining
  failures : ∀ x ∈ n.failures, x ∈ n'.failures
  superpeers : ∀ x ∈ n'.ring.superpeers, x ∈ n.ring.superpeers

namespace Onward

variable {n n' m : Node}

theorem refl (n : Node) : n.Onward n := ⟨rfl, rfl, rfl, fun _ hx => hx, fun _ hx => hx⟩

theorem enqueue (n : Node) (failed : NodeId) : n.Onward (n.enqueue failed) := by
  unfold Node.enqueue
  split
  · exact .refl n
  · exact ⟨rfl, rfl, rfl, fun x hx => List.mem_append_left _ hx, fun _ hx => hx⟩

theorem mapRing {f : Ring → Ring} (hme : (f n.ring).me = n.ring.me)
    (hf : ∀ x ∈ (f n.ring).superpeers, x ∈ n.ring.superpeers) : n.Onward (n.mapRing f) :=
  ⟨rfl, hme, rfl, fun _ hx => hx, hf⟩

theorem mapDirectory (n : Node) (f : Directory → Directory) : n.Onward (n.mapDirectory f) := by
  unfold Node.mapDirectory
  cases n.role with
  | superpeer d => exact ⟨rfl, rfl, rfl, fun _ hx => hx, fun _ hx => hx⟩
  | peer attached => exact .refl n

theorem setBootstrap (n : Node) (id : NodeId) : n.Onward (n.mapRing (·.setBootstrap id)) :=
  .mapRing rfl fun _ hx => hx

theorem removePeer (n : Node) (id : NodeId) : n.Onward (n.mapRing (·.removePeer id)) :=
  .mapRing rfl fun _ hx => hx

theorem removeSuperpeer (n : Node) (id : NodeId) : n.Onward (n.mapRing (·.removeSuperpeer id)) :=
  .mapRing (n.ring.me_removeSuperpeer id) fun x hx =>
    (((Ring.removeSuperpeer_shape n.ring id).1 x).mp hx).1

theorem takeOverPeers (n : Node) (failed : NodeId) : n.Onward (n.takeOverPeers failed) := by
  obtain ⟨u, htake, -⟩ := n.takeOverPeers_shape failed
  rw [htake]
  exact .mapRing rfl fun _ hx => hx

theorem loseSuperpeer (n : Node) (failed : NodeId) : n.Onward (n.loseSuperpeer failed) := by
  obtain ⟨bootstrap, hring⟩ := n.ring_loseSuperpeer failed
  refine ⟨rfl, ?_, rfl, fun _ hx => hx, fun x hx => ?_⟩
  · show (n.loseSuperpeer failed).ring.me = _
    rw [hring]
    exact Ring.me_removeSuperpeer _ failed
  · rw [hring] at hx
    exact (((Ring.removeSuperpeer_shape _ failed).1 x).mp hx).1

end Onward

end Node

namespace Protocol

open ChunkDirectory.Task (Within)

variable {asks : Request → Prop} {hears : (r : Request) → r.Answer → Prop}
  {through : Routine → Prop} {P : Node → Prop}

/-! ## Searches and sends -/

section

variable (hP : ∀ n n', n.Onward n' → P n → P n')
include hP

theorem within_enqueue (failed : NodeId) : (Task.enqueue failed).Within asks hears through P :=
  .modify fun n hn => hP n _ (.enqueue n failed) hn

theorem within_lose (failed : NodeId) :
    (Task.modifyRing (·.removeSuperpeer failed)).Within asks hears through P :=
  .modify fun n hn => hP n _ (.removeSuperpeer n failed) hn

theorem within_forget (failed : NodeId) :
    (Task.modifyRing (·.removePeer failed)).Within asks hears through P :=
  .modify fun n hn => hP n _ (.removePeer n failed) hn

section

variable (hdraw : asks .draw) (hsearch : ∀ contact, asks (.call contact .searchForPeer))
include hdraw hsearch

theorem within_searchReplacement (candidate : NodeId) (superpeers : List NodeId) (tries : Nat) :
    (searchReplacement candidate superpeers tries).Within asks hears through P := by
  induction tries with
  | zero => exact .pure _
  | succ tries ih =>
    refine (Within.choose hdraw superpeers).bind fun found => ?_
    cases found with
    | none => exact .pure _
    | some contact =>
      refine (Within.ask (hsearch contact)).bind fun reply => ?_
      cases reply with
      | error e => exact (within_enqueue hP contact).bind fun _ => ih
      | ok reply =>
        cases reply with
        | foundPeer peer =>
          cases peer with
          | none => exact ih
          | some peer =>
            show (if peer ≠ candidate then _ else _ : Task _).Within _ _ _ _
            split
            · exact .pure _
            · exact ih
        | _ => exact ih

theorem within_findReplacement (candidate : NodeId) (safe : Bool) :
    (findReplacement candidate safe).Within asks hears through P := by
  refine .node_bind fun n _ => (Within.choose hdraw _).bind fun found => ?_
  cases found with
  | some peer => exact .pure _
  | none =>
    cases safe with
    | false => exact .pure _
    | true => exact .node_bind fun _ _ => within_searchReplacement hP hdraw hsearch candidate _ _

end

section

variable (hsend : ∀ target message, asks (.send target message))
include hsend

theorem within_delegateTo (hops : UInt16) (superpeers : List NodeId) :
    (delegateTo hops superpeers).Within asks hears through P := by
  induction superpeers with
  | nil => exact .pure _
  | cons contact rest ih =>
    refine (Within.ask (hsend _ _)).bind fun sent => ?_
    cases sent with
    | ok => exact .pure _
    | error e => exact (within_enqueue hP contact).bind fun _ => ih

theorem within_delegatePromotion (hshuffle : ∀ size, asks (.shuffle size)) (hops : UInt16) :
    (delegatePromotion hops).Within asks hears through P :=
  .node_bind fun _ _ => (Within.shuffle _ (hshuffle _)).bind fun _ =>
    within_delegateTo hP hsend hops _

theorem within_sendToFirst (copies : Message) (targets : List NodeId) :
    (sendToFirst copies targets).Within asks hears through P := by
  induction targets with
  | nil => exact .pure _
  | cons target rest ih =>
    refine (Within.ask (hsend _ _)).bind fun sent => ?_
    cases sent with
    | ok => exact .pure _
    | error e => exact (within_enqueue hP target).bind fun _ => ih

theorem within_spreadDataOf (failed start : NodeId) :
    (spreadDataOf failed start).Within asks hears through P := by
  refine .node_bind fun n _ => ?_
  dsimp only
  split
  · exact .pure _
  · exact within_sendToFirst hP hsend _ _

theorem within_spreadOwnBackups (failed last : NodeId) :
    (spreadOwnBackups failed last).Within asks hears through P := by
  refine .node_bind fun n _ => ?_
  split
  · exact within_sendToFirst hP hsend _ _
  · exact .pure _

theorem within_restoreCopies (failed : NodeId) :
    (restoreCopies failed).Within asks hears through P := by
  refine .node_bind fun n _ => ?_
  split
  case isFalse => exact .pure _
  case isTrue =>
    -- Whether or not the copies of the failed node are passed on, the own ones may be.
    extract_lets backups own
    have hown : (own ()).Within asks hears through P := by
      dsimp only [own]
      split
      · split
        · exact within_spreadOwnBackups hP hsend _ _
        · exact .pure _
      · exact .pure _
    split
    · split
      · exact (within_spreadDataOf hP hsend failed _).bind fun _ => hown
      · exact hown
    · exact hown

theorem within_notifyAll (message : Message) (targets : List NodeId) :
    (notifyAll message targets).Within asks hears through P := by
  induction targets with
  | nil => exact .pure _
  | cons target rest ih =>
    refine (Within.ask (hsend _ _)).bind fun sent => ?_
    cases sent with
    | ok => exact ih
    | error e => exact (within_enqueue hP target).bind fun _ => ih

end

omit hP in
theorem within_creatorAvailable (hsend : ∀ target message, asks (.send target message))
    (creator : NodeId) : (creatorAvailable creator).Within asks hears through P := by
  refine .node_bind fun n _ => ?_
  split
  · exact .pure _
  split
  · exact .pure _
  · exact (Within.ask (hsend _ _)).bind fun _ => .pure _

omit hP in
theorem within_startRecovery (hsend : ∀ target message, asks (.send target message))
    (failed : NodeId) (range : RangeStart) (backups : List NodeId) :
    (startRecovery failed range backups).Within asks hears through P := by
  induction backups with
  | nil => exact .pure _
  | cons backup rest ih =>
    refine (Within.ask (hsend _ _)).bind fun sent => ?_
    cases sent with
    | ok => exact .pure _
    | error e => exact ih

omit hP in
theorem within_recoverRanges (hsend : ∀ target message, asks (.send target message))
    (failed : NodeId) (ranges : List BackupRange) :
    (recoverRanges failed ranges).Within asks hears through P := by
  induction ranges with
  | nil => exact .pure _
  | cons range rest ih => exact (within_startRecovery hsend failed _ _).bind fun _ => ih

/-! ## Promotions -/

section

variable (hsplit : ∀ n candidate moved alone, (∃ snapshot replacement,
  hears (.call candidate (.promotePeer snapshot replacement)) (.ok (.promotionResult true))) →
  P n → P (n.mapRing (Node.splitRing · moved candidate alone)))
include hsplit

theorem within_promoteWith (candidate replacement : NodeId) :
    (promoteWith candidate replacement).Within Request.IsErrand hears through P := by
  refine .node_bind fun n _ => .ask_bind (.inr (.inr ⟨_, _, rfl⟩)) fun reply hreply => ?_
  cases reply with
  | error e => exact (within_enqueue hP candidate).bind fun _ => .pure _
  | ok reply =>
    cases reply with
    | promotionResult accepted =>
      cases accepted with
      | false => exact .pure _
      | true =>
        refine .node_bind fun m _ =>
          (Within.modify fun k hk => hsplit k candidate _ _ ⟨_, _, hreply⟩ hk).bind fun _ => ?_
        split
        case h_1 => exact .pure _
        case h_2 old _ =>
          refine (Within.ask trivial).bind fun sent => ?_
          cases sent with
          | ok => exact .pure _
          | error e => exact (within_enqueue hP old).bind fun _ => .pure _
    | _ => exact .pure _

theorem within_promote (candidate : NodeId) (safe : Bool) :
    (promote candidate safe).Within Request.IsErrand hears through P := by
  refine .node_bind fun n _ => ?_
  split
  · exact .pure _
  split
  · exact .pure _
  have hset (busy : Bool) : (Task.modify fun n => { n with promoting := busy }).Within
      Request.IsErrand hears through P :=
    .modify fun n hn => hP n _ ⟨rfl, rfl, rfl, fun _ hx => hx, fun _ hx => hx⟩ hn
  have hclose (result : Except PromotionError Unit) :
      Task.Within Request.IsErrand hears through P (do
        Task.modify fun n => { n with promoting := false }
        return result) := (hset false).bind fun _ => .pure _
  refine (hset true).bind fun _ => ?_
  refine (within_findReplacement hP trivial (fun _ => .inr (.inl rfl)) candidate
    safe).bind fun found => ?_
  cases found with
  | none => exact (Within.pure (Except.error .noReplacement)).bind hclose
  | some replacement => exact (within_promoteWith hP hsplit candidate replacement).bind hclose

theorem within_tryCandidates (target : NodeId) (attempts : Nat) (tried : List NodeId) :
    (tryCandidates target attempts tried).Within Request.IsErrand hears through P := by
  induction attempts generalizing tried with
  | zero => exact .pure _
  | succ attempts ih =>
    refine .node_bind fun n _ => ?_
    split
    case h_1 => exact .pure _
    case h_2 candidate _ =>
      refine (within_promote hP hsplit candidate true).bind fun result => ?_
      cases result with
      | ok => exact .pure _
      | error error =>
        cases error with
        | busy => exact .pure _
        | noReplacement => exact .pure _
        | rejected => exact ih _
        | peerUnavailable => exact ih _

theorem within_promoteOnePeer (target : NodeId) :
    (promoteOnePeer target).Within Request.IsErrand hears through P := by
  refine .node_bind fun n _ => (within_tryCandidates hP hsplit target _ []).bind fun series => ?_
  cases series with
  | settled => exact .pure _
  | exhausted => exact within_delegatePromotion hP (fun _ _ => trivial) (fun _ => trivial) 1

/-! ## One failure -/

omit hsplit in
theorem within_replaceBootstrap (failed : NodeId) :
    (replaceBootstrap failed).Within Request.IsErrand hears through P := by
  refine .node_bind fun n _ => ?_
  split
  case isFalse => exact .pure _
  case isTrue =>
    have hset (next : NodeId) : (Task.modifyRing (·.setBootstrap next)).Within Request.IsErrand
        hears through P := .modify fun k hk => hP k _ (.setBootstrap k next) hk
    refine (hset _).bind fun _ => ?_
    split
    case isFalse => exact .pure _
    case isTrue =>
      refine (Within.ask (.inl rfl)).bind fun reply => ?_
      cases reply with
      | ok => exact .pure _
      | error e => exact within_enqueue hP _

theorem within_superpeerFailed (failed : NodeId) :
    (superpeerFailed failed).Within Request.IsErrand hears through P := by
  refine (within_replaceBootstrap hP failed).bind fun _ => .node_bind fun n _ => ?_
  have hlose (promotes : Bool) : Task.Within Request.IsErrand hears through P (do
      restoreCopies failed
      Task.modifyRing (·.removeSuperpeer failed)
      if promotes then promoteOnePeer failed
      Task.ask (.reportFailure failed true)) := by
    refine (within_restoreCopies hP (fun _ _ => trivial) failed).bind fun _ => ?_
    refine (within_lose hP failed).bind fun _ => ?_
    cases promotes with
    | true => exact (within_promoteOnePeer hP hsplit failed).bind fun _ => .ask trivial
    | false => exact .ask trivial
  by_cases hpredecessor : n.ring.predecessor = some failed
  · simp only [hpredecessor, if_true]
    exact (Within.modify fun k hk => hP k _ (.takeOverPeers k failed) hk).bind fun _ => hlose true
  · simp only [hpredecessor]
    exact hlose false

omit hsplit in
theorem within_peerFailed (failed : NodeId) :
    (peerFailed failed).Within Request.IsErrand hears through P := by
  refine (Within.ask trivial).bind fun available => ?_
  cases available with
  | false => exact within_forget hP failed
  | true =>
    refine (within_creatorAvailable (fun _ _ => trivial) failed).bind fun alive => ?_
    cases alive with
    | true => exact .pure _
    | false =>
      refine (Within.modify fun k hk => hP k _ (.mapDirectory k _) hk).bind fun _ => ?_
      refine .node_bind fun n _ =>
        (within_notifyAll hP (fun _ _ => trivial) _ _).bind fun _ => ?_
      refine (within_recoverRanges (fun _ _ => trivial) failed _).bind fun _ => ?_
      exact (within_forget hP failed).bind fun _ => .ask trivial

theorem within_handleFailure (failed : NodeId) :
    (handleFailure failed).Within Request.IsErrand hears through P := by
  refine .node_bind fun n _ => ?_
  split
  · exact .pure _
  split
  · split
    case isTrue => exact within_superpeerFailed hP hsplit failed
    case isFalse => exact .modify fun k hk => hP k _ (.loseSuperpeer k failed) hk
  split
  · exact within_peerFailed hP failed
  · exact .pure _

/-! ## All failures -/

section

variable (hqueue : ∀ n failures draining, P n → P { n with failures, draining })
include hqueue

theorem within_drainQueue : drainQueue.Within Request.IsErrand hears HandlesFailures P := by
  refine .node_bind fun n _ => ?_
  split
  case h_1 => exact .pure _
  case h_2 failed rest _ =>
    have htake : (Task.modify fun n => { n with failures := rest }).Within
        Request.IsErrand hears HandlesFailures P := .modify fun n hn => hqueue n rest n.draining hn
    refine htake.bind fun _ => ?_
    exact (within_handleFailure hP hsplit failed).bind fun _ => .routine trivial

omit hP hsplit in
theorem within_processFailures :
    processFailures.Within Request.IsErrand hears HandlesFailures P := by
  have hset (draining : Bool) : (Task.modify fun n => { n with draining }).Within
      Request.IsErrand hears HandlesFailures P :=
    .modify fun n hn => hqueue n n.failures draining hn
  have hdrain : drainAlone.Within Request.IsErrand hears HandlesFailures P :=
    (hset true).bind fun _ => (Within.routine trivial).bind fun _ => hset false
  refine .node_bind fun n _ => ?_
  split
  · exact .pure _
  · refine hdrain.bind fun _ => .node_bind fun m _ => ?_
    split
    · exact .pure _
    · exact .routine trivial

/-- What is kept while failures are handled is kept by the routines that do so. -/
theorem within_handlesFailures {r : Routine} (hr : HandlesFailures r) :
    r.task.Within Request.IsErrand hears HandlesFailures P := by
  cases r with
  | drainQueue => exact within_drainQueue hP hsplit hqueue
  | processFailures => exact within_processFailures hqueue
  | _ => cases hr

end

end

/-! ## Owners -/

/-- Goes on past a successor that was unknown, if it is there. -/
def verifyPast (id found predecessor successor : NodeId) (rounds : Nat) (alive : Bool) :
    Task NodeId := do
  if alive then
    Task.modifyRing (·.insertSuperpeer successor)
    if Arc.contains ⟨predecessor, successor, .upperClosed⟩ id then return successor
    else verifyOwner id found successor rounds
  else return found

omit hP in
/-- Who is responsible is known to the node, or it is a listed superpeer that is verified. -/
theorem resolve_cases (id : NodeId) (verify : Bool) (n : Node) :
    (∃ found, resolve id verify n = (pure found : Task (Option NodeId)) n) ∨
      ∃ found predecessor, resolve id verify n =
        (verifyOwner id found predecessor n.ring.superpeers.size >>= fun owner =>
          pure (some owner) : Task (Option NodeId)) n := by
  unfold resolve
  rw [Task.node_bind]
  split
  · exact .inl ⟨_, rfl⟩
  cases n.ring.responsible id with
  | none => exact .inl ⟨_, rfl⟩
  | some found =>
    cases verify with
    | false => exact .inl ⟨_, rfl⟩
    | true =>
      simp only [if_true]
      cases n.ring.previousBefore found with
      | none => exact .inl ⟨_, rfl⟩
      | some predecessor => exact .inr ⟨_, _, rfl⟩

theorem within_failureHandling (failed : NodeId) :
    (Task.failureHandling failed).Within Request.IsErrand hears HandlesFailures P :=
  (within_enqueue hP failed).bind fun _ => .routine trivial

section

variable (hlist : ∀ n id, P n → P (n.mapRing (·.insertSuperpeer id)))
include hlist

theorem within_verifyOwner (id found predecessor : NodeId) (rounds : Nat) :
    (verifyOwner id found predecessor rounds).Within Request.IsSearch hears HandlesFailures P := by
  induction rounds generalizing found predecessor with
  | zero => exact .pure _
  | succ rounds ih =>
    refine (Within.ask (.inr ⟨predecessor, rfl⟩)).bind fun reply => ?_
    cases reply with
    | error e =>
      exact ((within_failureHandling hP predecessor).mono fun _ => .inl).bind fun _ => .pure _
    | ok reply =>
      cases reply with
      | successorIs successor =>
        cases successor with
        | none => exact .pure _
        | some successor =>
          by_cases hfound : successor = found
          · simp only [hfound, if_true]
            exact .pure _
          have hgo (alive : Bool) : (verifyPast id found predecessor successor rounds alive).Within
              Request.IsSearch hears HandlesFailures P := by
            cases alive with
            | false => exact .pure _
            | true =>
              refine (Within.modify fun n hn => hlist n successor hn).bind fun _ => ?_
              split
              · exact .pure _
              · exact ih found successor
          have hping : (Task.call successor .pingSuperpeer).Within Request.IsSearch hears
              HandlesFailures P := .ask (.inl (.inl rfl))
          simp only [hfound, if_false]
          refine .node_bind fun n _ => ?_
          split
          · exact (Within.pure true).bind hgo
          · exact hping.bind fun _ => (Within.pure _).bind hgo
      | _ => exact .pure _

theorem within_resolve (id : NodeId) (verify : Bool) :
    (resolve id verify).Within Request.IsSearch hears HandlesFailures P := by
  intro n hn
  rcases resolve_cases id verify n with ⟨found, hresolve⟩ | ⟨found, predecessor, hresolve⟩
  · rw [hresolve]
    exact Within.pure found n hn
  · rw [hresolve]
    exact (within_verifyOwner hP hlist id found predecessor _).bind (fun _ => .pure _) n hn

end

end

end Protocol

open Protocol

/-- Whatever happens in between, who handles failures on the way asks for nothing else, and a
property is kept that does not depend on the queue. -/
theorem Progress.Interleaves.errands {α : Type} {p : Progress α} {may : Node → Node → Prop}
    {log : List Occurrence} {a : α} {n' : Node} {asks : Request → Prop} {P : Node → Prop}
    (h : p.Interleaves may log a n')
    (hp : p.Within asks (fun _ _ => True) HandlesFailures P)
    (herrands : ∀ r, r.IsErrand → asks r) (hP : ∀ n n', n.Onward n' → P n → P n')
    (hsplit : ∀ n candidate moved alone,
      P n → P (n.mapRing (Node.splitRing · moved candidate alone)))
    (hqueue : ∀ n failures draining, P n → P { n with failures, draining })
    (hmay : ∀ n m, may n m → P n → P m) :
    P n' ∧ (∀ r x, .asked r x ∈ log → asks r) ∧ ∀ r k, .entered r k ∈ log → HandlesFailures r := by
  have hroutines (r : Routine) (hr : HandlesFailures r) :
      r.task.Within asks (fun _ _ => True) HandlesFailures P :=
    (within_handlesFailures hP (fun n candidate moved alone _ => hsplit n candidate moved alone)
      hqueue hr).mono herrands
  obtain ⟨hend, hasked, hentered⟩ := h.within hp hmay hroutines fun _ _ _ => trivial
  exact ⟨hend, hasked, fun r k hmem => (hentered r k hmem).1⟩

/-- In particular the configuration is kept. -/
theorem Progress.Interleaves.errands_config {α : Type} {p : Progress α} {may : Node → Node → Prop}
    {log : List Occurrence} {a : α} {n' : Node} {asks : Request → Prop} {c : Config}
    (h : p.Interleaves may log a n')
    (hp : p.Within asks (fun _ _ => True) HandlesFailures (·.config = c))
    (herrands : ∀ r, r.IsErrand → asks r) (hmay : ∀ n m, may n m → m.config = n.config) :
    n'.config = c ∧ (∀ r x, .asked r x ∈ log → asks r) ∧
      ∀ r k, .entered r k ∈ log → HandlesFailures r :=
  h.errands hp herrands (fun _ _ h => h.config.trans) (fun _ _ _ _ hn => hn) (fun _ _ _ hn => hn)
    fun n m hm => (hmay n m hm).trans

end ChunkDirectory
