import ChunkDirectory.Proofs.Protocol.Undisturbed
import ChunkDirectory.Proofs.Ring.Tended

/-!
# What failures and promotions make of a node

A task keeps a property if the property holds wherever the task ends, provided it holds where the
task begins, the answers being what they may (`Task.Keeps`). Like tasks, such statements compose.
Routines are entered with the property and come back with it, so that runs keep it as long as the
routines they enter do (`Progress.Keeps.of_yields`).

Handling failures and promoting peers keep the role of a node, and tend its view of the ring
(`Node.Tended`): there is one statement for each task, from the searches that change nothing but the
queue of failures to the handling of all queued failures (`keeps_failureHandling`).
-/

namespace ChunkDirectory

/-- The rest of a task, undisturbed, ends only where the property holds, and enters only routines
that it may go `through`. -/
def Progress.Keeps {α : Type} (through : Routine → Prop) (P : Node → Prop) : Progress α → Prop
  | .done _ n => P n
  | .wait n _ resume => ∀ x, (resume x n).Keeps through P
  | .enter n r resume => through r ∧ P n ∧ ∀ x m, P m → (resume x m).Keeps through P

/-- A task that begins where a property holds also ends there. -/
def Task.Keeps {α : Type} (through : Routine → Prop) (P : Node → Prop) (t : Task α) : Prop :=
  ∀ n, P n → (t n).Keeps through P

variable {α β : Type} {through : Routine → Prop} {P : Node → Prop}

theorem Progress.Keeps.bind {p : Progress α} {f : α → Task β} (h : p.Keeps through P)
    (hf : ∀ a, (f a).Keeps through P) : (p.bind f).Keeps through P := by
  induction p with
  | done a n => exact hf a n h
  | wait n r resume ih => exact fun x => ih x n (h x)
  | enter n r resume ih => exact ⟨h.1, h.2.1, fun x m hm => ih x m (h.2.2 x m hm)⟩

/-- A run ends where the property holds if the routines on the way keep it. -/
theorem Progress.Keeps.of_yields {p : Progress α} {a : α} {n' : Node}
    (hroutines : ∀ r : Routine, through r → r.task.Keeps through P) (h : p.Keeps through P)
    (hyields : p.Yields a n') : P n' := by
  induction hyields with
  | done => exact h
  | wait x _ ih => exact ih (h x)
  | enter _ _ ih ih' => exact ih' (h.2.2 _ _ (ih (hroutines _ h.1 _ h.2.1)))

namespace Task.Keeps

variable {t : Task α} {f : α → Task β}

theorem pure (a : α) : (Pure.pure a : Task α).Keeps through P := fun _ h => h

theorem bind (h : t.Keeps through P) (hf : ∀ a, (f a).Keeps through P) : (t >>= f).Keeps through P :=
  fun n hn => (h n hn).bind hf

/-- Reading the node's state, of which the property holds. -/
theorem node_bind {f : Node → Task β} (hf : ∀ n, P n → (f n).Keeps through P) :
    (Task.node >>= f).Keeps through P := fun n hn => hf n hn n hn

theorem modify {change : Node → Node} (h : ∀ n, P n → P (change n)) :
    (Task.modify change).Keeps through P := fun n hn => h n hn

theorem ask (r : Request) : (Task.ask r).Keeps through P := fun _ hn _ => hn

theorem routine {r : Routine} (h : through r) : (Task.routine r).Keeps through P :=
  fun _ hn => ⟨h, hn, fun _ _ hm => hm⟩

/-- What is chosen is from the list. -/
theorem choose_bind {δ : Type} {l : List δ} {f : Option δ → Task β}
    (hf : ∀ found, (∀ a, found = some a → a ∈ l) → (f found).Keeps through P) :
    (Task.choose l >>= f).Keeps through P := by
  cases l with
  | nil => exact hf none fun a ha => by cases ha
  | cons b rest => exact fun n hn x => hf _ (fun a ha => List.mem_of_getElem? ha) n hn

theorem shuffle {δ : Type} (l : List δ) : (Task.shuffle l).Keeps through P := by
  unfold Task.shuffle
  split
  · exact .pure _
  · exact (ask _).bind fun _ => .pure _

end Task.Keeps

namespace Protocol

/-! ## Tasks that change little more than the queue of failures -/
theorem keeps_creatorAvailable (creator : NodeId) :
    (creatorAvailable creator).Keeps through P := by
  refine .node_bind fun n _ => ?_
  split
  · exact .pure _
  split
  · exact .pure _
  · exact (Task.Keeps.ask _).bind fun _ => .pure _

theorem keeps_startRecovery (failed : NodeId) (range : RangeStart) (backups : List NodeId) :
    (startRecovery failed range backups).Keeps through P := by
  induction backups with
  | nil => exact .pure _
  | cons backup rest ih =>
    refine (Task.Keeps.ask _).bind fun sent => ?_
    cases sent with
    | ok => exact .pure _
    | error e => exact ih

theorem keeps_recoverRanges (failed : NodeId) (ranges : List BackupRange) :
    (recoverRanges failed ranges).Keeps through P := by
  induction ranges with
  | nil => exact .pure _
  | cons range rest ih => exact (keeps_startRecovery failed _ _).bind fun _ => ih

section Queueing

variable (hP : ∀ n failed, P n → P (n.enqueue failed))
include hP

theorem keeps_enqueue (failed : NodeId) : (Task.enqueue failed).Keeps through P :=
  .modify fun n h => hP n failed h

theorem keeps_searchReplacement (candidate : NodeId) (superpeers : List NodeId) (tries : Nat) :
    (searchReplacement candidate superpeers tries).Keeps through P := by
  induction tries with
  | zero => exact .pure _
  | succ tries ih =>
    refine .choose_bind fun found _ => ?_
    cases found with
    | none => exact .pure _
    | some contact =>
      refine (Task.Keeps.ask _).bind fun reply => ?_
      cases reply with
      | error e => exact (keeps_enqueue hP contact).bind fun _ => ih
      | ok reply =>
        cases reply with
        | foundPeer peer =>
          cases peer with
          | none => exact ih
          | some peer =>
            show (if peer ≠ candidate then return some peer
              else searchReplacement candidate superpeers tries : Task _).Keeps through P
            split
            · exact .pure _
            · exact ih
        | _ => exact ih

theorem keeps_findReplacement (candidate : NodeId) (safe : Bool) :
    (findReplacement candidate safe).Keeps through P := by
  refine .node_bind fun n _ => .choose_bind fun found _ => ?_
  cases found with
  | some peer => exact .pure _
  | none =>
    cases safe with
    | false => exact .pure _
    | true => exact .node_bind fun _ _ => keeps_searchReplacement hP candidate _ _

theorem keeps_delegateTo (hops : UInt16) (superpeers : List NodeId) :
    (delegateTo hops superpeers).Keeps through P := by
  induction superpeers with
  | nil => exact .pure _
  | cons contact rest ih =>
    refine (Task.Keeps.ask _).bind fun sent => ?_
    cases sent with
    | ok => exact .pure _
    | error e => exact (keeps_enqueue hP contact).bind fun _ => ih

theorem keeps_delegatePromotion (hops : UInt16) :
    (delegatePromotion hops).Keeps through P :=
  .node_bind fun _ _ => (Task.Keeps.shuffle _).bind fun _ => keeps_delegateTo hP hops _

theorem keeps_sendToFirst (copies : Message) (targets : List NodeId) :
    (sendToFirst copies targets).Keeps through P := by
  induction targets with
  | nil => exact .pure _
  | cons target rest ih =>
    refine (Task.Keeps.ask _).bind fun sent => ?_
    cases sent with
    | ok => exact .pure _
    | error e => exact (keeps_enqueue hP target).bind fun _ => ih

theorem keeps_spreadDataOf (failed start : NodeId) :
    (spreadDataOf failed start).Keeps through P := by
  refine .node_bind fun n _ => ?_
  dsimp only
  split
  · exact .pure _
  · exact keeps_sendToFirst hP _ _

theorem keeps_spreadOwnBackups (failed last : NodeId) :
    (spreadOwnBackups failed last).Keeps through P := by
  refine .node_bind fun n _ => ?_
  split
  · exact keeps_sendToFirst hP _ _
  · exact .pure _

theorem keeps_replaceBootstrap
    (hbootstrap : ∀ n id, P n → P (n.mapRing (·.setBootstrap id))) (failed : NodeId) :
    (replaceBootstrap failed).Keeps through P := by
  refine .node_bind fun n _ => ?_
  split
  case isFalse => exact .pure _
  case isTrue =>
    have hset : (Task.modifyRing (·.setBootstrap ((n.ring.nextAfter failed).getD n.me))).Keeps
        through P := .modify fun k hk => hbootstrap k _ hk
    refine hset.bind fun _ => ?_
    split
    case isFalse => exact .pure _
    case isTrue =>
      refine (Task.Keeps.ask _).bind fun reply => ?_
      cases reply with
      | ok => exact .pure _
      | error e => exact keeps_enqueue hP _

theorem keeps_restoreCopies (failed : NodeId) :
    (restoreCopies failed).Keeps through P := by
  refine .node_bind fun n _ => ?_
  split
  case isFalse => exact .pure _
  case isTrue =>
    -- Whether or not the copies of the failed node are passed on, the own ones may be.
    extract_lets backups own
    have hown : (own ()).Keeps through P := by
      dsimp only [own]
      split
      · split
        · exact keeps_spreadOwnBackups hP _ _
        · exact .pure _
      · exact .pure _
    split
    · split
      · exact (keeps_spreadDataOf hP failed _).bind fun _ => hown
      · exact hown
    · exact hown

theorem keeps_notifyAll (message : Message) (targets : List NodeId) :
    (notifyAll message targets).Keeps through P := by
  induction targets with
  | nil => exact .pure _
  | cons target rest ih =>
    refine (Task.Keeps.ask _).bind fun sent => ?_
    cases sent with
    | ok => exact ih
    | error e => exact (keeps_enqueue hP target).bind fun _ => ih

end Queueing

end Protocol

/-! ## Tended nodes -/

theorem Node.ring_enqueue (n : Node) (failed : NodeId) : (n.enqueue failed).ring = n.ring :=
  congrArg (·.2.1) (n.core_enqueue failed)

/-- Who is taken over as a peer is a living creator that is not known as a superpeer. -/
theorem Node.takeOverPeers_eq (n : Node) (failed : NodeId) :
    ∃ ids, (∀ x ∈ ids, x ∈ n.livingCreators failed ∧ x ∉ n.ring.superpeers) ∧
      n.takeOverPeers failed = n.mapRing (·.insertPeers ids) := by
  have hfold : ∀ (creators : List NodeId) (r : Ring), creators.foldl
        (fun r creator => if r.superpeers.contains creator then r else r.insertPeer creator) r =
      r.insertPeers (creators.filter fun creator => !r.superpeers.contains creator) := by
    intro creators
    induction creators with
    | nil => exact fun r => rfl
    | cons creator rest ih =>
      intro r
      rw [List.foldl_cons]
      by_cases hlisted : r.superpeers.contains creator = true
      · rw [if_pos hlisted, ih, List.filter_cons_of_neg (by simp [hlisted])]
      · obtain ⟨u, hu, -⟩ := Ring.insertPeer_eq r creator
        have hsame : (r.insertPeer creator).superpeers = r.superpeers := by rw [hu]
        rw [if_neg hlisted, ih, hsame, List.filter_cons_of_pos (by simp [hlisted])]
        rfl
  refine ⟨_, fun x hx => ?_, congrArg (fun r => { n with ring := r }) (hfold _ _)⟩
  obtain ⟨hliving, hunlisted⟩ := List.mem_filter.mp hx
  exact ⟨hliving, fun hlisted => by simp [NodeSet.contains, hlisted] at hunlisted⟩

/-- The node has the role it had, and its view of the ring was tended. -/
structure Node.Tended (adds : Prop) (n₀ n : Node) : Prop where
  role : n.isSuperpeer = n₀.isSuperpeer
  ring : Ring.Tended adds n₀.ring n.ring

namespace Node.Tended

variable {adds : Prop} {n₀ n n' : Node}

theorem refl (n : Node) : n.Tended adds n := ⟨rfl, .refl⟩

/-- A change of anything but the ring view and the role. -/
theorem congr (h : n₀.Tended adds n) (hring : n'.ring = n.ring)
    (hrole : n'.isSuperpeer = n.isSuperpeer) : n₀.Tended adds n' :=
  ⟨hrole.trans h.role, hring ▸ h.ring⟩

theorem enqueue (n : Node) (failed : NodeId) (h : n₀.Tended adds n) :
    n₀.Tended adds (n.enqueue failed) :=
  h.congr (n.ring_enqueue failed) (isSuperpeer_of_core (n.core_enqueue failed))

/-- A change of the ring view. -/
theorem mapRing {f : Ring → Ring} (h : n₀.Tended adds n)
    (hf : Ring.Tended adds n₀.ring (f n.ring)) : n₀.Tended adds (n.mapRing f) := ⟨h.role, hf⟩

theorem setBootstrap (n : Node) (id : NodeId) (h : n₀.Tended adds n) :
    n₀.Tended adds (n.mapRing (·.setBootstrap id)) := h.mapRing (.bootstrap id h.ring)

/-- Only those are listed as peers that are no superpeers. -/
theorem takeOverPeers (h : n₀.Tended adds n) (hadds : adds) (failed : NodeId) :
    n₀.Tended adds (n.takeOverPeers failed) := by
  have hlist : ∀ (ids : List NodeId) (r : Ring), Ring.Tended adds n₀.ring r →
      (∀ x ∈ ids, x ∉ r.superpeers) → Ring.Tended adds n₀.ring (r.insertPeers ids) := by
    intro ids
    induction ids with
    | nil => exact fun r hr _ => hr
    | cons id rest ih =>
      intro r hr hids
      obtain ⟨u, hu, -⟩ := Ring.insertPeer_eq r id
      refine ih (r.insertPeer id) (hr.list hadds (hids id List.mem_cons_self)) fun x hx => ?_
      rw [hu]
      exact hids x (List.mem_cons_of_mem id hx)
  obtain ⟨ids, hids, htake⟩ := n.takeOverPeers_eq failed
  rw [htake]
  exact h.mapRing (hlist ids n.ring h.ring fun x hx => (hids x hx).2)

theorem loseSuperpeer (h : n₀.Tended adds n) (failed : NodeId) :
    n₀.Tended adds (n.loseSuperpeer failed) := by
  refine ⟨?_, ?_⟩
  · rw [← h.role]
    unfold Node.loseSuperpeer isSuperpeer directory?
    cases n.role with
    | superpeer d => rfl
    | peer attached =>
      dsimp only
      by_cases hown : attached = some failed
      · rw [if_pos hown]
      · rw [if_neg hown]
  · show Ring.Tended adds n₀.ring (Ring.removeSuperpeer (if _ then _ else _) failed)
    split
    · exact (h.ring.bootstrap _).lose failed
    · exact h.ring.lose failed

theorem noticeFailedPeer (h : n₀.Tended adds n) (failed : NodeId) :
    n₀.Tended adds (n.noticeFailedPeer failed) :=
  h.congr (ring_mapDirectory _) (isSuperpeer_mapDirectory _)

end Node.Tended

namespace Protocol

variable {adds : Prop} {n₀ : Node}

/-! ## Promotions -/

/-- A candidate that was a peer at some point may be given a part of the range. -/
theorem keeps_promoteWith {before : Ring} {candidate : NodeId}
    (hbefore : Ring.Tended adds n₀.ring before) (hcandidate : candidate ∈ before.peers)
    (replacement : NodeId) : (promoteWith candidate replacement).Keeps through (n₀.Tended adds) := by
  refine .node_bind fun n _ => (Task.Keeps.ask _).bind fun reply => ?_
  have hrejected (e : PromotionError) :
      (pure (.error e) : Task (Except PromotionError Unit)).Keeps through (n₀.Tended adds) := .pure _
  cases reply with
  | error e => exact (keeps_enqueue Node.Tended.enqueue candidate).bind fun _ => hrejected _
  | ok reply =>
    cases reply with
    | promotionResult accepted =>
      cases accepted with
      | false => exact hrejected _
      | true =>
        refine .node_bind fun m hm => ?_
        refine (Task.Keeps.modify fun k hk =>
          hk.mapRing (.split _ _ hbefore hcandidate hk.ring)).bind fun _ => ?_
        split
        case h_1 => exact .pure _
        case h_2 old _ =>
          refine (Task.Keeps.ask _).bind fun sent => ?_
          cases sent with
          | ok => exact .pure _
          | error e => exact (keeps_enqueue Node.Tended.enqueue old).bind fun _ => .pure _
    | _ => exact hrejected _

theorem keeps_promote {before : Ring} {candidate : NodeId}
    (hbefore : Ring.Tended adds n₀.ring before) (hcandidate : candidate ∈ before.peers)
    (safe : Bool) : (promote candidate safe).Keeps through (n₀.Tended adds) := by
  refine .node_bind fun n _ => ?_
  split
  · exact .pure _
  split
  · exact .pure _
  have hset (busy : Bool) :
      (Task.modify fun n => { n with promoting := busy }).Keeps through (n₀.Tended adds) :=
    .modify fun _ h => h.congr rfl rfl
  have hclose (result : Except PromotionError Unit) : Task.Keeps through (n₀.Tended adds) (do
      Task.modify fun n => { n with promoting := false }
      return result) := (hset false).bind fun _ => .pure _
  refine (hset true).bind fun _ => (keeps_findReplacement Node.Tended.enqueue candidate safe).bind fun found => ?_
  cases found with
  | none => exact (Task.Keeps.pure (Except.error .noReplacement)).bind hclose
  | some replacement => exact (keeps_promoteWith hbefore hcandidate replacement).bind hclose

theorem mem_of_nextCandidate {peers tried : List NodeId} {target candidate : NodeId}
    (h : nextCandidate peers tried target = some candidate) : candidate ∈ peers := by
  unfold nextCandidate at h
  dsimp only at h
  split at h
  case h_1 heq =>
    cases h
    have hmem := List.mem_of_getLast? heq
    exact (List.mem_filter.mp (List.mem_filter.mp hmem).1).1
  case h_2 => exact (List.mem_filter.mp (List.mem_of_head? h)).1

theorem keeps_tryCandidates (target : NodeId) (attempts : Nat) (tried : List NodeId) :
    (tryCandidates target attempts tried).Keeps through (n₀.Tended adds) := by
  induction attempts generalizing tried with
  | zero => exact .pure _
  | succ attempts ih =>
    refine .node_bind fun n hn => ?_
    split
    case h_1 => exact .pure _
    case h_2 candidate hcandidate =>
      refine (keeps_promote hn.ring (mem_of_nextCandidate hcandidate) true).bind fun result => ?_
      cases result with
      | ok => exact .pure _
      | error error =>
        cases error with
        | busy => exact .pure _
        | noReplacement => exact .pure _
        | rejected => exact ih _
        | peerUnavailable => exact ih _

theorem keeps_promoteOnePeer (target : NodeId) :
    (promoteOnePeer target).Keeps through (n₀.Tended adds) := by
  refine .node_bind fun n _ => (keeps_tryCandidates target _ []).bind fun series => ?_
  cases series with
  | settled => exact .pure _
  | exhausted => exact keeps_delegatePromotion Node.Tended.enqueue 1

theorem keeps_delegatedPromotion (hops : UInt16) :
    (delegatedPromotion hops).Keeps through (n₀.Tended adds) := by
  refine .node_bind fun n hn => ?_
  split
  · exact .pure _
  show (if 1 < n.ring.peers.toList.length then _ else _ : Task Unit).Keeps through _
  split
  case isFalse => exact keeps_delegatePromotion Node.Tended.enqueue _
  case isTrue =>
    refine .choose_bind fun found hfound => ?_
    cases found with
    | none => exact keeps_delegatePromotion Node.Tended.enqueue _
    | some candidate =>
      refine (keeps_promote hn.ring (hfound candidate rfl) false).bind fun result => ?_
      cases result with
      | ok => exact .pure _
      | error error =>
        cases error with
        | busy => exact .pure _
        | noReplacement => exact keeps_delegatePromotion Node.Tended.enqueue _
        | rejected => exact keeps_delegatePromotion Node.Tended.enqueue _
        | peerUnavailable => exact keeps_delegatePromotion Node.Tended.enqueue _

/-! ## Failures -/

/-- Only superpeers list peers on the way. -/
theorem keeps_superpeerFailed (hadds : adds) (failed : NodeId) :
    (superpeerFailed failed).Keeps through (n₀.Tended adds) := by
  have hreplace : (replaceBootstrap failed).Keeps through (n₀.Tended adds) :=
    keeps_replaceBootstrap Node.Tended.enqueue Node.Tended.setBootstrap failed
  refine hreplace.bind fun _ => .node_bind fun n _ => ?_
  have hlose (promotes : Bool) : Task.Keeps through (n₀.Tended adds) (do
      restoreCopies failed
      Task.modifyRing (·.removeSuperpeer failed)
      if promotes then promoteOnePeer failed
      Task.ask (.reportFailure failed true)) := by
    refine (keeps_restoreCopies Node.Tended.enqueue failed).bind fun _ => ?_
    refine (Task.Keeps.modify fun k hk => hk.mapRing (.lose failed hk.ring)).bind fun _ => ?_
    cases promotes with
    | true => exact (keeps_promoteOnePeer failed).bind fun _ => .ask _
    | false => exact .ask _
  by_cases hpredecessor : n.ring.predecessor = some failed
  · simp only [hpredecessor, if_true]
    exact (Task.Keeps.modify fun k hk => hk.takeOverPeers hadds failed).bind fun _ => hlose true
  · simp only [hpredecessor]
    exact hlose false

theorem keeps_peerFailed (failed : NodeId) : (peerFailed failed).Keeps through (n₀.Tended adds) := by
  have hforget : (Task.modifyRing (·.removePeer failed)).Keeps through (n₀.Tended adds) :=
    .modify fun k hk => hk.mapRing (.forget failed hk.ring)
  refine (Task.Keeps.ask _).bind fun available => ?_
  cases available with
  | false => exact hforget
  | true =>
    refine (keeps_creatorAvailable failed).bind fun alive => ?_
    cases alive with
    | true => exact .pure _
    | false =>
      refine (Task.Keeps.modify fun k hk => hk.noticeFailedPeer failed).bind fun _ => ?_
      refine .node_bind fun n _ => (keeps_notifyAll Node.Tended.enqueue _ _).bind fun _ => ?_
      exact (keeps_recoverRanges failed _).bind fun _ => hforget.bind fun _ => .ask _

theorem keeps_handleFailure (failed : NodeId) :
    (handleFailure failed).Keeps through (n₀.Tended (n₀.isSuperpeer = true)) := by
  refine .node_bind fun n hn => ?_
  split
  · exact .pure _
  split
  · split
    case isTrue hrole => exact keeps_superpeerFailed (hn.role ▸ hrole) failed
    case isFalse => exact .modify fun k hk => hk.loseSuperpeer failed
  split
  · exact keeps_peerFailed failed
  · exact .pure _

/-- The routines that failures are handled in. -/
def HandlesFailures : Routine → Prop
  | .drainQueue | .processFailures => True
  | _ => False

theorem keeps_drainQueue : drainQueue.Keeps HandlesFailures
    (n₀.Tended (n₀.isSuperpeer = true)) := by
  refine .node_bind fun n _ => ?_
  split
  · exact .pure _
  · refine (Task.Keeps.modify fun k hk => hk.congr rfl rfl).bind fun _ => ?_
    exact (keeps_handleFailure _).bind fun _ => .routine trivial

theorem keeps_processFailures : processFailures.Keeps HandlesFailures
    (n₀.Tended (n₀.isSuperpeer = true)) := by
  have hset (draining : Bool) : (Task.modify fun n => { n with draining }).Keeps
      HandlesFailures (n₀.Tended (n₀.isSuperpeer = true)) := .modify fun _ h => h.congr rfl rfl
  have hdrain : drainAlone.Keeps HandlesFailures (n₀.Tended (n₀.isSuperpeer = true)) :=
    (hset true).bind fun _ => (Task.Keeps.routine trivial).bind fun _ => hset false
  refine .node_bind fun n _ => ?_
  split
  · exact .pure _
  · refine hdrain.bind fun _ => .node_bind fun m _ => ?_
    split
    · exact .pure _
    · exact .routine trivial

theorem keeps_failureHandling (failed : NodeId) :
    (Task.failureHandling failed).Keeps HandlesFailures (n₀.Tended (n₀.isSuperpeer = true)) :=
  (keeps_enqueue Node.Tended.enqueue failed).bind fun _ => .routine trivial

end Protocol

/-! ## Runs -/

open Protocol

/-- Whoever handles failures or promotes a peer has its view of the ring tended. -/
theorem Task.Keeps.tended {t : Task α} {a : α} {n n' : Node}
    (h : t.Keeps HandlesFailures (n.Tended (n.isSuperpeer = true))) (hyields : (t n).Yields a n') :
    n.Tended (n.isSuperpeer = true) n' := by
  refine Progress.Keeps.of_yields (fun r hr => ?_) (h n (.refl n)) hyields
  cases r with
  | drainQueue => exact keeps_drainQueue
  | processFailures => exact keeps_processFailures
  | _ => cases hr

end ChunkDirectory
