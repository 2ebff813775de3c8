import ChunkDirectory.Proofs.Concurrency.Promotion
import ChunkDirectory.Proofs.Overlay.Complete
import ChunkDirectory.Proofs.Protocol.Record

/-!
# Attempts at a promotion

A superpeer gives nothing away before the candidate has answered that it was promoted. However an
attempt fails before that, the superpeer has at most queued failures (`Node.Queued`); and if it
succeeds, its range was split at the candidate, who was asked (`Attempt`).

The candidate on the other hand replaces its whole view before it knows how its objects fare. It
keeps what it was aside, and when they cannot be handed over it is again the node it was. Neither
side can then be told from one that was never asked (`Protocol.failed_promotion_leaves_no_trace`).
-/

namespace ChunkDirectory

variable {log : List Occurrence} {n n' m : Node} {candidate replacement : NodeId}

/-! ## Queued failures -/

/-- Failures may have been queued, and nothing else has changed. -/
def Node.Queued (n n' : Node) : Prop := ∃ failed, n' = { n with failures := n.failures ++ failed }

namespace Node.Queued

theorem refl (n : Node) : n.Queued n := ⟨[], by rw [List.append_nil]⟩

theorem trans (h : n.Queued m) (h' : m.Queued n') : n.Queued n' := by
  obtain ⟨failed, rfl⟩ := h
  obtain ⟨more, rfl⟩ := h'
  exact ⟨failed ++ more, by rw [List.append_assoc]⟩

theorem enqueue (h : n.Queued m) (failed : NodeId) : n.Queued (m.enqueue failed) := by
  refine h.trans ?_
  unfold Node.enqueue
  split
  · exact .refl m
  · exact ⟨[failed], rfl⟩

theorem ring (h : n.Queued n') : n'.ring = n.ring := by
  obtain ⟨failed, rfl⟩ := h
  rfl

theorem role (h : n.Queued n') : n'.role = n.role := by
  obtain ⟨failed, rfl⟩ := h
  rfl

/-- The mark of a promotion can be set before and taken off after. -/
theorem marked (h : Node.Queued { n with promoting := true } n') (hfree : n.promoting = false) :
    n.Queued { n' with promoting := false } := by
  obtain ⟨failed, rfl⟩ := h
  exact ⟨failed, by rw [← hfree]⟩

end Node.Queued

/-- A task that only queues failures has only queued failures. -/
theorem Task.Keeps.queued {α : Type} {t : Task α} {a : α}
    (h : t.Keeps (fun _ => False) n.Queued) (hfollows : (t n).Follows log a n') : n.Queued n' :=
  h.of_follows (.refl n) hfollows

namespace Protocol

/-! ## The acting side -/

/-- The candidate was asked to become a superpeer, and answered that it did. -/
def PromotedIn (log : List Occurrence) (candidate : NodeId) : Prop :=
  ∃ snapshot replacement, .asked (.call candidate (.promotePeer snapshot replacement))
    (.ok (.promotionResult true)) ∈ log

theorem PromotedIn.mono {more : List Occurrence} (h : PromotedIn log candidate)
    (hsub : ∀ x ∈ log, x ∈ more) : PromotedIn more candidate := by
  obtain ⟨snapshot, replacement, hmem⟩ := h
  exact ⟨snapshot, replacement, hsub _ hmem⟩

/-- How an attempt to promote the candidate comes out. -/
inductive Attempt (candidate : NodeId) (n n' : Node) (log : List Occurrence) :
    Except PromotionError Unit → Prop
  | failed {error : PromotionError} (queued : n.Queued n') : Attempt candidate n n' log (.error error)
  | made {moved : List NodeId} {alone : Bool} (asked : PromotedIn log candidate)
      (ring : n'.ring = Node.splitRing n.ring moved candidate alone) (role : n'.role = n.role) :
      Attempt candidate n n' log (.ok ())

theorem keeps_queued_tell (candidate : NodeId) (old : Option NodeId) :
    (tell candidate old).Keeps (fun _ => False) n.Queued := by
  cases old with
  | none => exact .pure _
  | some old =>
    refine (Task.Keeps.ask _).bind fun sent => ?_
    cases sent with
    | ok => exact .pure _
    | error e => exact (Task.Keeps.modify fun k hk => hk.enqueue old).bind fun _ => .pure _

theorem ok_of_tell {old : Option NodeId} {result : Except PromotionError Unit}
    (h : (tell candidate old n).Follows log result n') : result = .ok () := by
  cases old with
  | none => exact (Task.follows_pure.mp h).2.1
  | some old =>
    obtain ⟨sent, rest, -, hrest⟩ := Task.follows_ask_bind.mp h
    cases sent with
    | ok => exact (Task.follows_pure.mp hrest).2.1
    | error e => exact (Task.follows_pure.mp hrest).2.1

theorem attempt_of_promoteWith {result : Except PromotionError Unit}
    (h : (promoteWith candidate replacement n).Follows log result n') :
    Attempt candidate n n' log result := by
  obtain ⟨reply, rest, rfl, hrest⟩ := Task.follows_ask_bind.mp h
  have hrejected {log : List Occurrence}
      (hfollows : ((pure (.error .rejected) : Task _) n).Follows rest result n') :
      Attempt candidate n n' log result := by
    obtain ⟨-, rfl, rfl⟩ := Task.follows_pure.mp hfollows
    exact .failed (.refl n')
  cases reply with
  | error e =>
    obtain ⟨-, rfl, rfl⟩ := Task.follows_pure.mp hrest
    exact .failed (Node.Queued.refl n |>.enqueue candidate)
  | ok reply =>
    cases reply with
    | promotionResult accepted =>
      cases accepted with
      | false => exact hrejected hrest
      | true =>
        change (tell candidate _ (n.mapRing fun r => Node.splitRing r _ candidate _)).Follows rest
          result n' at hrest
        obtain rfl := ok_of_tell hrest
        have hqueued := (keeps_queued_tell candidate _).queued hrest
        exact .made ⟨_, _, List.mem_cons_self⟩ hqueued.ring hqueued.role
    | _ => exact hrejected hrest

theorem attempt_of_promote {safe : Bool} {result : Except PromotionError Unit}
    (h : (promote candidate safe n).Follows log result n') : Attempt candidate n n' log result := by
  change ((if !n.isSuperpeer then _ else if n.promoting then _ else _ : Task _) n).Follows _ _ _ at h
  split at h
  case isTrue =>
    obtain ⟨-, rfl, rfl⟩ := Task.follows_pure.mp h
    exact .failed (.refl n')
  split at h
  case isTrue =>
    obtain ⟨-, rfl, rfl⟩ := Task.follows_pure.mp h
    exact .failed (.refl n')
  case isFalse hbusy =>
    have hfree : n.promoting = false := Bool.eq_false_of_not_eq_true hbusy
    obtain ⟨found, m, first, rest, rfl, hsearch, hrest⟩ :=
      Task.follows_bind.mp (Task.follows_modify_bind.mp h)
    have hsearched := (keeps_findReplacement (fun _ x hk => hk.enqueue x) candidate safe).queued
      hsearch
    cases found with
    | none =>
      obtain ⟨-, rfl, rfl⟩ := Progress.follows_done.mp hrest
      exact .failed (hsearched.marked hfree)
    | some replacement =>
      obtain ⟨result', m', asked, rest, rfl, hoffer, hlast⟩ := Task.follows_bind.mp hrest
      obtain ⟨rfl, rfl, rfl⟩ := Progress.follows_done.mp hlast
      cases attempt_of_promoteWith hoffer with
      | failed hqueued => exact .failed ((hsearched.trans hqueued).marked hfree)
      | made hasked hring hrole =>
        have hsplit := hring.trans (congrArg (Node.splitRing · _ candidate _) hsearched.ring)
        exact .made (hasked.mono fun x hx => by simp [hx]) hsplit (hrole.trans hsearched.role)

/-! ## The candidate's side -/

/-- A peer that is asked to become a superpeer denies it exactly if its objects cannot be moved. It
is then the node it was, and starts nothing. -/
theorem denied_of_handlePromotePeer {snapshot : Snapshot} {reply : Message}
    (hpeer : n.isSuperpeer = false)
    (h : (handlePromotePeer snapshot replacement n).Follows log reply n') :
    (reply = .promotionResult false ↔ log = [.asked (.handOver replacement) false]) ∧
      (reply = .promotionResult false → n' = n) := by
  rw [handlePromotePeer_eq snapshot replacement hpeer] at h
  obtain ⟨moved, rest, rfl, hsettle⟩ := Progress.follows_wait.mp h
  cases moved with
  | false =>
    obtain ⟨rfl, rfl, rfl⟩ := Progress.follows_done.mp hsettle
    exact ⟨⟨fun _ => rfl, fun _ => rfl⟩, fun _ => rfl⟩
  | true =>
    obtain ⟨status, m, _, _, -, -, hrest⟩ := Task.follows_bind.mp hsettle
    obtain ⟨⟨⟩, last, -, hlast⟩ := Task.follows_ask_bind.mp hrest
    obtain ⟨-, rfl, -⟩ := Task.follows_pure.mp hlast
    have hne : Message.promotionResult true ≠ .promotionResult false := by simp
    exact ⟨⟨fun heq => absurd heq hne, fun heq => by simp at heq⟩, fun heq => absurd heq hne⟩

/-- A superpeer whose attempt at a promotion failed has at most queued failures. A peer that denies
its promotion, because its objects cannot be moved, has the role and the view that it had, and its
upkeep was not started. -/
theorem failed_promotion_leaves_no_trace :
    (∀ n n' candidate safe error log,
      (promote candidate safe n).Follows log (.error error) n' →
        ∃ failed, n' = { n with failures := n.failures ++ failed }) ∧
    ∀ n n' snapshot replacement reply log, n.isSuperpeer = false →
      (handlePromotePeer snapshot replacement n).Follows log reply n' →
      (reply = .promotionResult false ↔ log = [.asked (.handOver replacement) false]) ∧
        (reply = .promotionResult false →
          n' = n ∧ n'.directory? = none ∧ .asked .startWorker () ∉ log) := by
  constructor
  · intro n n' candidate safe error log h
    cases attempt_of_promote h with
    | failed hqueued => exact hqueued
  · intro n n' snapshot replacement reply log hpeer h
    obtain ⟨hanswer, hsame⟩ := denied_of_handlePromotePeer hpeer h
    refine ⟨hanswer, fun hreply => ?_⟩
    obtain rfl := hsame hreply
    obtain rfl := hanswer.mp hreply
    exact ⟨rfl, by simpa [Node.isSuperpeer] using hpeer, by simp⟩

/-- A superpeer of the small ring that has one peer. -/
def ownerOfOne : Node :=
  (Node.complete Overlay.smallRing (Overlay.twoAttempts ⟨1000⟩ .superpeer)).mapRing
    (·.insertPeer ⟨500⟩)

/-- Its peer. -/
def onlyPeer : Node := .complete Overlay.smallRing (Overlay.twoAttempts ⟨500⟩ .peer)

/-- The superpeer looks in vain for another place for the objects of its peer: the other superpeer
does not answer at first, and then has no peer to spare. The peer could not move them either. -/
theorem failed_promotion_leaves_no_trace_ofOne :
    (∃ n', (promote ⟨500⟩ true ownerOfOne).Follows
        [.asked .draw (0 : Nat), .asked (.call ⟨0⟩ .searchForPeer) (.error (.timeout ⟨0⟩)),
          .asked .draw (0 : Nat), .asked (.call ⟨0⟩ .searchForPeer) (.ok (.foundPeer none))]
        (.error .noReplacement) n' ∧
      n'.failures = [⟨0⟩] ∧ ∃ failed, n' = { ownerOfOne with failures := failed }) ∧
    ∃ n', onlyPeer.isSuperpeer = false ∧
      (handlePromotePeer (offer ⟨500⟩ ownerOfOne) ⟨600⟩ onlyPeer).Follows
        [.asked (.handOver ⟨600⟩) false] (.promotionResult false) n' ∧ n' = onlyPeer := by
  have hfailed : (promote ⟨500⟩ true ownerOfOne).Follows
      [.asked .draw (0 : Nat), .asked (.call ⟨0⟩ .searchForPeer) (.error (.timeout ⟨0⟩)),
        .asked .draw (0 : Nat), .asked (.call ⟨0⟩ .searchForPeer) (.ok (.foundPeer none))]
      (.error .noReplacement) _ := .wait _ (.wait _ (.wait _ (.wait _ .done)))
  have hpeer : onlyPeer.isSuperpeer = false := by decide
  have hdenied : (handlePromotePeer (offer ⟨500⟩ ownerOfOne) ⟨600⟩ onlyPeer).Follows
      [.asked (.handOver ⟨600⟩) false] (.promotionResult false) onlyPeer := by
    rw [handlePromotePeer_eq _ _ hpeer]
    exact Progress.follows_wait.mpr ⟨false, [], rfl, .done⟩
  obtain ⟨failed, hn'⟩ := failed_promotion_leaves_no_trace.1 _ _ _ _ _ _ hfailed
  have hsame := (failed_promotion_leaves_no_trace.2 _ _ _ _ _ _ hpeer hdenied).2 rfl
  exact ⟨⟨_, hfailed, rfl, _, hn'⟩, _, hpeer, hdenied, hsame.1⟩

end Protocol

end ChunkDirectory
