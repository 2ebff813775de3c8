import ChunkDirectory.Proofs.Overlay.Complete
import ChunkDirectory.Proofs.Protocol.Record
import ChunkDirectory.Proofs.Protocol.Request
import ChunkDirectory.Proofs.Ring.Views
import ChunkDirectory.Protocol.Join

/-!
# Joining

Who searches for admission is told where to go by nodes it has no reason to trust. It asks in its own
name and in its own role, pauses, and begins anew; nothing of what it is told makes a difference to
its state before somebody admits it in that role (`Occurrence.Searches`, `Node.Sought`). Then its
state is set from that admission and nothing else, and a superpeer starts its upkeep
(`Node.Admitted`).

Each walk along redirects asks one contact more than redirects are followed, and there are as many
walks as the policy allows. So the number of requests is bounded whatever is answered, redirects in a
circle included (`Protocol.joining_bounded`).
-/

namespace ChunkDirectory

variable {n n' : Node} {log first rest : List Occurrence}

/-- A request for admission was answered. -/
def Occurrence.isJoin : Occurrence → Bool
  | .asked (.call _ (.join ..)) _ => true
  | _ => false

/-- What is noted of a node while it searches: it asks for admission as what it is, pauses, or begins
anew as the node that it was. -/
def Occurrence.Searches (n : Node) : Occurrence → Prop
  | .asked (.call _ message) _ => message = .join n.me n.isSuperpeer
  | .asked (.pause _) _ => True
  | .entered (.join _) k => k = n
  | _ => False

namespace Node

/-- The node was admitted in its own role after a search, and is what the admission made of it. -/
inductive Admitted (n : Node) (log : List Occurrence) (n' : Node) : Prop
  /-- A superpeer: its view is that of a node that has heard of nothing else, and its tables have
  what was handed over. -/
  | superpeer {search : List Occurrence} {contact : NodeId} {s : Snapshot} {d : Directory}
      (role : n.role = .superpeer d) (searches : ∀ e ∈ search, e.Searches n)
      (log : log = search ++ [.asked (.call contact (.join n.me true)) (.ok (.joinAccepted s)),
        .asked .startWorker ()])
      (state : n' = { n with
        ring := (Ring.new n.me n.ring.bootstrap n.ring.expected).adopt s
        role := .superpeer ⟨d.trees.insertAll s.trees, d.mappings.putAll s.mappings⟩ })
  /-- A peer: it is attached to the contact and knows the superpeers that the contact knows. -/
  | peer {search : List Occurrence} {contact : NodeId} {superpeers : List NodeId}
      {attached : Option NodeId} (role : n.role = .peer attached)
      (searches : ∀ e ∈ search, e.Searches n)
      (log : log = search ++
        [.asked (.call contact (.join n.me false)) (.ok (.joinAcceptedPeer superpeers))])
      (state : n' = { n with
        ring := (n.ring.replaceSuperpeers superpeers).insertSuperpeer contact
        role := .peer (some contact) })

/-- A search of at most so many requests: the node is admitted in the end, or it is the node that it
was. -/
structure Sought (n : Node) (log : List Occurrence) (n' : Node) (bound : Nat) (success : Prop) :
    Prop where
  count : log.countP (·.isJoin) ≤ bound
  admitted : success → n.Admitted log n'
  failed : ¬ success → n' = n ∧ ∀ e ∈ log, e.Searches n

theorem Admitted.prepend (h : n.Admitted rest n') (hfirst : ∀ e ∈ first, e.Searches n) :
    n.Admitted (first ++ rest) n' := by
  have hboth {search : List Occurrence} (hsearch : ∀ e ∈ search, e.Searches n) :
      ∀ e ∈ first ++ search, e.Searches n := fun e he =>
    (List.mem_append.mp he).elim (hfirst e) (hsearch e)
  cases h with
  | superpeer role searches log state =>
    exact .superpeer role (hboth searches) (by rw [log, List.append_assoc]) state
  | peer role searches log state =>
    exact .peer role (hboth searches) (by rw [log, List.append_assoc]) state

namespace Sought

variable {a b : Nat} {success success' : Prop}

/-- Without success one may go on. -/
theorem append (h : n.Sought first n a False) (h' : n.Sought rest n' b success) :
    n.Sought (first ++ rest) n' (a + b) success := by
  obtain ⟨-, hfirst⟩ := h.failed id
  refine ⟨?_, fun hs => (h'.admitted hs).prepend hfirst, fun hs => ?_⟩
  · rw [List.countP_append]
    exact Nat.add_le_add h.count h'.count
  · obtain ⟨heq, hrest⟩ := h'.failed hs
    exact ⟨heq, fun e he => (List.mem_append.mp he).elim (hfirst e) (hrest e)⟩

theorem mono (h : n.Sought log n' a success) (hle : a ≤ b) : n.Sought log n' b success :=
  ⟨Nat.le_trans h.count hle, h.admitted, h.failed⟩

theorem congr (h : n.Sought log n' a success) (hiff : success' ↔ success) :
    n.Sought log n' a success' :=
  ⟨h.count, fun hs => h.admitted (hiff.mp hs), fun hs => h.failed (mt hiff.mpr hs)⟩

/-- What ends without success. -/
theorem of_failed (hcount : log.countP (·.isJoin) ≤ a) (hlog : ∀ e ∈ log, e.Searches n)
    (hfailed : ¬ success) : n.Sought log n a success :=
  ⟨hcount, fun hs => absurd hs hfailed, fun _ => ⟨rfl, hlog⟩⟩

end Sought

end Node

namespace Protocol

open Node

variable {attempt : JoinAttempt} {contact : NodeId}

/-! ## One contact -/

/-- The view of who is admitted does not depend on what it has heard of before. -/
theorem adopt_eq_adopt_new (r : Ring) (s : Snapshot) :
    r.adopt s = (Ring.new r.me r.bootstrap r.expected).adopt s := by
  obtain ⟨t, u, hadopt, ht, hu⟩ := Ring.adopt_shape r s
  obtain ⟨t', u', hadopt', ht', hu'⟩ := Ring.adopt_shape (Ring.new r.me r.bootstrap r.expected) s
  obtain rfl : t = t' := NodeSet.eq_of_mem_iff fun x => (ht x).trans (ht' x).symm
  obtain rfl : u = u' := NodeSet.eq_of_mem_iff fun x => (hu x).trans (hu' x).symm
  rw [hadopt, hadopt']
  rfl

/-- A superpeer is what its admission makes of it. -/
theorem sought_of_install {success : Prop} {s : Snapshot} (hrole : n.isSuperpeer = true)
    (hsuccess : success) :
    n.Sought [.asked (.call contact (.join n.me true)) (.ok (.joinAccepted s)),
      .asked .startWorker ()] (n.install s) 1 success := by
  refine ⟨by simp [Occurrence.isJoin], fun _ => ?_, absurd hsuccess⟩
  cases hd : n.role with
  | peer attached => simp [Node.isSuperpeer, Node.directory?, hd] at hrole
  | superpeer d =>
    refine .superpeer hd (fun e he => absurd he List.not_mem_nil) rfl ?_
    rw [Node.me, ← adopt_eq_adopt_new]
    unfold Node.install Node.store Node.mapDirectory
    simp only [Node.mapRing, hd]

/-- A peer is what its admission makes of it. -/
theorem sought_of_attach {success : Prop} {superpeers : List NodeId}
    (hrole : n.isSuperpeer = false) (hsuccess : success) :
    n.Sought [.asked (.call contact (.join n.me false)) (.ok (.joinAcceptedPeer superpeers))]
      (n.attach contact superpeers) 1 success := by
  refine ⟨by simp [Occurrence.isJoin], fun _ => ?_, absurd hsuccess⟩
  cases hd : n.role with
  | superpeer d => simp [Node.isSuperpeer, Node.directory?, hd] at hrole
  | peer attached =>
    refine .peer hd (fun e he => absurd he List.not_mem_nil) rfl ?_
    unfold Node.attach
    simp only [Node.mapRing, hd]

theorem sought_of_askAdmission {step : JoinStep} (hrole : attempt.isSuperpeer = n.isSuperpeer)
    (h : (askAdmission attempt contact n).Follows log step n') :
    n.Sought log n' 1 (step = .ended .joined) := by
  obtain ⟨reply, rest, rfl, hrest⟩ := Task.follows_ask_bind.mp (Task.follows_node_bind.mp h)
  have hfailed {step' : JoinStep} (hne : step' ≠ .ended .joined)
      (hdone : ((pure step' : Task JoinStep) n).Follows rest step n') :
      n.Sought (.asked (.call contact (.join n.me attempt.isSuperpeer)) reply :: rest) n' 1
        (step = .ended .joined) := by
    obtain ⟨rfl, rfl, rfl⟩ := Task.follows_pure.mp hdone
    refine .of_failed (by simp [Occurrence.isJoin]) (fun e he => ?_) hne
    rw [List.mem_singleton.mp he, hrole]
    rfl
  cases reply with
  | error e => exact hfailed (by simp) hrest
  | ok reply =>
    cases reply with
    | joinRedirect next => exact hfailed (by simp) hrest
    | joinAccepted snapshot =>
      change ((if attempt.isSuperpeer then _ else _ : Task JoinStep) n).Follows _ _ _ at hrest
      cases hrole' : attempt.isSuperpeer with
      | false =>
        rw [hrole'] at hrest hfailed
        exact hfailed (by simp) hrest
      | true =>
        rw [hrole'] at hrest hrole
        obtain ⟨⟨⟩, last, rfl, hlast⟩ :=
          Task.follows_ask_bind.mp (Task.follows_modify_bind.mp hrest)
        obtain ⟨rfl, rfl, rfl⟩ := Task.follows_pure.mp hlast
        exact sought_of_install hrole.symm rfl
    | joinAcceptedPeer superpeers =>
      change ((if attempt.isSuperpeer then _ else _ : Task JoinStep) n).Follows _ _ _ at hrest
      cases hrole' : attempt.isSuperpeer with
      | true =>
        rw [hrole'] at hrest hfailed
        exact hfailed (by simp) hrest
      | false =>
        rw [hrole'] at hrest hrole
        have hlast : ((pure (.ended .joined) : Task JoinStep)
            (n.attach contact superpeers)).Follows rest step n' := hrest
        obtain ⟨rfl, rfl, rfl⟩ := Task.follows_pure.mp hlast
        exact sought_of_attach hrole.symm rfl
    | status status =>
      cases status with
      | notSuperpeer =>
        change ((if contact = attempt.bootstrap then _ else _ : Task JoinStep) n).Follows _ _ _
          at hrest
        split at hrest
        · exact hfailed (by simp) hrest
        · exact hfailed (by simp) hrest
      | _ => exact hfailed (by simp) hrest
    | _ => exact hfailed (by simp) hrest

/-! ## One walk -/

theorem sought_of_followRedirects {redirects : Nat} {outcome : JoinOutcome}
    (hrole : attempt.isSuperpeer = n.isSuperpeer)
    (h : (followRedirects attempt contact redirects n).Follows log outcome n') :
    n.Sought log n' (redirects + 1) (outcome = .joined) := by
  induction redirects generalizing contact log with
  | zero =>
    obtain ⟨step, m, first, rest, rfl, hask, hrest⟩ := Task.follows_bind.mp h
    have hfirst := sought_of_askAdmission hrole hask
    cases step with
    | ended outcome' =>
      obtain ⟨rfl, rfl, rfl⟩ := Task.follows_pure.mp hrest
      rw [List.append_nil]
      exact hfirst.congr (by simp)
    | redirected next =>
      obtain ⟨rfl, rfl, rfl⟩ := Task.follows_pure.mp hrest
      rw [List.append_nil]
      exact hfirst.congr (by simp)
  | succ redirects ih =>
    obtain ⟨step, m, first, rest, rfl, hask, hrest⟩ := Task.follows_bind.mp h
    have hfirst := sought_of_askAdmission hrole hask
    cases step with
    | ended outcome' =>
      obtain ⟨rfl, rfl, rfl⟩ := Task.follows_pure.mp hrest
      rw [List.append_nil]
      exact (hfirst.congr (by simp)).mono (by omega)
    | redirected next =>
      obtain ⟨rfl, -⟩ := hfirst.failed (by simp)
      change ((if next = contact then _ else _ : Task JoinOutcome) m).Follows _ _ _ at hrest
      split at hrest
      case isTrue =>
        obtain ⟨rfl, rfl, rfl⟩ := Task.follows_pure.mp hrest
        rw [List.append_nil]
        exact (hfirst.congr (by simp)).mono (by omega)
      case isFalse =>
        have hnext := ih hrest
        have hboth := (hfirst.congr (by simp : False ↔ _)).append hnext
        exact hboth.mono (by omega)

/-! ## All walks -/

/-- The task of one attempt enters no routine. -/
theorem keeps_followRedirects (attempt : JoinAttempt) (contact : NodeId) (redirects : Nat) :
    (followRedirects attempt contact redirects).Keeps (fun _ => False) fun _ => True := by
  have hask (contact : NodeId) :
      (askAdmission attempt contact).Keeps (fun _ => False) fun _ => True := by
    refine .node_bind fun n _ => (Task.Keeps.ask _).bind fun reply => ?_
    split
    · exact .pure _
    · split
      · refine (Task.Keeps.modify fun _ _ => trivial).bind fun _ => ?_
        exact (Task.Keeps.ask _).bind fun _ => .pure _
      · exact .pure _
    · split
      · exact .pure _
      · exact (Task.Keeps.modify fun _ _ => trivial).bind fun _ => .pure _
    · split
      · exact .pure _
      · exact .pure _
    · exact .pure _
  induction redirects generalizing contact with
  | zero =>
    refine (hask contact).bind fun step => ?_
    cases step with
    | ended outcome => exact .pure _
    | redirected next => exact .pure _
  | succ redirects ih =>
    refine (hask contact).bind fun step => ?_
    cases step with
    | ended outcome => exact .pure _
    | redirected next =>
      show (if next = contact then _ else _ : Task JoinOutcome).Keeps _ _
      split
      · exact .pure _
      · exact ih next

/-- What follows a walk: the result, or another walk. -/
def afterWalk (n : Node) (attempt : JoinAttempt) : JoinOutcome → Task (Except LookupError Unit)
  | .joined => return .ok ()
  | .refused error => return .error error
  | .failed =>
    if n.config.retry.allows (attempt.attempts + 1) then do
      let _ ← Task.ask (.pause n.config.retry.interval)
      Task.routine (.join { attempt with attempts := attempt.attempts + 1 })
    else return .error (.retriesExhausted .join (attempt.attempts + 1))

theorem attemptJoin_eq (attempt : JoinAttempt) (n : Node) :
    attemptJoin attempt n =
      (followRedirects attempt attempt.bootstrap (max n.config.expectedSuperpeers 1) >>=
        afterWalk n attempt) n := by
  show (followRedirects _ _ _ n).bind _ = (followRedirects _ _ _ n).bind _
  congr 1

section Attempts

variable {limit left : Nat} (hpolicy : n.config.retry.maxAttempts = some limit)
include hpolicy

theorem terminates_attemptJoin (hrole : attempt.isSuperpeer = n.isSuperpeer)
    (hleft : attempt.attempts + left = n.config.retry.tries) :
    (attemptJoin attempt n).Terminates := by
  induction left using Nat.strong_induction_on generalizing attempt with
  | h left ih =>
    have hallows := RetryPolicy.allows_iff hpolicy attempt.attempts.succ_pos
    rw [attemptJoin_eq]
    refine ((keeps_followRedirects attempt _ _).terminates trivial).bind fun outcome k hk => ?_
    cases outcome with
    | joined => exact .done
    | refused error => exact .done
    | failed =>
      obtain ⟨log, hlog⟩ := Progress.yields_iff.mp hk
      obtain ⟨rfl, -⟩ := (sought_of_followRedirects hrole hlog).failed (by simp)
      cases hgo : k.config.retry.allows (attempt.attempts + 1) with
      | false =>
        simp only [afterWalk, hgo]
        exact .done
      | true =>
        have hmore := hallows.mp hgo
        have hleft' : attempt.attempts + 1 + (left - 1) = k.config.retry.tries := by omega
        have hnext : (attemptJoin { attempt with attempts := attempt.attempts + 1 } k).Terminates :=
          ih (left - 1) (by omega) hrole hleft'
        simp only [afterWalk, hgo]
        exact .wait fun _ => .enter hnext fun _ _ _ => .done

theorem sought_of_attemptJoin {result : Except LookupError Unit}
    (hrole : attempt.isSuperpeer = n.isSuperpeer)
    (hleft : attempt.attempts + left = n.config.retry.tries) (hpos : 0 < left)
    (h : (attemptJoin attempt n).Follows log result n') :
    n.Sought log n' (left * (max n.config.expectedSuperpeers 1 + 1)) (result = .ok ()) := by
  induction left using Nat.strong_induction_on generalizing attempt log with
  | h left ih =>
    have hallows := RetryPolicy.allows_iff hpolicy attempt.attempts.succ_pos
    have hone : max n.config.expectedSuperpeers 1 + 1 ≤
        left * (max n.config.expectedSuperpeers 1 + 1) := Nat.le_mul_of_pos_left _ hpos
    rw [attemptJoin_eq] at h
    obtain ⟨outcome, k, first, rest, rfl, hwalk, hrest⟩ := Task.follows_bind.mp h
    have hfirst := sought_of_followRedirects hrole hwalk
    -- A result that was reached by the first walk.
    have hdone {result' : Except LookupError Unit} (hiff : result' = .ok () ↔ outcome = .joined)
        (hrest : ((pure result' : Task (Except LookupError Unit)) k).Follows rest result n') :
        n.Sought (first ++ rest) n' (left * (max n.config.expectedSuperpeers 1 + 1))
          (result = .ok ()) := by
      obtain ⟨rfl, rfl, rfl⟩ := Task.follows_pure.mp hrest
      rw [List.append_nil]
      exact (hfirst.congr hiff).mono hone
    cases outcome with
    | joined => exact hdone (by simp) hrest
    | refused error => exact hdone (by simp) hrest
    | failed =>
      obtain ⟨rfl, -⟩ := hfirst.failed (by simp)
      change ((if k.config.retry.allows (attempt.attempts + 1) then _ else _ : Task _) k).Follows
        _ _ _ at hrest
      split at hrest
      case isFalse => exact hdone (by simp) hrest
      case isTrue hgo =>
        have hmore := hallows.mp hgo
        obtain ⟨⟨⟩, rest, rfl, hjoin⟩ := Task.follows_ask_bind.mp hrest
        obtain ⟨result', m, inner, last, rfl, hnext, hlast⟩ := Progress.follows_enter.mp hjoin
        obtain ⟨rfl, rfl, rfl⟩ := Progress.follows_done.mp hlast
        rw [List.append_nil]
        let next : JoinAttempt := { attempt with attempts := attempt.attempts + 1 }
        have hrole' : next.isSuperpeer = k.isSuperpeer := hrole
        have hleft' : next.attempts + (left - 1) = k.config.retry.tries := by
          show attempt.attempts + 1 + (left - 1) = _
          omega
        have hinner := ih (left - 1) (by omega) hrole' hleft' (by omega) hnext
        have hpause : k.Sought [.asked (.pause k.config.retry.interval) (),
            .entered (.join next) k] k 0 False := by
          refine .of_failed (by simp [Occurrence.isJoin]) (fun e he => ?_) id
          rcases List.mem_pair.mp he with rfl | rfl
          · trivial
          · rfl
        have hall := (hfirst.congr (by simp)).append (hpause.append hinner)
        obtain ⟨before, rfl⟩ : ∃ before, left = before + 1 := ⟨left - 1, by omega⟩
        refine hall.mono ?_
        rw [Nat.add_sub_cancel, Nat.add_mul]
        omega

end Attempts

/-- To join comes to an end, with a bounded number of requests, whatever is answered to them. A node
that is not its own contact succeeds only if it was admitted in its own role in the end, and is then
what that admission made of it. A node that fails is what it was, and has not started its upkeep. -/
theorem joining_bounded (n : Node) (limit : Nat)
    (hpolicy : n.config.retry.maxAttempts = some limit) :
    (joinOverlay n).Terminates ∧
      ∀ log result n', (joinOverlay n).Follows log result n' →
        log.countP (·.isJoin) ≤ max limit 1 * (max n.config.expectedSuperpeers 1 + 1) ∧
        (result = .ok () → n.ring.bootstrap ≠ n.me → n.Admitted log n') ∧
        (result ≠ .ok () → n' = n ∧ .asked .startWorker () ∉ log) := by
  have htries : n.config.retry.tries = max limit 1 := by
    rw [RetryPolicy.tries, hpolicy, Option.getD_some]
  by_cases hown : n.ring.bootstrap = n.me
  · have hstart : joinOverlay n = (if n.isSuperpeer then do
        let _ ← Task.ask .startWorker
        return .ok ()
      else return .error (.bootstrapNotSuperpeer n.me) : Task (Except LookupError Unit)) n := by
      show (if n.ring.bootstrap = n.me then _ else _ : Task (Except LookupError Unit)) n = _
      rw [if_pos hown]
    rw [hstart]
    cases n.isSuperpeer with
    | true =>
      refine ⟨.wait fun _ => .done, fun log result n' h => ?_⟩
      obtain ⟨⟨⟩, rest, rfl, hrest⟩ := Task.follows_ask_bind.mp h
      obtain ⟨rfl, rfl, rfl⟩ := Task.follows_pure.mp hrest
      exact ⟨by simp [Occurrence.isJoin], fun _ hne => absurd hown hne, fun hne => absurd rfl hne⟩
    | false =>
      refine ⟨.done, fun log result n' h => ?_⟩
      obtain ⟨rfl, rfl, rfl⟩ := Task.follows_pure.mp h
      exact ⟨by simp, fun _ hne => absurd hown hne, fun _ => ⟨rfl, List.not_mem_nil⟩⟩
  · let attempt : JoinAttempt := ⟨n.ring.bootstrap, n.isSuperpeer, 0⟩
    have hstart : joinOverlay n = Task.routine (.join attempt) n := by
      show (if n.ring.bootstrap = n.me then _ else _ : Task (Except LookupError Unit)) n = _
      rw [if_neg hown]
    have hleft : attempt.attempts + max limit 1 = n.config.retry.tries := by
      rw [htries]
      exact Nat.zero_add _
    rw [hstart]
    refine ⟨.enter (terminates_attemptJoin hpolicy rfl hleft) fun _ _ _ => .done,
      fun log result n' h => ?_⟩
    obtain ⟨result', m, inner, last, rfl, hjoin, hlast⟩ := Progress.follows_enter.mp h
    obtain ⟨rfl, rfl, rfl⟩ := Progress.follows_done.mp hlast
    have hinner := sought_of_attemptJoin hpolicy rfl hleft (by omega) hjoin
    have hentered : n.Sought [.entered (.join attempt) n] n 0 False :=
      .of_failed (by simp [Occurrence.isJoin]) (fun e he => by rw [List.mem_singleton.mp he]; rfl) id
    have hall := hentered.append hinner
    rw [Nat.zero_add] at hall
    rw [List.append_nil]
    refine ⟨hall.count, fun hok _ => hall.admitted hok, fun hfailed => ?_⟩
    obtain ⟨hsame, hsearch⟩ := hall.failed hfailed
    exact ⟨hsame, fun hmem => hsearch _ hmem⟩

/-- A node that has just been started and knows its contact. -/
def newcomer (role : StartRole) : Node := .new (Overlay.twoAttempts ⟨500⟩ role)

/-- A request of the newcomer for admission. -/
def asksJoin (isSuperpeer : Bool) (contact : NodeId) (reply : Except NetError Message) :
    Occurrence :=
  .asked (.call contact (.join ⟨500⟩ isSuperpeer)) reply

/-- What a superpeer is given by the one at 1000 in a ring of five. -/
def handedOver : Snapshot where
  predecessor := some ⟨0⟩
  successor := some ⟨1000⟩
  superpeers := [⟨0⟩, ⟨2000⟩, ⟨3000⟩, ⟨4000⟩]
  peers := [⟨200⟩, ⟨300⟩]
  trees := [(LookupTree.new ⟨200⟩).register (.created (.make ⟨200⟩ 0)) (.ofList [⟨300⟩]),
    .new ⟨3500⟩]
  mappings := [(⟨5⟩, .make ⟨200⟩ 1)]

/-- The contact redirects a peer. At the first attempt the other superpeer does not answer, at the
second one it admits the peer. Had the contact redirected it to itself both times, it would have
given up and be what it was. A superpeer that is admitted as a peer at the first attempt makes a
second one, and starts with what it is given then. -/
theorem joining_bounded_redirected :
    (∃ log n', (joinOverlay (newcomer .peer)).Follows log (.ok ()) n' ∧
      log.countP (·.isJoin) = 4 ∧ (newcomer .peer).Admitted log n' ∧
      n'.role = .peer (some ⟨1000⟩)) ∧
    (∃ log n', (joinOverlay (newcomer .peer)).Follows log (.error (.retriesExhausted .join 2)) n' ∧
      log.countP (·.isJoin) = 2 ∧ n' = newcomer .peer) ∧
    ∃ log n', (joinOverlay (newcomer .superpeer)).Follows log (.ok ()) n' ∧
      log.countP (·.isJoin) = 3 ∧ (newcomer .superpeer).Admitted log n' ∧
      n'.ring.superpeers = .ofList [⟨0⟩, ⟨1000⟩, ⟨2000⟩, ⟨3000⟩, ⟨4000⟩] ∧
      n'.ring.peers = .ofList [⟨200⟩, ⟨300⟩] ∧
      n'.directory? = some ⟨TreeTable.empty.insertAll handedOver.trees,
        MappingTable.empty.putAll handedOver.mappings⟩ := by
  obtain ⟨-, hpeer⟩ := joining_bounded (newcomer .peer) 2 rfl
  obtain ⟨-, hsuperpeer⟩ := joining_bounded (newcomer .superpeer) 2 rfl
  refine ⟨?_, ?_, ?_⟩
  · have hsecond : (attemptJoin ⟨⟨0⟩, false, 1⟩ (newcomer .peer)).Follows
        [asksJoin false ⟨0⟩ (.ok (.joinRedirect ⟨1000⟩)),
          asksJoin false ⟨1000⟩ (.ok (.joinAcceptedPeer [⟨0⟩]))] (.ok ()) _ :=
      .wait _ (.wait _ .done)
    have hfirst : (attemptJoin ⟨⟨0⟩, false, 0⟩ (newcomer .peer)).Follows
        (asksJoin false ⟨0⟩ (.ok (.joinRedirect ⟨1000⟩)) ::
          asksJoin false ⟨1000⟩ (.error (.timeout ⟨1000⟩)) :: _) (.ok ()) _ :=
      .wait _ (.wait _ (.wait () (.enter hsecond .done)))
    have hrun : (joinOverlay (newcomer .peer)).Follows _ (.ok ()) _ := .enter hfirst .done
    exact ⟨_, _, hrun, rfl, (hpeer _ _ _ hrun).2.1 rfl (by decide), rfl⟩
  · have hsecond : (attemptJoin ⟨⟨0⟩, false, 1⟩ (newcomer .peer)).Follows
        [asksJoin false ⟨0⟩ (.ok (.joinRedirect ⟨0⟩))] (.error (.retriesExhausted .join 2)) _ :=
      .wait _ .done
    have hfirst : (attemptJoin ⟨⟨0⟩, false, 0⟩ (newcomer .peer)).Follows
        (asksJoin false ⟨0⟩ (.ok (.joinRedirect ⟨0⟩)) :: _)
        (.error (.retriesExhausted .join 2)) _ := .wait _ (.wait () (.enter hsecond .done))
    have hrun : (joinOverlay (newcomer .peer)).Follows _ (.error (.retriesExhausted .join 2)) _ :=
      .enter hfirst .done
    exact ⟨_, _, hrun, rfl, ((hpeer _ _ _ hrun).2.2 (by simp)).1⟩
  · have hsecond : (attemptJoin ⟨⟨0⟩, true, 1⟩ (newcomer .superpeer)).Follows
        [asksJoin true ⟨0⟩ (.ok (.joinRedirect ⟨1000⟩)),
          asksJoin true ⟨1000⟩ (.ok (.joinAccepted handedOver)), .asked .startWorker ()]
        (.ok ()) _ := .wait _ (.wait _ (.wait _ .done))
    have hfirst : (attemptJoin ⟨⟨0⟩, true, 0⟩ (newcomer .superpeer)).Follows
        (asksJoin true ⟨0⟩ (.ok (.joinAcceptedPeer [⟨1000⟩])) :: _) (.ok ()) _ :=
      .wait _ (.wait () (.enter hsecond .done))
    have hrun : (joinOverlay (newcomer .superpeer)).Follows _ (.ok ()) _ := .enter hfirst .done
    exact ⟨_, _, hrun, rfl, (hsuperpeer _ _ _ hrun).2.1 rfl (by decide), by decide, by decide,
      rfl⟩

end Protocol

end ChunkDirectory
