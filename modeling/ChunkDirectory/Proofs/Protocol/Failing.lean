import ChunkDirectory.Proofs.Protocol.Attempt
import ChunkDirectory.Proofs.Ring.Burden

/-!
# What is done about a failure

When a superpeer fails, others are taken over as peers at most, before it is dropped; only after that
somebody may be promoted in its place (`Protocol.exists_dropped`), and if so, then one of the peers
that are listed at that time (`Protocol.Filled`). When a peer fails it is forgotten, unless it
answers. So the handling of a failure leaves the node as it is, because the failed node is not listed
or turns out not to have failed, or it repairs the view of the ring
(`Protocol.repaired_of_handleFailure`).
-/

namespace ChunkDirectory

open Protocol

variable {n n' m : Node} {log last : List Occurrence} {failed x : NodeId}

/-! ## Peers that are taken over -/

/-- Who was a peer stays one, and the others are those that the view adopts. -/
theorem Node.takeOverPeers_shape (n : Node) (failed : NodeId) :
    ∃ u, n.takeOverPeers failed = n.mapRing ({ · with peers := u }) ∧
      (∀ x ∈ n.ring.peers, x ∈ u) ∧ ∀ x ∈ u, x ∈ n.ring.peers ∨ n.ring.Adopts failed x := by
  obtain ⟨ids, hids, htake⟩ := n.takeOverPeers_eq failed
  obtain ⟨u, hu, hmem⟩ := Ring.insertPeers_eq ids n.ring
  refine ⟨u, htake.trans (congrArg (fun r => { n with ring := r }) hu),
    fun x hx => (hmem x).mpr (.inl hx), fun x hx => ?_⟩
  refine ((hmem x).mp hx).imp_right fun hnew => ?_
  obtain ⟨hliving, hunlisted⟩ := hids x hnew.1
  refine ⟨hnew.2, hunlisted, ?_⟩
  unfold livingCreators at hliving
  split at hliving
  · cases hliving
  · exact (List.mem_filter.mp (List.mem_filter.mp hliving).1).2

/-- A peer that loses a superpeer drops it, and may choose another one for its contact. -/
theorem Node.ring_loseSuperpeer (n : Node) (failed : NodeId) :
    ∃ bootstrap, (n.loseSuperpeer failed).ring =
      { n.ring with bootstrap }.removeSuperpeer failed := by
  show ∃ bootstrap, Ring.removeSuperpeer (if n.ring.bootstrap = failed then _ else _) failed = _
  split
  · exact ⟨_, rfl⟩
  · exact ⟨n.ring.bootstrap, rfl⟩

namespace Protocol

/-! ## Failures of superpeers -/

/-- What a superpeer does about another one that failed: first what leaves it listed, then it is
dropped, and somebody may be promoted in its place. -/
theorem exists_dropped {P : Node → Prop} (hqueue : ∀ k id, P k → P (k.enqueue id))
    (hbootstrap : ∀ k id, P k → P (k.mapRing (·.setBootstrap id)))
    (hpeers : ∀ k, P k → P (k.takeOverPeers failed)) (hn : P n)
    (h : (superpeerFailed failed n).Follows log () n') :
    ∃ k m last, (∀ x ∈ last, x ∈ log) ∧ P k ∧ P m ∧ ((do
      if k.ring.predecessor = some failed then promoteOnePeer failed
      Task.ask (.reportFailure failed true) : Task Unit)
        (m.mapRing (·.removeSuperpeer failed))).Follows last () n' := by
  obtain ⟨⟨⟩, k, first, rest, rfl, hreplace, hrest⟩ := Task.follows_bind.mp h
  have hk : P k := (keeps_replaceBootstrap hqueue hbootstrap failed).of_follows hn hreplace
  -- Whether or not peers were taken over, the rest is the same.
  have hlose (k' : Node) (hk' : P k') (hrest : ((do
      restoreCopies failed
      Task.modifyRing (·.removeSuperpeer failed)
      if k.ring.predecessor = some failed then promoteOnePeer failed
      Task.ask (.reportFailure failed true) : Task Unit) k').Follows rest () n') :
      ∃ k m last, (∀ x ∈ last, x ∈ first ++ rest) ∧ P k ∧ P m ∧ ((do
        if k.ring.predecessor = some failed then promoteOnePeer failed
        Task.ask (.reportFailure failed true) : Task Unit)
          (m.mapRing (·.removeSuperpeer failed))).Follows last () n' := by
    obtain ⟨⟨⟩, m, copies, last, rfl, hrestore, hlast⟩ := Task.follows_bind.mp hrest
    have hm := (keeps_restoreCopies hqueue failed).of_follows hk' hrestore
    exact ⟨k, m, last, fun x hx => by simp [hx], hk, hm, hlast⟩
  change ((if k.ring.predecessor = some failed then _ else _ : Task Unit) k).Follows _ _ _ at hrest
  by_cases hpredecessor : k.ring.predecessor = some failed
  · rw [if_pos hpredecessor] at hrest
    exact hlose _ (hpeers k hk) hrest
  · rw [if_neg hpredecessor] at hrest
    exact hlose _ hk hrest

/-- A superpeer handles the failure of a listed superpeer as such. -/
theorem handleFailure_of_listed (hrole : n.isSuperpeer = true) (hne : failed ≠ n.me)
    (hlisted : failed ∈ n.ring.superpeers) :
    handleFailure failed n = superpeerFailed failed n := by
  have hcontains : n.ring.superpeers.contains failed = true := decide_eq_true hlisted
  show (if failed = n.me then _ else if n.ring.superpeers.contains failed then
    (if n.isSuperpeer then _ else _) else _ : Task Unit) n = _
  rw [if_neg hne, if_pos hcontains, if_pos hrole]

/-! ## Promotions in the place of another -/

/-- The view of the ring is as it was, or split at a peer that was promoted. -/
inductive Filled (n n' : Node) (log : List Occurrence) : Prop
  | vacant (ring : n'.ring = n.ring)
  | taken {new : NodeId} {moved : List NodeId} {alone : Bool} (peer : new ∈ n.ring.peers)
      (promoted : PromotedIn log new) (ring : n'.ring = Node.splitRing n.ring moved new alone)

theorem Filled.congr (h : Filled m n' last) (hring : m.ring = n.ring)
    (hsub : ∀ x ∈ last, x ∈ log) : Filled n n' log := by
  cases h with
  | vacant ring => exact .vacant (ring.trans hring)
  | taken peer promoted ring => exact .taken (hring ▸ peer) (promoted.mono hsub) (hring ▸ ring)

theorem filled_of_tryCandidates {target : NodeId} {attempts : Nat} {tried : List NodeId}
    {series : PromotionSeries}
    (h : (tryCandidates target attempts tried n).Follows log series n') : Filled n n' log := by
  induction attempts generalizing n tried log with
  | zero => exact .vacant (by rw [(Task.follows_pure.mp h).2.2])
  | succ attempts ih =>
    have hnext := Task.follows_node_bind.mp h
    cases hcandidate : nextCandidate n.ring.peers.toList tried target with
    | none =>
      rw [hcandidate] at hnext
      exact .vacant (by rw [(Task.follows_pure.mp hnext).2.2])
    | some candidate =>
      rw [hcandidate] at hnext
      obtain ⟨result, m, first, rest, rfl, hpromote, hrest⟩ := Task.follows_bind.mp hnext
      cases attempt_of_promote hpromote with
      | made hasked hring _ =>
        rw [(Task.follows_pure.mp hrest).2.2]
        exact .taken (mem_of_nextCandidate hcandidate) (hasked.mono fun x hx => by simp [hx]) hring
      | @failed error hqueued =>
        have hdone {series' : PromotionSeries}
            (h : ((pure series' : Task PromotionSeries) m).Follows rest series n') :
            Filled n n' (first ++ rest) :=
          .vacant (by rw [(Task.follows_pure.mp h).2.2, hqueued.ring])
        cases error with
        | busy => exact hdone hrest
        | noReplacement => exact hdone hrest
        | rejected => exact (ih hrest).congr hqueued.ring fun x hx => by simp [hx]
        | peerUnavailable => exact (ih hrest).congr hqueued.ring fun x hx => by simp [hx]

theorem filled_of_promoteOnePeer {target : NodeId}
    (h : (promoteOnePeer target n).Follows log () n') : Filled n n' log := by
  obtain ⟨series, m, first, rest, rfl, htry, hrest⟩ :=
    Task.follows_bind.mp (Task.follows_node_bind.mp h)
  have hkept : n'.ring = m.ring := by
    cases series with
    | settled => rw [(Task.follows_pure.mp hrest).2.2]
    | exhausted =>
      refine (keeps_delegatePromotion (P := fun k => k.ring = m.ring) ?_ 1).of_follows rfl hrest
      exact fun k id hk => (k.ring_enqueue id).trans hk
  cases filled_of_tryCandidates htry with
  | vacant ring => exact .vacant (hkept.trans ring)
  | taken peer promoted ring =>
    exact .taken peer (promoted.mono fun x hx => by simp [hx]) (hkept.trans ring)

/-! ## Repairs -/

/-- A superpeer repairs its view when another one has failed. -/
theorem repaired_of_superpeerFailed (hlisted : failed ∈ n.ring.superpeers) (hne : failed ≠ n.me)
    (h : (superpeerFailed failed n).Follows log () n') :
    n.ring.Repaired (PromotedIn log) failed n'.ring := by
  obtain ⟨k, m, last, hsub, ⟨_, _, hk, -⟩, ⟨bootstrap, u, hm, hu⟩, hlast⟩ := exists_dropped
    (P := fun k => ∃ bootstrap u, k.ring = { n.ring with bootstrap, peers := u } ∧
      ∀ y ∈ u, y ∈ n.ring.peers ∨ n.ring.Adopts failed y)
    (fun k id hk => by rwa [k.ring_enqueue])
    (fun k id hk => by
      obtain ⟨bootstrap, u, hk, hu⟩ := hk
      exact ⟨id, u, by rw [Node.mapRing, hk]; rfl, hu⟩)
    (fun k hk => by
      obtain ⟨bootstrap, u, hk, hu⟩ := hk
      obtain ⟨v, htake, -, hv⟩ := k.takeOverPeers_shape failed
      rw [hk] at hv
      refine ⟨bootstrap, v, by rw [htake, Node.mapRing, hk], fun y hy => ?_⟩
      exact (hv y hy).elim (hu y) fun hadopts =>
        .inr ⟨hadopts.admits, hadopts.unlisted, hadopts.between⟩)
    ⟨n.ring.bootstrap, n.ring.peers, rfl, fun y hy => .inl hy⟩ h
  have hdropped : (m.mapRing (·.removeSuperpeer failed)).ring =
      { n.ring with bootstrap, peers := u }.removeSuperpeer failed :=
    congrArg (·.removeSuperpeer failed) hm
  have hpredecessor : k.ring.predecessor = n.ring.predecessor := by rw [hk]
  rw [hpredecessor] at hlast
  by_cases hbefore : n.ring.predecessor = some failed
  case neg =>
    rw [if_neg hbefore] at hlast
    obtain ⟨x, rest, -, hdone⟩ := Progress.follows_wait.mp hlast
    rw [(Progress.follows_done.mp hdone).2.2, hdropped]
    exact .lost hlisted
  case pos =>
    rw [if_pos hbefore] at hlast
    obtain ⟨⟨⟩, m', first, rest, rfl, hpromote, hreport⟩ := Task.follows_bind.mp hlast
    obtain ⟨x, rest', -, hdone⟩ := Progress.follows_wait.mp hreport
    rw [(Progress.follows_done.mp hdone).2.2]
    cases filled_of_promoteOnePeer hpromote with
    | vacant ring =>
      rw [ring, hdropped]
      exact .lost hlisted
    | @taken new moved alone peer promoted ring =>
      rw [hdropped, (Ring.removeSuperpeer_shape _ _).2.1] at peer
      rw [ring, hdropped]
      exact .replaced hlisted hne hbefore hu peer
        (promoted.mono fun x hx => hsub x (List.mem_append_left _ hx))

/-- A peer that failed is forgotten, unless it answers. -/
theorem repaired_of_peerFailed (hlisted : failed ∉ n.ring.superpeers) (hpeer : failed ∈ n.ring.peers)
    (h : (peerFailed failed n).Follows log () n') :
    n' = n ∨ n.ring.Repaired (PromotedIn log) failed n'.ring := by
  obtain ⟨available, rest, rfl, hrest⟩ := Task.follows_ask_bind.mp h
  cases available with
  | false =>
    rw [(Progress.follows_done.mp hrest).2.2]
    exact .inr (.forgotten hlisted hpeer)
  | true =>
    obtain ⟨alive, m, first, rest, rfl, hanswer, hrest⟩ := Task.follows_bind.mp hrest
    obtain rfl : m = n := (keeps_creatorAvailable (P := (· = n)) failed).of_follows rfl hanswer
    cases alive with
    | true =>
      rw [(Progress.follows_done.mp hrest).2.2]
      exact .inl rfl
    | false =>
      have hqueue : ∀ (k : Node) id, k.ring = m.ring → (k.enqueue id).ring = m.ring :=
        fun k id hk => (k.ring_enqueue id).trans hk
      have hnotice : (m.noticeFailedPeer failed).ring = m.ring := Node.ring_mapDirectory _
      obtain ⟨⟨⟩, m₁, _, rest₁, -, hnotify, hrest₁⟩ := Task.follows_bind.mp
        (Task.follows_node_bind.mp (Task.follows_modify_bind.mp hrest))
      have hring₁ := (keeps_notifyAll hqueue _ _).of_follows hnotice hnotify
      obtain ⟨⟨⟩, m₂, _, rest₂, -, hrecover, hrest₂⟩ := Task.follows_bind.mp hrest₁
      have hring₂ := (keeps_recoverRanges (P := fun k => k.ring = m.ring) _ _).of_follows hring₁
        hrecover
      obtain ⟨x, rest₃, -, hdone⟩ := Progress.follows_wait.mp hrest₂
      rw [(Progress.follows_done.mp hdone).2.2]
      right
      show m.ring.Repaired _ failed (m₂.ring.removePeer failed)
      rw [hring₂]
      exact .forgotten hlisted hpeer

/-- Either nothing is done about a failure, because the node has not failed or is not known, or the
view of the ring is repaired. -/
theorem repaired_of_handleFailure (h : (handleFailure failed n).Follows log () n') :
    (n' = n ∧ (failed ∈ n.ring.superpeers → failed = n.me)) ∨
      n.ring.Repaired (PromotedIn log) failed n'.ring := by
  change ((if failed = n.me then _ else if n.ring.superpeers.contains failed then _ else
    if n.ring.peers.contains failed then _ else _ : Task Unit) n).Follows _ _ _ at h
  split at h
  case isTrue hme => exact .inl ⟨(Progress.follows_done.mp h).2.2, fun _ => hme⟩
  case isFalse hne =>
    split at h
    case isTrue hcontains =>
      have hlisted : failed ∈ n.ring.superpeers := of_decide_eq_true hcontains
      split at h
      case isTrue => exact .inr (repaired_of_superpeerFailed hlisted hne h)
      case isFalse =>
        rw [(Progress.follows_done.mp h).2.2]
        obtain ⟨bootstrap, hring⟩ := n.ring_loseSuperpeer failed
        right
        rw [hring]
        exact .lost hlisted
    case isFalse hcontains =>
      have hunlisted : failed ∉ n.ring.superpeers := fun hlisted => hcontains (decide_eq_true hlisted)
      split at h
      case isTrue hpeer =>
        exact (repaired_of_peerFailed hunlisted (of_decide_eq_true hpeer) h).imp_left fun hsame =>
          ⟨hsame, fun hlisted => absurd hlisted hunlisted⟩
      case isFalse =>
        exact .inl ⟨(Progress.follows_done.mp h).2.2, fun hlisted => absurd hlisted hunlisted⟩

end Protocol

end ChunkDirectory
