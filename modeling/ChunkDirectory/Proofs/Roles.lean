import ChunkDirectory.Proofs.Pointers
import ChunkDirectory.Proofs.Protocol.Failing

/-!
# Nodes in two roles

A superpeer lists superpeers and peers. Whoever joins or is promoted is taken off the peers, and who
is known as a superpeer is not taken over as a peer. Other changes look at one list only: a peer that
joins is listed even if it is known as a superpeer, and whoever notifies the node as its neighbour, or
sends its superpeers, is listed even if it is known as a peer. The lists have no member in common as
long as no event does this (`Ring.Apart`, `Event.KeepsApart`), and each event that does it brings a
common member about (`Node.roles_apart`).

It matters when a node fails. A listed superpeer is handled as a superpeer only. If the lists are
apart, it is in neither of them afterwards. Otherwise it stays behind as a peer.
-/

namespace ChunkDirectory

open Protocol

namespace Ring

variable {r r₀ : Ring} {adds : Prop} {id new x : NodeId}

/-- No superpeer is listed as a peer. -/
def Apart (r : Ring) : Prop := ∀ x ∈ r.superpeers, x ∉ r.peers

theorem Apart.insertPeer (h : r.Apart) (hid : id ∉ r.superpeers) : (r.insertPeer id).Apart := by
  obtain ⟨u, hu, hmem⟩ := insertPeer_eq r id
  rw [hu]
  intro x hx hpeer
  rcases (hmem x).mp hpeer with hpeer | ⟨rfl, -⟩
  · exact h x hx hpeer
  · exact hid hx

/-- A superpeer that is listed must not be a peer, whatever becomes of the pointers. -/
theorem Apart.widen {t : NodeSet} {p q : Option NodeId} (h : r.Apart) (hid : id ∉ r.peers)
    (ht : ∀ x ∈ t, x ∈ r.superpeers ∨ x = id) :
    ({ r with superpeers := t, predecessor := p, successor := q } : Ring).Apart := by
  intro x hx
  rcases ht x hx with hx | rfl
  · exact h x hx
  · exact hid

theorem Apart.setPointers (h : r.Apart) (hid : id ∉ r.peers) :
    (r.setSuccessor (some id)).Apart ∧ (r.setPredecessor (some id)).Apart := by
  have hone {t : NodeSet} (ht : ∀ x, x ∈ t ↔ x ∈ r.superpeers ∨ some id = some x ∧ r.admits x = true) :
      ∀ x ∈ t, x ∈ r.superpeers ∨ x = id :=
    fun x hx => ((ht x).mp hx).imp_right fun hsome => (Option.some_inj.mp hsome.1).symm
  obtain ⟨t, ht, hmem⟩ := setSuccessor_shape r (some id)
  obtain ⟨t', ht', hmem'⟩ := setPredecessor_shape r (some id)
  rw [ht, ht']
  exact ⟨h.widen hid (hone hmem), h.widen hid (hone hmem')⟩

/-- Who gets a part of the range is no peer any more. -/
theorem Apart.splitRing (h : r.Apart) (moved : List NodeId) (alone : Bool) :
    (Node.splitRing r moved new alone).Apart := by
  have hleft : ((r.removePeers moved).removePeer new).Apart ∧
      new ∉ ((r.removePeers moved).removePeer new).peers := by
    obtain ⟨u, hu, hmem⟩ := removePeers_eq moved r
    rw [hu]
    refine ⟨fun x hx hpeer => ?_, fun hnew => (NodeSet.mem_erase.mp hnew).2 rfl⟩
    exact h x hx ((hmem x).mp (NodeSet.mem_erase.mp hpeer).1).1
  unfold Node.splitRing
  cases alone with
  | false => exact (hleft.1.setPointers hleft.2).2
  | true =>
    refine ((hleft.1.setPointers hleft.2).1.setPointers ?_).2
    obtain ⟨t, ht, -⟩ := setSuccessor_shape ((r.removePeers moved).removePeer new) (some new)
    rw [ht]
    exact hleft.2

/-- A list of superpeers that is started anew leaves the peers as they are. -/
theorem peers_renewed (r : Ring) (ids : List NodeId) (id : NodeId) :
    ((r.replaceSuperpeers ids).insertSuperpeer id).peers = r.peers := by
  obtain ⟨t, ht, -⟩ := insertSuperpeers_eq ids { r with superpeers := ∅ }
  obtain ⟨t', ht', -⟩ := insertSuperpeer_eq (r.replaceSuperpeers ids) id
  rw [ht', Ring.replaceSuperpeers, ht]

/-- Tending keeps the lists apart. -/
theorem Apart.tended (h : r₀.Apart) (hr : Tended adds r₀ r) : r.Apart := by
  induction hr with
  | refl => exact h
  | bootstrap id _ ih => exact ih
  | @lose r id _ ih =>
    obtain ⟨hsuperpeers, hpeers, -⟩ := removeSuperpeer_shape r id
    intro x hx
    rw [hpeers]
    exact ih x ((hsuperpeers x).mp hx).1
  | list _ _ hnot ih => exact ih.insertPeer hnot
  | forget id _ ih => exact fun x hx hpeer => ih x hx (NodeSet.mem_erase.mp hpeer).1
  | split moved alone _ _ _ _ ih => exact ih.splitRing moved alone

end Ring

/-- Nobody whom the receiver may list is a superpeer and a peer of the snapshot. -/
def Snapshot.KeepsApart (s : Snapshot) (r : Ring) : Prop :=
  ∀ x ∈ s.peers, r.admits x = true → x ∉ s.superpeers ∧ x ∉ s.pointers

theorem Ring.apart_adopt_iff {r : Ring} {s : Snapshot} : (r.adopt s).Apart ↔ s.KeepsApart r := by
  obtain ⟨t, u, hadopt, ht, hu⟩ := adopt_shape r s
  rw [hadopt]
  constructor
  · intro h x hx hadmits
    have hnot : x ∉ t := fun hlisted => h x hlisted ((hu x).mpr ⟨hx, hadmits⟩)
    refine ⟨fun hlisted => hnot ((ht x).mpr ⟨.inl hlisted, hadmits⟩), fun hpointer => ?_⟩
    exact hnot ((ht x).mpr ⟨.inr (Snapshot.mem_pointers.mp hpointer).symm, hadmits⟩)
  · intro h x hlisted hpeer
    obtain ⟨hx, hadmits⟩ := (hu x).mp hpeer
    obtain ⟨hsuperpeers, hpointers⟩ := h x hx hadmits
    rcases ((ht x).mp hlisted).1 with hlisted | hpointer
    · exact hsuperpeers hlisted
    · exact hpointers (Snapshot.mem_pointers.mpr hpointer.symm)

namespace Node

variable {n n' m : Node} {e : Event} {excused : NodeId → Prop} {x : NodeId}

/-- No known superpeer is listed as a peer by the event, nor a known peer as a superpeer. -/
def Event.KeepsApart (n : Node) : Event → Prop
  | .message _ (.join newcomer false) =>
    n.isSuperpeer = true → n.admits newcomer = true → newcomer ∉ n.ring.superpeers
  | .message sender (.sendSuperpeers _) => n.isSuperpeer = true → sender ∉ n.ring.peers
  | .message _ (.notifyAboutNewPredecessor node) => n.TakesPredecessor node → node ∉ n.ring.peers
  | .message _ (.notifyAboutNewSuccessor node) => n.TakesSuccessor node → node ∉ n.ring.peers
  | .message _ (.promotePeer snapshot _) => n.isSuperpeer = false → snapshot.KeepsApart n.ring
  | .reply _ (.joinAccepted snapshot) => n.isSuperpeer = true → snapshot.KeepsApart n.ring
  | _ => True

theorem ring_install (n : Node) (snapshot : Snapshot) :
    (n.install snapshot).ring = n.ring.adopt snapshot := ring_mapDirectory _

/-- A snapshot names nobody in two roles if its sender does not. -/
theorem keepsApart_snapshotFor (hconfined : n.Confined excused) (h : n.ring.Apart)
    (predecessor newcomer : NodeId) (r : Ring) :
    (n.snapshotFor predecessor newcomer).KeepsApart r := by
  intro x hx _
  obtain ⟨hpeer, hbetween⟩ := List.mem_filter.mp hx
  refine ⟨fun hlisted => h x hlisted hpeer, fun hpointer => ?_⟩
  rcases Snapshot.mem_pointers.mp hpointer with hp | hq
  · cases hp
    rw [Arc.not_mem_strict_self] at hbetween
    cases hbetween
  · cases hq
    exact (Ring.admits_iff.mp (hconfined.ring.peers _ hpeer)).1 rfl

/-- A node in the role of a peer lists no peers. -/
theorem apart_of_peers (hconfined : n.Confined excused) (hrole : n.isSuperpeer = false) {r : Ring}
    (hr : r.peers = n.ring.peers) : r.Apart := by
  intro x _ hpeer
  rw [hr, (hconfined.peer hrole).2.2] at hpeer
  cases hpeer

theorem apart_noticeSuperpeers {sender : NodeId} (hconfined : n.Confined excused)
    (h : n.ring.Apart) (hsender : n.isSuperpeer = true → sender ∉ n.ring.peers)
    (superpeers : List NodeId) : (n.noticeSuperpeers sender superpeers).ring.Apart := by
  cases hrole : n.role with
  | superpeer d =>
    have hsuperpeer : n.isSuperpeer = true := by rw [isSuperpeer, directory?, hrole]; rfl
    obtain ⟨t, ht, hmem⟩ := Ring.insertSuperpeer_eq n.ring sender
    rw [noticeSuperpeers_of_superpeer hsuperpeer, mapRing, ht]
    exact h.widen (hsender hsuperpeer) fun x hx => ((hmem x).mp hx).imp_right And.left
  | peer attached =>
    have hpeer : n.isSuperpeer = false := by rw [isSuperpeer, directory?, hrole]; rfl
    refine apart_of_peers hconfined hpeer ?_
    rw [noticeSuperpeers, hrole]
    exact Ring.peers_renewed _ _ _

/-- A message that lists nobody in a second role keeps the lists apart. -/
theorem apart_of_handled {sender : NodeId} {message : Message} (hconfined : n.Confined excused)
    (h : n.ring.Apart) (he : Event.KeepsApart n (.message sender message))
    (hm : n.Handled sender message m) : m.ring.Apart := by
  cases hm with
  | kept => exact h
  | mutated => rwa [ring_mutate]
  | @welcomed newcomer isSuperpeer hrole =>
    unfold welcome
    split
    case isTrue => exact h
    case isFalse hadmits =>
      cases isSuperpeer with
      | false => exact h.insertPeer (he hrole (by simpa using hadmits))
      | true => exact h.splitRing _ _
  | promoted hrole => exact Ring.apart_adopt_iff.mpr (he hrole)
  | settled hrole =>
    rw [ring_mutate]
    exact Ring.apart_adopt_iff.mpr (he hrole)
  | @predecessor node =>
    by_cases htakes : n.TakesPredecessor node
    case neg => rwa [noticePredecessor_of_not_takes htakes]
    case pos =>
      obtain ⟨t, ht, hmem⟩ := noticePredecessor_of_takes htakes
      rw [ht]
      exact h.widen (he htakes) fun x hx => ((hmem x).mp hx).imp_right And.left
  | @successor node =>
    by_cases htakes : n.TakesSuccessor node
    case neg => rwa [noticeSuccessor_of_not_takes htakes]
    case pos =>
      obtain ⟨t, ht, hmem⟩ := noticeSuccessor_of_takes htakes
      rw [ht]
      exact h.widen (he htakes) fun x hx => ((hmem x).mp hx).imp_right And.left
  | failedPeer => exact (ring_mapDirectory _).symm ▸ h
  | stored => exact (ring_mapDirectory _).symm ▸ h
  | superpeers => exact apart_noticeSuperpeers hconfined h he _

/-- An event that lists nobody in a second role keeps the lists apart. -/
theorem apart_of_becomes (hconfined : n.Confined excused) (h : n.ring.Apart)
    (he : e.KeepsApart n) (hn' : n.Becomes e n') : n'.ring.Apart := by
  cases dealt_of_becomes hn' with
  | handled hm hcore =>
    have hring : n'.ring = _ := congrArg (·.2.1) hcore
    rw [hring]
    exact apart_of_handled hconfined h he hm
  | installed hrole =>
    rw [ring_install]
    exact Ring.apart_adopt_iff.mpr (he hrole)
  | attached hrole =>
    refine apart_of_peers hconfined hrole ?_
    unfold attach
    dsimp only
    split <;> exact Ring.peers_renewed _ _ _
  | ignored => exact h
  | tended hn' => exact h.tended hn'.ring

/-! ## Events that list a node twice -/

/-- A member of both lists. -/
theorem not_apart {r : Ring} (hlisted : x ∈ r.superpeers) (hpeer : x ∈ r.peers) : ¬ r.Apart :=
  fun h => h x hlisted hpeer

/-- A peer that is promoted can hand over its objects, and then has the view it was given. -/
theorem exists_becomes_promoted (hrole : n.isSuperpeer = false) (sender : NodeId)
    (snapshot : Snapshot) (replacement : NodeId) :
    ∃ n', n.Becomes (.message sender (.promotePeer snapshot replacement)) n' ∧
      n'.ring = n.ring.adopt snapshot := by
  obtain ⟨status, n', hmutate⟩ :=
    exists_yields_mutate (.updateAll n.me replacement) false (becomeSuperpeer n snapshot)
  have hsettle : (settle n replacement true (becomeSuperpeer n snapshot)).Yields
      (.promotionResult true) n' :=
    Task.yields_bind.mpr ⟨status, n', hmutate, .wait () .done⟩
  have hyields : (handlePromotePeer snapshot replacement n).Yields (.promotionResult true) n' := by
    rw [handlePromotePeer_eq snapshot replacement hrole]
    exact .wait true hsettle
  refine ⟨n', .message hyields, ?_⟩
  rcases core_of_mutate hmutate with hcore | hcore
  · exact congrArg (·.2.1) hcore
  · exact (congrArg (·.2.1) hcore).trans ring_mutate

/-- An event that lists a node in a second role brings a common member about. -/
theorem exists_not_apart (hconfined : n.Confined excused) (he : ¬ e.KeepsApart n) :
    ∃ n', n.Becomes e n' ∧ ¬ n'.ring.Apart := by
  have hadmits : ∀ x ∈ n.ring.superpeers, n.ring.admits x = true := hconfined.ring.superpeers
  unfold Event.KeepsApart at he
  split at he
  case h_1 sender newcomer =>
    push Not at he
    obtain ⟨hrole, hrange, hlisted⟩ := he
    have hother := (Ring.admits_iff.mp (hadmits newcomer hlisted)).1
    have hwelcome : n.welcome newcomer false =
        (.peer (n.mapRing (·.insertPeer newcomer)).ring.superpeers.toList,
          n.mapRing (·.insertPeer newcomer)) := by
      rw [welcome, if_neg (by simp [hrange])]
      rfl
    have hyields : (handleJoin newcomer false n).Yields
        (.joinAcceptedPeer (n.mapRing (·.insertPeer newcomer)).ring.superpeers.toList)
        (n.mapRing (·.insertPeer newcomer)) := by
      rw [handleJoin_eq hrole hother hwelcome]
      exact .done
    refine ⟨n.mapRing (·.insertPeer newcomer), .message hyields, ?_⟩
    obtain ⟨u, hu, hmem⟩ := Ring.insertPeer_eq n.ring newcomer
    rw [mapRing, hu]
    exact not_apart hlisted ((hmem newcomer).mpr (.inr ⟨rfl, hadmits newcomer hlisted⟩))
  case h_2 sender superpeers =>
    push Not at he
    obtain ⟨hrole, hpeer⟩ := he
    refine ⟨n.noticeSuperpeers sender superpeers, .message Progress.Yields.done, ?_⟩
    obtain ⟨t, ht, hmem⟩ := Ring.insertSuperpeer_eq n.ring sender
    rw [noticeSuperpeers_of_superpeer hrole, mapRing, ht]
    exact not_apart ((hmem sender).mpr (.inr ⟨rfl, hconfined.ring.peers sender hpeer⟩)) hpeer
  case h_3 sender node =>
    push Not at he
    obtain ⟨htakes, hpeer⟩ := he
    obtain ⟨t, ht, hmem⟩ := noticePredecessor_of_takes htakes
    refine ⟨n.noticePredecessor node, .message Progress.Yields.done, ?_⟩
    rw [ht]
    exact not_apart ((hmem node).mpr (.inr ⟨rfl, hconfined.ring.peers node hpeer⟩)) hpeer
  case h_4 sender node =>
    push Not at he
    obtain ⟨htakes, hpeer⟩ := he
    obtain ⟨t, ht, hmem⟩ := noticeSuccessor_of_takes htakes
    refine ⟨n.noticeSuccessor node, .message Progress.Yields.done, ?_⟩
    rw [ht]
    exact not_apart ((hmem node).mpr (.inr ⟨rfl, hconfined.ring.peers node hpeer⟩)) hpeer
  case h_5 sender snapshot replacement =>
    push Not at he
    obtain ⟨hrole, hsnapshot⟩ := he
    obtain ⟨n', hn', hring⟩ := exists_becomes_promoted hrole sender snapshot replacement
    exact ⟨n', hn', fun h => hsnapshot (Ring.apart_adopt_iff.mp (hring ▸ h))⟩
  case h_6 contact snapshot =>
    push Not at he
    obtain ⟨hrole, hsnapshot⟩ := he
    refine ⟨n.install snapshot, ?_, fun h => hsnapshot ?_⟩
    · let attempt : JoinAttempt := ⟨contact, true, 0⟩
      have hrole' : attempt.isSuperpeer = n.isSuperpeer := hrole.symm
      exact .reply hrole' rfl (Progress.Yields.wait () Progress.Yields.done)
    · rw [ring_install] at h
      exact Ring.apart_adopt_iff.mp h
  case h_7 => exact absurd trivial he

/-! ## Failures of superpeers -/

/-- A superpeer that failed and was listed as such only is not listed any more. -/
theorem unlisted_of_failed {failed : NodeId} (hconfined : n.Confined excused)
    (hrole : n.isSuperpeer = true) (hlisted : failed ∈ n.ring.superpeers)
    (hpeer : failed ∉ n.ring.peers) (h : (handleFailure failed n).Yields () n') :
    failed ∉ n'.ring.superpeers ∧ failed ∉ n'.ring.peers := by
  have hne := (Ring.admits_iff.mp (hconfined.ring.superpeers failed hlisted)).1
  rw [handleFailure_of_listed hrole hne hlisted] at h
  obtain ⟨log, hlog⟩ := Progress.yields_iff.mp h
  obtain ⟨k, m, last, -, -, ⟨hm, -, hnot⟩, hlast⟩ := exists_dropped
    (P := fun k => n.Tended (n.isSuperpeer = true) k ∧ failed ∈ k.ring.superpeers ∧
      failed ∉ k.ring.peers)
    (fun k id hk => ⟨hk.1.enqueue k id, by rw [ring_enqueue]; exact hk.2⟩)
    (fun k id hk => ⟨hk.1.setBootstrap k id, hk.2⟩)
    (fun k hk => by
      obtain ⟨u, hu, -, hnew⟩ := k.takeOverPeers_shape failed
      refine ⟨hk.1.takeOverPeers hrole failed, ?_⟩
      rw [hu]
      exact ⟨hk.2.1, fun hx => (hnew failed hx).elim hk.2.2 fun hnew => hnew.unlisted hk.2.1⟩)
    ⟨.refl n, hlisted, hpeer⟩ hlog
  obtain ⟨hsuperpeers, hpeers, -⟩ := Ring.removeSuperpeer_shape m.ring failed
  -- Whoever is promoted afterwards is one of the peers that are left, so it is not the failed node.
  have hrest : (do
      if k.ring.predecessor = some failed then promoteOnePeer failed
      Task.ask (.reportFailure failed true) : Task Unit).Keeps (fun _ => False)
        ((m.mapRing (·.removeSuperpeer failed)).Tended False) := by
    split
    · exact (keeps_promoteOnePeer failed).bind fun _ => .ask _
    · exact .ask _
  have htended := hrest.of_follows (.refl _) hlast
  have hadmits : ∀ x ∈ (m.mapRing (·.removeSuperpeer failed)).ring.peers,
      (m.mapRing (·.removeSuperpeer failed)).ring.admits x = true :=
    ((hconfined.tended hm).ring.removeSuperpeer failed).peers
  obtain ⟨hfromPeers, hfromLists⟩ := htended.ring.of_not_adds hadmits
  have hnoPeer : failed ∉ (m.ring.removeSuperpeer failed).peers := hpeers ▸ hnot
  refine ⟨fun hx => ?_, fun hx => hnoPeer (hfromPeers failed hx)⟩
  rcases hfromLists failed hx with hx | hx
  · exact ((hsuperpeers failed).mp hx).2 rfl
  · exact hnoPeer hx

/-- A superpeer that failed and was listed in both roles stays behind as a peer. -/
theorem left_behind_of_failed {failed : NodeId} (hconfined : n.Confined excused)
    (hrole : n.isSuperpeer = true) (hlisted : failed ∈ n.ring.superpeers)
    (hpeer : failed ∈ n.ring.peers) (hpredecessor : n.ring.predecessor ≠ some failed)
    (h : (handleFailure failed n).Yields () n') :
    failed ∉ n'.ring.superpeers ∧ failed ∈ n'.ring.peers := by
  have hne := (Ring.admits_iff.mp (hconfined.ring.superpeers failed hlisted)).1
  rw [handleFailure_of_listed hrole hne hlisted] at h
  obtain ⟨log, hlog⟩ := Progress.yields_iff.mp h
  obtain ⟨k, m, last, -, hk, hm, hlast⟩ := exists_dropped
    (P := fun k => k.ring.predecessor ≠ some failed ∧ failed ∈ k.ring.peers)
    (fun k id hk => by rw [ring_enqueue]; exact hk) (fun k id hk => hk)
    (fun k hk => by
      obtain ⟨u, hu, hkept, -⟩ := k.takeOverPeers_shape failed
      rw [hu]
      exact ⟨hk.1, hkept failed hk.2⟩)
    ⟨hpredecessor, hpeer⟩ hlog
  rw [if_neg hk.1] at hlast
  obtain ⟨⟨⟩, rest, -, hlast⟩ := Progress.follows_wait.mp hlast
  obtain ⟨hsuperpeers, hpeers, -⟩ := Ring.removeSuperpeer_shape m.ring failed
  rw [(Progress.follows_done.mp hlast).2.2]
  refine ⟨fun hx => ((hsuperpeers failed).mp hx).2 rfl, ?_⟩
  show failed ∈ (m.ring.removeSuperpeer failed).peers
  rw [hpeers]
  exact hm.2

/-! ## The lists of a node -/

/-- As long as no event lists a node in a second role, the lists of a node have no member in common;
the snapshots it gives to others name nobody in two roles; an event keeps the lists apart, however it
is dealt with, exactly if it is not one that does this; and a superpeer that failed is in neither list
once its failure is handled. An event that does it has consequences: if a superpeer fails that is also
listed as a peer and does not precede the node, it stays behind as a peer. -/
theorem roles_apart (n : Node) :
    ((n.Arises fun n e => e.KeepsApart n) →
      n.ring.Apart ∧
      (∀ predecessor newcomer r, (n.snapshotFor predecessor newcomer).KeepsApart r) ∧
      (∀ e : Event, (∀ n', n.Becomes e n' → n'.ring.Apart) ↔ e.KeepsApart n) ∧
      ∀ (failed : NodeId) (n' : Node), n.isSuperpeer = true → failed ∈ n.ring.superpeers →
        (handleFailure failed n).Yields () n' →
        failed ∉ n'.ring.superpeers ∧ failed ∉ n'.ring.peers) ∧
    ∀ (n' : Node) (failed : NodeId), (n.Arises fun _ _ => True) → n.isSuperpeer = true →
      failed ∈ n.ring.superpeers → failed ∈ n.ring.peers → n.ring.predecessor ≠ some failed →
      (handleFailure failed n).Yields () n' →
      failed ∉ n'.ring.superpeers ∧ failed ∈ n'.ring.peers := by
  have hconfined {n : Node} {allowed : Node → Event → Prop} (h : n.Arises allowed) :
      n.Confined fun _ => True := Arises.confined (h.mono fun _ _ _ _ _ _ => trivial)
  constructor
  · intro harises
    have hapart : n.ring.Apart := by
      induction harises with
      | new config => exact fun x hx => by cases hx
      | next h he hbecomes ih => exact apart_of_becomes (hconfined h) ih he hbecomes
    refine ⟨hapart, keepsApart_snapshotFor (hconfined harises) hapart, fun e => ?_, ?_⟩
    · refine ⟨fun hall => ?_, fun he n' => apart_of_becomes (hconfined harises) hapart he⟩
      by_contra he
      obtain ⟨n', hn', hnot⟩ := exists_not_apart (hconfined harises) he
      exact hnot (hall n' hn')
    · exact fun failed n' hrole hlisted =>
        unlisted_of_failed (hconfined harises) hrole hlisted (hapart failed hlisted)
  · exact fun n' failed harises hrole hlisted hpeer hpredecessor =>
      left_behind_of_failed (hconfined harises) hrole hlisted hpeer hpredecessor

/-- A superpeer admits a peer, which then says that it precedes the superpeer. Had it sent its list of
superpeers instead, it would be left behind as a peer when it fails. -/
theorem roles_apart_two_roles :
    ∃ n : Node, n.isSuperpeer = true ∧ n.ring.Apart ∧
      (∃ n', n.Becomes (.message ⟨500⟩ (.notifyAboutNewPredecessor ⟨500⟩)) n' ∧ ¬ n'.ring.Apart) ∧
      ∃ n' n'', n.Becomes (.message ⟨500⟩ (.sendSuperpeers [])) n' ∧
        (handleFailure ⟨500⟩ n').Yields () n'' ∧
        (⟨500⟩ : NodeId) ∉ n''.ring.superpeers ∧ (⟨500⟩ : NodeId) ∈ n''.ring.peers := by
  let start := Node.new (Overlay.twoAttempts ⟨1000⟩ .superpeer)
  let n := start.mapRing (·.insertPeer ⟨500⟩)
  have hjoined : start.Becomes (.message ⟨500⟩ (.join ⟨500⟩ false)) n :=
    .message Progress.Yields.done
  have hallowed : Event.KeepsApart start (.message ⟨500⟩ (.join ⟨500⟩ false)) :=
    fun _ _ hlisted => by cases hlisted
  have harises : n.Arises fun n e => e.KeepsApart n := (Arises.new _).next hallowed hjoined
  have hsent : n.Becomes (.message ⟨500⟩ (.sendSuperpeers [])) (n.noticeSuperpeers ⟨500⟩ []) :=
    .message Progress.Yields.done
  have hfailed : ∃ n'', (handleFailure ⟨500⟩ (n.noticeSuperpeers ⟨500⟩ [])).Yields () n'' :=
    ⟨_, .wait () .done⟩
  obtain ⟨n'', hfailed⟩ := hfailed
  obtain ⟨hapart, -, hexact, -⟩ := (roles_apart n).1 harises
  obtain ⟨-, hleft⟩ := roles_apart (n.noticeSuperpeers ⟨500⟩ [])
  have hnoticed : ¬ Event.KeepsApart n (.message ⟨500⟩ (.notifyAboutNewPredecessor ⟨500⟩)) :=
    fun h => h ⟨rfl, by decide, fun _ hp => by cases hp⟩ (by decide)
  refine ⟨n, rfl, hapart, ?_, _, n'', hsent, hfailed, ?_⟩
  · by_contra hnone
    push Not at hnone
    exact hnoticed ((hexact _).mp hnone)
  · exact hleft n'' ⟨500⟩ ((harises.mono fun _ _ _ => trivial).next trivial hsent) rfl
      (by decide) (by decide) (fun hp => by cases hp) hfailed

end Node

end ChunkDirectory
