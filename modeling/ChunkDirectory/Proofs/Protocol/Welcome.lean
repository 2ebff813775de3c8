import ChunkDirectory.Proofs.Ring.Formed
import ChunkDirectory.Proofs.Overlay.Settled
import ChunkDirectory.Protocol.Query

/-!
# Admission of a newcomer

What a superpeer of a growing ring decides about a newcomer. It admits whom it owns
(`admits_iff`). Everybody else is sent to a superpeer that is nearer to the newcomer's position
(`welcome_redirect`). An admitted peer is listed (`welcome_peer`). An admitted superpeer is told its
place, and the range is split there (`welcome_superpeer`); the superpeer before it takes notice
(`noticeSuccessor_formed`).
-/

namespace ChunkDirectory

open NodeId

namespace Node

variable {s ps : NodeSet} {n : Node} {new owner p : NodeId}

/-- A superpeer admits those whose positions it owns. -/
theorem admits_iff (h : n.ring.Formed s ps) (hme : n.me ∈ s) :
    n.admits new = true ↔ s.Owns new n.me := by
  cases hp : n.ring.predecessor with
  | none =>
    have hempty := h.isEmpty_iff.mpr hp
    rw [admits, hempty, Bool.true_or]
    refine iff_of_true rfl ⟨hme, fun y hy => ?_⟩
    exact Nat.le_of_eq (by rw [h.eq_me hp hy]; rfl)
  | some p =>
    have hbefore := (h.predecessor p).mp hp
    have hempty : n.ring.superpeers.isEmpty = false := by
      rw [← Bool.not_eq_true, h.isEmpty_iff, hp]
      exact Option.some_ne_none p
    rw [admits, hempty, Bool.false_or, hp]
    show Arc.contains ⟨p, n.ring.me, .upperClosed⟩ new = true ↔ _
    rw [Arc.mem_upperClosed_iff hbefore.2.1]
    exact (NodeSet.owns_iff_of_before hme hbefore).symm

/-- A newcomer that is not admitted is sent on to a nearer superpeer. -/
theorem welcome_redirect (h : n.ring.Formed s ps) (hme : n.me ∈ s) (hnot : ¬ s.Owns new n.me)
    (isSuperpeer : Bool) :
    ∃ y, n.welcome new isSuperpeer = (.redirect y, n) ∧ y ∈ s ∧
      clockwise new y < clockwise new n.me := by
  have hrefuses : n.admits new = false := by
    rw [← Bool.not_eq_true, admits_iff h hme]
    exact hnot
  cases hp : n.ring.predecessor with
  | none =>
    have hadmits : n.admits new = true := by
      rw [admits, h.isEmpty_iff.mpr hp, Bool.true_or]
    rw [hadmits] at hrefuses
    cases hrefuses
  | some p =>
    have hbefore := (h.predecessor p).mp hp
    have hlisted := h.knowsBefore p hbefore
    obtain ⟨y, hy⟩ := NodeSet.exists_owner hlisted new
    refine ⟨y, ?_, (h.listed y hy.1).1, ?_⟩
    · have hresponsible : n.ring.responsible new = some y := Ring.responsible_eq_some_iff.mpr hy
      rw [welcome, hrefuses, hresponsible]
      rfl
    · exact Nat.lt_of_le_of_lt (hy.2 p hlisted) (hbefore.nearer hme hnot)

/-- An admitted peer is listed. -/
theorem welcome_peer (h : n.ring.Formed s ps) (hown : s.Owns new n.me)
    (hadmits : n.ring.admits new = true) :
    ∃ n', n.welcome new false = (.peer n.ring.superpeers.toList, n') ∧ n'.me = n.me ∧
      n'.isSuperpeer = n.isSuperpeer ∧ n'.ring.Formed s (ps.insert new) := by
  have hwelcomes := (admits_iff h hown.1).mpr hown
  obtain ⟨u, hu, hmem⟩ := Ring.insertPeer_eq n.ring new
  refine ⟨{ n with ring := { n.ring with peers := u } }, ?_, rfl, rfl, ?_⟩
  · rw [welcome, hwelcomes, mapRing, hu]
    rfl
  · refine h.insert_peer hown fun x => ?_
    rw [hmem, and_iff_left_of_imp fun heq : x = new => by subst heq; exact hadmits]

/-- What a newcomer between `p` and `owner` is given. -/
structure Places (s ps : NodeSet) (owner new p : NodeId) (snapshot : Snapshot) : Prop where
  predecessor : snapshot.predecessor = some p
  successor : snapshot.successor = some owner
  before : (s.insert new).Before new p
  member : p ∈ s
  superpeers : ∀ x ∈ snapshot.superpeers, x ∈ s
  peers : ∀ x, x ∈ snapshot.peers ↔ (x ∈ ps ∧ (s.insert new).Owns x new) ∧ x ≠ new

/-- The snapshot for a newcomer that is preceded by `p`. -/
theorem places_snapshotFor (h : n.ring.Formed s ps) (hown : s.Owns new n.me) (hmember : p ∈ s)
    (hbefore : (s.insert new).Before new p) :
    Places s ps n.me new p (n.snapshotFor p new) := by
  refine ⟨rfl, rfl, hbefore, hmember, fun x hx => (h.listed x hx).1, fun x => ?_⟩
  have howns : (s.insert new).Owns x new ↔ clockwise x new < clockwise p new :=
    NodeSet.owns_iff_of_before (NodeSet.mem_insert.mpr (.inl rfl)) hbefore
  show x ∈ n.ring.peers.toList.filter (Arc.contains ⟨p, new, .strict⟩) ↔ _
  rw [List.mem_filter, Arc.mem_strict_iff hbefore.2.1, howns]
  constructor
  · rintro ⟨hx, hne, hnear⟩
    exact ⟨⟨((h.peers x).mp hx).1, hnear⟩, hne⟩
  · rintro ⟨⟨hx, hnear⟩, hne⟩
    have hxowner : s.Owns x n.me := NodeSet.owns_of_newcomer_owns hown (howns.mpr hnear)
    exact ⟨(h.peers x).mpr ⟨hx, hxowner⟩, hne, hnear⟩

/-- The member before the newcomer is the predecessor of the one that admits it, or that one itself
if it is alone. -/
theorem exists_before_newcomer (h : n.ring.Formed s ps) (hown : s.Owns new n.me) (hnew : new ∉ s) :
    ∃ p, p ∈ s ∧ (s.insert new).Before new p ∧
      (if n.ring.superpeers.isEmpty then n.me
        else (n.ring.previousBefore new).getD n.me) = p ∧
      (if n.ring.superpeers.isEmpty then n.me else n.ring.predecessor.getD n.me) = p := by
  cases hp : n.ring.predecessor with
  | none =>
    have halone : ∀ y ∈ s, y = n.me := fun y hy => h.eq_me hp hy
    have hempty := h.isEmpty_iff.mpr hp
    refine ⟨n.me, hown.1, ?_, if_pos hempty, if_pos hempty⟩
    exact (NodeSet.before_newcomer_of_alone hown hnew halone).insert_self
  | some p =>
    have hbefore := (h.predecessor p).mp hp
    have hnewcomer := NodeSet.before_newcomer hown hnew hbefore
    have hknown : n.ring.superpeers.Before new p :=
      hnewcomer.mono (fun y hy => (h.listed y hy).1) (h.knowsBefore p hbefore)
    have hempty : ¬ n.ring.superpeers.isEmpty = true := by
      rw [h.isEmpty_iff, hp]
      exact Option.some_ne_none p
    refine ⟨p, hbefore.1, hnewcomer.insert_self, ?_, ?_⟩
    · rw [if_neg hempty, Ring.previousBefore_eq_some_iff.mpr hknown, Option.getD_some]
    · rw [if_neg hempty, Option.getD_some]

/-- The one to be told is the predecessor, whenever there is one. -/
theorem oldPredecessor_eq (h : n.ring.Formed s ps) (hnew : new ∉ s) :
    (if n.ring.superpeers.isEmpty then none
      else n.ring.predecessor.filter (· ≠ new)) = n.ring.predecessor := by
  have hfilter : n.ring.predecessor.filter (· ≠ new) = n.ring.predecessor := by
    cases hp : n.ring.predecessor with
    | none => rfl
    | some p =>
      have hne : p ≠ new := fun heq => hnew (heq ▸ ((h.predecessor p).mp hp).1)
      rw [Option.filter_some, if_pos (decide_eq_true hne)]
  rw [hfilter]
  exact h.predecessor_of_isEmpty

/-- The range of an owner is split at the newcomer's position. -/
theorem splitRing_formed {snapshot : Snapshot} (h : n.ring.Formed s ps) (hown : s.Owns new n.me)
    (hnew : new ∉ s) (hadmits : n.ring.admits new = true)
    (hplaces : Places s ps n.me new p snapshot) :
    (splitRing n.ring snapshot.peers new n.ring.superpeers.isEmpty).me = n.me ∧
      (splitRing n.ring snapshot.peers new n.ring.superpeers.isEmpty).Formed (s.insert new) ps := by
  obtain ⟨t, u, hsplit, ht, hu⟩ :=
    Ring.splitRing_eq snapshot.peers n.ring.superpeers.isEmpty hadmits
  rw [hsplit]
  refine ⟨rfl, h.split hown hnew rfl rfl rfl ht fun x => ?_⟩
  have hpeer : x ∈ n.ring.peers → x ∈ ps := fun hx => ((h.peers x).mp hx).1
  rw [hu, hplaces.peers]
  constructor
  · rintro ⟨⟨hx, hmoved⟩, hne⟩
    exact ⟨hx, fun hnear => hmoved ⟨⟨hpeer hx, hnear⟩, hne⟩⟩
  · rintro ⟨hx, hfar⟩
    refine ⟨⟨hx, fun hmoved => hfar hmoved.1.2⟩, fun heq => hfar ?_⟩
    rw [heq]
    exact NodeSet.owns_self (NodeSet.mem_insert.mpr (.inl rfl))

/-- An admitted superpeer is given its place, and the range is split at it. -/
theorem welcome_superpeer (h : n.ring.Formed s ps) (hown : s.Owns new n.me) (hnew : new ∉ s)
    (hadmits : n.ring.admits new = true) :
    ∃ n' p, n.welcome new true = (.superpeer (n.snapshotFor p new) n.ring.predecessor, n') ∧
      Places s ps n.me new p (n.snapshotFor p new) ∧ n'.me = n.me ∧ n'.role = n.role ∧
      n'.ring.Formed (s.insert new) ps := by
  have hwelcomes := (admits_iff h hown.1).mpr hown
  obtain ⟨p, hmember, hbefore, hp, -⟩ := exists_before_newcomer h hown hnew
  have hplaces := places_snapshotFor h hown hmember hbefore
  obtain ⟨hme, hformed⟩ := splitRing_formed h hown hnew hadmits hplaces
  let split (r : Ring) := splitRing r (n.snapshotFor p new).peers new n.ring.superpeers.isEmpty
  refine ⟨n.mapRing split, p, ?_, hplaces, hme, rfl, hformed⟩
  rw [welcome, hwelcomes]
  simp only [Bool.not_true, Bool.false_eq_true, if_false, hp, oldPredecessor_eq h hnew]
  rfl

end Node

namespace Protocol

/-- What is answered once a newcomer is decided about. -/
def admissionReply (new : NodeId) : Admission → Task Message
  | .redirect contact => return .joinRedirect contact
  | .peer superpeers => return .joinAcceptedPeer superpeers
  | .superpeer snapshot none => return .joinAccepted snapshot
  | .superpeer snapshot (some old) => do
    match ← Task.send old (.notifyAboutNewSuccessor new) with
    | .ok () => return .joinAccepted snapshot
    | .error _ =>
      Task.spawnFailureHandling old
      return .joinAccepted snapshot

/-- A superpeer decides about a newcomer, makes room for it and answers. -/
theorem handleJoin_eq {n m : Node} {new : NodeId} {isSuperpeer : Bool} {admission : Admission}
    (hrole : n.isSuperpeer = true) (hne : new ≠ n.me)
    (hwelcome : n.welcome new isSuperpeer = (admission, m)) :
    handleJoin new isSuperpeer n = admissionReply new admission m := by
  show (if !n.isSuperpeer then _ else if new = n.me then _ else _ : Task Message) n = _
  rw [if_neg (by simp [hrole]), if_neg hne, hwelcome]
  match admission with
  | .redirect _ => rfl
  | .peer _ => rfl
  | .superpeer _ none => rfl
  | .superpeer _ (some _) => rfl

end Protocol

namespace Node

variable {s ps : NodeSet} {n : Node} {new owner p : NodeId}

/-! ## What the others do -/

theorem role_noticeSuccessor (n : Node) (node : NodeId) :
    (n.noticeSuccessor node).role = n.role := by
  unfold noticeSuccessor mapRing
  split
  case isTrue => rfl
  case isFalse =>
    dsimp only
    split <;> split <;> rfl

/-- The superpeer before the owner makes the newcomer its successor when it is told of it. -/
theorem noticeSuccessor_formed (h : n.ring.Formed s ps) (hrole : n.isSuperpeer = true)
    (hme : n.me ∈ s) (hown : s.Owns new owner) (hnew : new ∉ s) (hbefore : s.Before owner n.me)
    (hadmits : n.ring.admits new = true) :
    (n.noticeSuccessor new).me = n.me ∧ (n.noticeSuccessor new).isSuperpeer = n.isSuperpeer ∧
      (n.noticeSuccessor new).ring.Formed (s.insert new) ps := by
  have hafter : s.After n.me owner := hbefore.after hown.1
  have hsuccessor := (h.successor owner).mpr hafter
  obtain ⟨p, -, hp, -, -, -⟩ := h.exists_neighbours hown.1 hafter.2.1
  have hnearer : Arc.contains ⟨n.me, owner, .strict⟩ new = true := by
    rw [Arc.mem_strict_iff (Ne.symm hafter.2.1), ← NodeSet.owns_iff_of_before hown.1 hbefore]
    exact ⟨fun heq => hnew (heq ▸ hown.1), hown⟩
  have hother : n.ring.successor ≠ some new := by
    rw [hsuccessor]
    rintro heq
    cases heq
    exact hnew hown.1
  obtain ⟨t, ht, hmem⟩ := Ring.setSuccessor_eq n.ring hadmits
  have heq : n.noticeSuccessor new = n.mapRing fun r => r.setSuccessor (some new) := by
    have hne : new ≠ n.me := (Ring.admits_iff.mp hadmits).1
    have hguard : ¬ (!n.isSuperpeer || decide (new = n.me)) = true := by
      rw [hrole, Bool.not_true, Bool.false_or, decide_eq_true_iff]
      exact hne
    have hkept : (n.ring.setSuccessor (some new)).predecessor.isNone = false := by
      rw [ht, hp]
      rfl
    unfold noticeSuccessor
    rw [if_neg hguard, hsuccessor]
    simp only [hnearer, Bool.true_and]
    rw [if_pos (decide_eq_true (hsuccessor ▸ hother)), mapRing, mapRing, hkept]
    rfl
  rw [heq]
  refine ⟨?_, rfl, ?_⟩
  · show (n.ring.setSuccessor (some new)).me = n.me
    rw [ht]
    rfl
  · show (n.ring.setSuccessor (some new)).Formed (s.insert new) ps
    rw [ht]
    exact h.notice hme hown hnew hbefore rfl rfl rfl hmem rfl

/-- What the newcomer makes of the place it is given. -/
theorem install_formed {snapshot : Snapshot} (h : Places s ps owner new p snapshot)
    (hown : s.Owns new owner) (hnew : new ∉ s) (hnewpeer : new ∉ ps)
    (hvalid : ∀ x, x ∈ s ∨ x ∈ ps → x.isReserved = false) (hme : n.me = new) :
    (n.install snapshot).me = new ∧ (n.install snapshot).isSuperpeer = n.isSuperpeer ∧
      (n.install snapshot).ring.Formed (s.insert new) ps := by
  have hadmits : ∀ x, x ≠ new → x.isReserved = false → n.ring.admits x = true := by
    rw [← hme]
    exact fun x hne hx => Ring.admits_iff.mpr ⟨hne, hx⟩
  have hmember : ∀ x ∈ s, n.ring.admits x = true := fun x hx =>
    hadmits x (fun heq => hnew (heq ▸ hx)) (hvalid x (.inl hx))
  have hpeer : ∀ x ∈ ps, n.ring.admits x = true := fun x hx =>
    hadmits x (fun heq => hnewpeer (heq ▸ hx)) (hvalid x (.inr hx))
  obtain ⟨t, u, hadopt, ht, hu⟩ :=
    Ring.adopt_eq h.predecessor h.successor (hmember p h.member) (hmember owner hown.1)
  have hring : (n.install snapshot).ring = n.ring.adopt snapshot := ring_mapDirectory _
  refine ⟨?_, isSuperpeer_mapDirectory _, ?_⟩
  · show (n.install snapshot).ring.me = new
    rw [hring, hadopt]
    exact hme
  · rw [hring, hadopt]
    refine Ring.formed_newcomer hown hnew hme h.before rfl rfl (fun x hx => ?_)
      ((ht p).mpr (.inr (.inr rfl))) ((ht owner).mpr (.inr (.inl rfl))) fun x => ?_
    · rcases (ht x).mp hx with hx | rfl | rfl
      · exact h.superpeers x hx.1
      · exact hown.1
      · exact h.member
    · rw [hu, h.peers, and_iff_left_of_imp fun hx => hpeer x hx.1.1]
      exact and_iff_left_of_imp fun hx heq => hnewpeer (heq ▸ hx.1)

/-- A peer that attaches remains what it is. -/
theorem me_attach (superpeer : NodeId) (superpeers : List NodeId) :
    (n.attach superpeer superpeers).me = n.me := by
  have hring : (n.attach superpeer superpeers).ring =
      (n.ring.replaceSuperpeers superpeers).insertSuperpeer superpeer := by
    unfold attach mapRing
    cases n.role <;> rfl
  obtain ⟨t, ht, -⟩ := Ring.insertSuperpeers_eq superpeers { n.ring with superpeers := ∅ }
  obtain ⟨u, hu, -⟩ := Ring.insertSuperpeer_eq (n.ring.replaceSuperpeers superpeers) superpeer
  rw [me, hring, hu, Ring.replaceSuperpeers, ht]
  rfl

theorem isSuperpeer_attach (superpeer : NodeId) (superpeers : List NodeId) :
    (n.attach superpeer superpeers).isSuperpeer = n.isSuperpeer := by
  unfold attach mapRing isSuperpeer directory?
  cases n.role <;> rfl

end Node

end ChunkDirectory
