import ChunkDirectory.Proofs.Overlay.Complete
import ChunkDirectory.Proofs.Protocol.Reached

/-!
# Repeated handovers

A request whose reply is lost is sent again. The first handling of an admission moves the pointer by
which a superpeer decides whom it admits, and the first handling of a promotion changes the role on
which the answer depends. A superpeer that admitted a newcomer has split its range there
(`Node.SplitAt`); to split it once more changes nothing (`Node.SplitAt.splitRing`), so whatever it
answers to the repetition it stays as it is (`Node.SplitAt.handleJoin`). A promoted node answers the
repetition that it was not promoted.
-/

namespace ChunkDirectory

namespace Node

variable {n m : Node} {new : NodeId} {snapshot : Snapshot} {old : Option NodeId}

/-- A superpeer has given up the range up to `new`. If it lists no other superpeer even so, it knows
the newcomer by its pointers only. -/
structure SplitAt (n : Node) (new : NodeId) : Prop where
  role : n.isSuperpeer = true
  ne : new ≠ n.me
  predecessor : n.ring.predecessor = some new
  unlisted : new ∉ n.ring.peers
  alone : n.ring.superpeers.isEmpty = true →
    n.ring.successor = some new ∧ n.ring.admits new = false ∧
      n.ring.peersIn ⟨n.me, new, .strict⟩ = []

theorem SplitAt.congr (h : n.SplitAt new) (hring : m.ring = n.ring) (hrole : m.role = n.role) :
    m.SplitAt new := by
  have hsuperpeer : m.isSuperpeer = n.isSuperpeer := by
    unfold isSuperpeer directory?
    rw [hrole]
  have hme : m.me = n.me := congrArg Ring.me hring
  exact ⟨hsuperpeer ▸ h.role, hme ▸ h.ne, hring ▸ h.predecessor, hring ▸ h.unlisted,
    by rw [hring, hme]; exact h.alone⟩

/-- What an admission as a superpeer makes of the ring. -/
theorem ring_of_welcome (h : n.welcome new true = (.superpeer snapshot old, m)) :
    m = n.mapRing (fun r => splitRing r snapshot.peers new n.ring.superpeers.isEmpty) ∧
      snapshot = n.snapshotFor (if n.ring.superpeers.isEmpty then n.me
        else (n.ring.previousBefore new).getD n.me) new := by
  unfold welcome at h
  by_cases hadmits : n.admits new = true
  · rw [hadmits] at h
    cases h
    exact ⟨rfl, rfl⟩
  · rw [Bool.eq_false_of_not_eq_true hadmits] at h
    cases h

/-- Who admits a newcomer has split its range there. -/
theorem splitAt_of_welcome (hrole : n.isSuperpeer = true) (hne : new ≠ n.me)
    (h : n.welcome new true = (.superpeer snapshot old, m)) : m.SplitAt new := by
  obtain ⟨hm, hsnapshot⟩ := ring_of_welcome h
  obtain ⟨t, u, hsplit, ht, hu⟩ :=
    Ring.splitRing_eq_of_ne snapshot.peers n.ring.superpeers.isEmpty hne
  have hring : m.ring = _ := (congrArg Node.ring hm).trans hsplit
  have hrole' : m.role = n.role := (congrArg Node.role hm).trans rfl
  have hme : m.me = n.me := (congrArg Ring.me hring).trans rfl
  refine ⟨?_, hme ▸ hne, congrArg Ring.predecessor hring, ?_, fun hempty => ?_⟩
  · rw [← hrole]
    unfold isSuperpeer directory?
    rw [hrole']
  · rw [hring]
    exact fun hnew => ((hu new).mp hnew).2 rfl
  · rw [hring] at hempty
    have hnone : ∀ x, x ∉ t := fun x hx => by
      have hlisted : x ∈ t.toList := hx
      rw [List.isEmpty_iff.mp hempty] at hlisted
      cases hlisted
    have halone : n.ring.superpeers.isEmpty = true := by
      refine List.isEmpty_iff.mpr (List.eq_nil_iff_forall_not_mem.mpr fun x hx => ?_)
      exact hnone x ((ht x).mpr (.inl hx))
    have hmoved : snapshot.peers = n.ring.peersIn ⟨n.me, new, .strict⟩ := by
      rw [hsnapshot, if_pos halone]
      rfl
    refine ⟨?_, ?_, ?_⟩
    · rw [hring]
      exact if_pos halone
    · rw [hring, ← Bool.not_eq_true]
      exact fun hadmits => hnone new ((ht new).mpr (.inr ⟨rfl, hadmits⟩))
    · rw [hring, hme]
      refine List.filter_eq_nil_iff.mpr fun x hx hstrict => ?_
      obtain ⟨⟨hlisted, hstays⟩, -⟩ := (hu x).mp hx
      rw [hmoved] at hstays
      exact hstays (List.mem_filter.mpr ⟨hlisted, hstrict⟩)

/-- To split a range where it is split changes nothing. -/
theorem SplitAt.splitRing (h : n.SplitAt new) (hempty : n.ring.superpeers.isEmpty = true) :
    Node.splitRing n.ring (n.ring.peersIn ⟨n.me, new, .strict⟩) new true = n.ring := by
  obtain ⟨hsuccessor, hreserved, hpeers⟩ := h.alone hempty
  obtain ⟨t, u, hsplit, ht, hu⟩ :=
    Ring.splitRing_eq_of_ne (n.ring.peersIn ⟨n.me, new, .strict⟩) true h.ne
  have hsame : t = n.ring.superpeers := NodeSet.eq_of_mem_iff fun x => by
    rw [ht, or_iff_left]
    rintro ⟨rfl, hadmits⟩
    rw [hreserved] at hadmits
    cases hadmits
  have hkept : u = n.ring.peers := NodeSet.eq_of_mem_iff fun x => by
    rw [hu, hpeers, and_iff_left_of_imp, and_iff_left (List.not_mem_nil)]
    rintro hx rfl
    exact h.unlisted hx.1
  rw [hsplit, hsame, hkept, if_pos rfl]
  exact congrArg₂ (fun p q => { n.ring with predecessor := p, successor := q })
    h.predecessor.symm hsuccessor.symm

/-- A superpeer does not admit its predecessor unless it lists no superpeer. -/
theorem SplitAt.admits_eq (h : n.SplitAt new) : n.admits new = n.ring.superpeers.isEmpty := by
  have houtside : Arc.contains ⟨new, n.me, .upperClosed⟩ new = false := by
    rw [← Bool.not_eq_true, Arc.mem_upperClosed_iff h.ne]
    exact Nat.lt_irrefl _
  rw [admits, h.predecessor]
  show (_ || Arc.contains ⟨new, n.me, .upperClosed⟩ new) = _
  rw [houtside, Bool.or_false]

/-- Whatever is answered to a newcomer that the range is split at, nothing changes, and nobody has
to be told. -/
theorem SplitAt.welcome (h : n.SplitAt new) :
    (∃ contact, n.welcome new true = (.redirect contact, n)) ∨
      ∃ snapshot, n.welcome new true = (.superpeer snapshot none, n) := by
  have hadmits := h.admits_eq
  cases hempty : n.ring.superpeers.isEmpty with
  | false =>
    rw [hempty] at hadmits
    refine .inl ⟨(n.ring.responsible new).getD n.me, ?_⟩
    rw [Node.welcome, hadmits]
    rfl
  | true =>
    rw [hempty] at hadmits
    have hsame : n.mapRing (fun r =>
        Node.splitRing r (n.ring.peersIn ⟨n.me, new, .strict⟩) new true) = n :=
      congrArg (fun r => { n with ring := r }) (h.splitRing hempty)
    refine .inr ⟨n.snapshotFor n.me new, ?_⟩
    rw [Node.welcome, hadmits]
    simp only [Bool.not_true, Bool.false_eq_true, if_false, hempty, if_true]
    exact congrArg _ hsame

end Node

open Protocol

variable {n n₁ : Node} {sender new : NodeId} {snapshot : Snapshot}

/-- A superpeer whose range is split at a newcomer answers it at once and stays as it is. -/
theorem Node.SplitAt.handleJoin (h : n.SplitAt new) :
    ∃ reply, Protocol.handleJoin new true n = .done reply n := by
  rcases h.welcome with ⟨contact, hwelcome⟩ | ⟨snapshot, hwelcome⟩
  · exact ⟨_, handleJoin_eq h.role h.ne hwelcome⟩
  · exact ⟨_, handleJoin_eq h.role h.ne hwelcome⟩

/-- A superpeer that answered a newcomer that it is accepted has split its range there. -/
theorem splitAt_of_accepted
    (h : (Protocol.handleJoin new true n).Yields (.joinAccepted snapshot) n₁) :
    n₁.SplitAt new := by
  by_cases hrole : n.isSuperpeer = true
  case neg =>
    have hrefused : Protocol.handleJoin new true n = .done (.status .notSuperpeer) n := by
      show (if !n.isSuperpeer then _ else _ : Task Message) n = _
      rw [if_pos (by simp [hrole])]
      rfl
    rw [hrefused] at h
    cases (Progress.yields_done.mp h).1
  by_cases hne : new = n.me
  case pos =>
    have hrefused : Protocol.handleJoin new true n =
        .done (.error "node ID already in use") n := by
      show (if !n.isSuperpeer then _ else if new = n.me then _ else _ : Task Message) n = _
      rw [if_neg (by simp [hrole]), if_pos hne]
      rfl
    rw [hrefused] at h
    cases (Progress.yields_done.mp h).1
  cases hwelcome : n.welcome new true with | mk admission m =>
  rw [handleJoin_eq hrole hne hwelcome] at h
  have hcore := core_of_admissionReply h
  cases admission with
  | redirect contact => cases (Progress.yields_done.mp h).1
  | peer superpeers => cases (Progress.yields_done.mp h).1
  | superpeer snapshot old =>
    exact (Node.splitAt_of_welcome hrole hne hwelcome).congr (congrArg (·.2.1) hcore)
      (congrArg (·.2.2) hcore)

/-- A newcomer that was listed when it was admitted is sent on to itself. -/
theorem Node.SplitAt.redirect (h : n.SplitAt new) (hlisted : new ∈ n.ring.superpeers) :
    Protocol.handleJoin new true n = .done (.joinRedirect new) n := by
  have hmany : n.ring.superpeers.isEmpty = false := by
    rw [← Bool.not_eq_true]
    exact fun hempty => List.ne_nil_of_mem hlisted (List.isEmpty_iff.mp hempty)
  have hresponsible : n.ring.responsible new = some new :=
    Ring.responsible_eq_some_iff.mpr (NodeSet.owns_self hlisted)
  have hwelcome : n.welcome new true = (.redirect new, n) := by
    rw [Node.welcome, h.admits_eq, hmany, hresponsible]
    rfl
  exact handleJoin_eq h.role h.ne hwelcome

/-! ## Promotion -/

/-- A node that answered that it was promoted is a superpeer. -/
theorem isSuperpeer_of_promoted {replacement : NodeId}
    (h : (handlePromotePeer snapshot replacement n).Yields (.promotionResult true) n₁) :
    n₁.isSuperpeer = true := by
  cases hrole : n.isSuperpeer with
  | true =>
    have hrefused : handlePromotePeer snapshot replacement n =
        .done (.promotionResult false) n := by
      show (if n.isSuperpeer then _ else _ : Task Message) n = _
      rw [if_pos hrole]
      rfl
    rw [hrefused] at h
    cases (Progress.yields_done.mp h).1
  | false =>
    rw [handlePromotePeer_eq snapshot replacement hrole] at h
    obtain ⟨moved, hsettle⟩ := Progress.yields_wait.mp h
    cases moved with
    | false => cases (Progress.yields_done.mp hsettle).1
    | true =>
      obtain ⟨status, m, hmutate, hrest⟩ := Task.yields_bind.mp hsettle
      obtain ⟨⟨⟩, m', hworker, hlast⟩ := Task.yields_bind.mp hrest
      rw [(Task.yields_pure.mp hlast).2, Task.yields_ask.mp hworker]
      exact (congrArg (·.2.2) (outlook_of_mutate hmutate)).trans rfl

/-! ## Repetitions -/

/-- The owner of the upper part of the small ring. -/
def upperOwner : Node := .complete Overlay.smallRing (Overlay.twoAttempts ⟨1000⟩ .superpeer)

/-- A peer in its range. -/
def upperPeer : Node := .complete Overlay.smallRing (Overlay.twoAttempts ⟨500⟩ .peer)

/-- A superpeer that answered a newcomer that it is accepted answers the repetition at once and
stays as it is, its ring included. A node that answered that it was promoted answers the repetition
at once that it was not, and stays as it is. -/
theorem handover_repeated (sender : NodeId) (n n₁ : Node) :
    (∀ new snapshot,
      (handleMessage sender (.join new true) n).Yields (.joinAccepted snapshot) n₁ →
        ∃ reply, handleMessage sender (.join new true) n₁ = .done reply n₁) ∧
    (∀ snapshot replacement,
      (handleMessage sender (.promotePeer snapshot replacement) n).Yields
          (.promotionResult true) n₁ →
        handleMessage sender (.promotePeer snapshot replacement) n₁ =
          .done (.promotionResult false) n₁) := by
  refine ⟨fun new snapshot h => (splitAt_of_accepted h).handleJoin,
    fun snapshot replacement h => ?_⟩
  have hrole := isSuperpeer_of_promoted h
  show (if n₁.isSuperpeer then _ else _ : Task Message) n₁ = _
  rw [if_pos hrole]
  rfl

theorem handover_repeated_upperOwner :
    (∃ snapshot n₁ reply,
      (handleMessage ⟨500⟩ (.join ⟨500⟩ true) upperOwner).Yields (.joinAccepted snapshot) n₁ ∧
      handleMessage ⟨500⟩ (.join ⟨500⟩ true) n₁ = .done reply n₁) ∧
    (∃ snapshot n₁,
      (handleMessage ⟨1000⟩ (.promotePeer snapshot ⟨600⟩) upperPeer).Yields
        (.promotionResult true) n₁ ∧
      handleMessage ⟨1000⟩ (.promotePeer snapshot ⟨600⟩) n₁ =
        .done (.promotionResult false) n₁) := by
  have haccepted : (handleMessage ⟨500⟩ (.join ⟨500⟩ true) upperOwner).Yields
      (.joinAccepted (upperOwner.snapshotFor ⟨0⟩ ⟨500⟩)) _ := .wait (.ok ()) .done
  have hpromoted : (handleMessage ⟨1000⟩ (.promotePeer (upperOwner.snapshotFor ⟨0⟩ ⟨500⟩) ⟨600⟩)
      upperPeer).Yields (.promotionResult true) _ :=
    .wait true (.wait (.ok .ack) (.wait (.ok .ack) (.wait () .done)))
  obtain ⟨reply, hreply⟩ := (handover_repeated ⟨500⟩ upperOwner _).1 _ _ haccepted
  exact ⟨⟨_, _, reply, haccepted, hreply⟩, _, _, hpromoted,
    (handover_repeated ⟨1000⟩ upperPeer _).2 _ _ hpromoted⟩

/-- A newcomer that was accepted is sent on to itself when it asks again, and a node that was
promoted denies it. -/
theorem handover_not_repeatable :
    (∃ snapshot n₁,
      (handleMessage ⟨500⟩ (.join ⟨500⟩ true) upperOwner).Yields (.joinAccepted snapshot) n₁ ∧
      (snapshot.predecessor, snapshot.successor) = (some ⟨0⟩, some ⟨1000⟩) ∧
      handleMessage ⟨500⟩ (.join ⟨500⟩ true) n₁ = .done (.joinRedirect ⟨500⟩) n₁) ∧
    (∃ snapshot n₁,
      (handleMessage ⟨1000⟩ (.promotePeer snapshot ⟨600⟩) upperPeer).Yields
        (.promotionResult true) n₁ ∧
      handleMessage ⟨1000⟩ (.promotePeer snapshot ⟨600⟩) n₁ =
        .done (.promotionResult false) n₁) := by
  have hpromoted : (handleMessage ⟨1000⟩ (.promotePeer (upperOwner.snapshotFor ⟨0⟩ ⟨500⟩) ⟨600⟩)
      upperPeer).Yields (.promotionResult true) _ :=
    .wait true (.wait (.ok .ack) (.wait (.ok .ack) (.wait () .done)))
  exact ⟨⟨_, _, .wait (.ok ()) .done, rfl, rfl⟩, _, _, hpromoted, rfl⟩

end ChunkDirectory
