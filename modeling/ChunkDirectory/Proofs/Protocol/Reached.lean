import ChunkDirectory.Proofs.Protocol.Handled
import ChunkDirectory.Proofs.Protocol.Notices
import ChunkDirectory.Proofs.Ring.Confined

/-!
# States reached by handling messages

A node handles messages one after the other, beginning as it was created (`Node.Reached`). Whatever
they are, its ring view stays confined: no list names the node itself or a reserved identifier, and
what its pointers name is listed, unless a message puts a reserved identifier next to the node
(`Node.Confined.handled`). A peer has no pointers and lists no peers. If no message does so, the view
is orderly in every state that is reached (`Node.Reached.orderly`). In the same way every tree stays
under its creator (`Node.Reached.keyed`).
-/

namespace ChunkDirectory

namespace Ring

variable {r : Ring} {pointer : Option NodeId}

/-- The lists name other nodes only, and the pointers listed superpeers only. -/
structure Orderly (r : Ring) : Prop where
  superpeers : ∀ x ∈ r.superpeers, r.admits x = true
  peers : ∀ x ∈ r.peers, r.admits x = true
  predecessor : ∀ x, r.predecessor = some x → x ∈ r.superpeers
  successor : ∀ x, r.successor = some x → x ∈ r.superpeers

/-- A view is orderly if no reserved identifier is excused. -/
theorem Confined.orderly (h : r.Confined fun _ => False) : r.Orderly :=
  ⟨h.superpeers, h.peers, fun x hx => (h.predecessor x hx).2.resolve_right And.right,
    fun x hx => (h.successor x hx).2.resolve_right And.right⟩

theorem Orderly.predecessor_of_isEmpty (h : r.Orderly) (hempty : r.superpeers.isEmpty = true) :
    r.predecessor = none := by
  cases hp : r.predecessor with
  | none => rfl
  | some p =>
    have hmem : p ∈ r.superpeers.toList := h.predecessor p hp
    rw [List.isEmpty_iff.mp hempty] at hmem
    cases hmem

/-- What a pointer is set to is not reserved. -/
def Proper (pointer : Option NodeId) : Prop := ∀ x, pointer = some x → x.isReserved = false

end Ring

/-- Who a snapshot puts next to the node that takes it over. -/
def Snapshot.pointers (s : Snapshot) : List NodeId := s.predecessor.toList ++ s.successor.toList

theorem Snapshot.mem_pointers {s : Snapshot} {x : NodeId} :
    x ∈ s.pointers ↔ s.predecessor = some x ∨ s.successor = some x := by
  rw [pointers, List.mem_append, Option.mem_toList, Option.mem_toList]

/-- Who a message may put next to its receiver. -/
def Message.neighbours : Message → List NodeId
  | .join newcomer true => [newcomer]
  | .notifyAboutNewPredecessor node => [node]
  | .notifyAboutNewSuccessor node => [node]
  | .promotePeer snapshot _ => snapshot.pointers
  | _ => []

namespace Node

variable {n n' : Node} {sender : NodeId} {message : Message} {excused : NodeId → Prop}

/-- The ring view is orderly, and only superpeers have a place on the ring. -/
structure Orderly (n : Node) : Prop where
  ring : n.ring.Orderly
  peer : n.isSuperpeer = false → n.ring.predecessor = none ∧ n.ring.successor = none

/-- The ring view is confined, and only superpeers have pointers and peers. -/
structure Confined (excused : NodeId → Prop) (n : Node) : Prop where
  ring : n.ring.Confined excused
  peer : n.isSuperpeer = false →
    n.ring.predecessor = none ∧ n.ring.successor = none ∧ n.ring.peers = ∅

theorem Confined.orderly (h : n.Confined fun _ => False) : n.Orderly :=
  ⟨h.ring.orderly, fun hpeer => ⟨(h.peer hpeer).1, (h.peer hpeer).2.1⟩⟩

/-- A superpeer that changes its ring view. -/
theorem confined_of_superpeer (hrole : n.isSuperpeer = true) (h : n.ring.Confined excused) :
    n.Confined excused :=
  ⟨h, fun hpeer => by rw [hrole] at hpeer; cases hpeer⟩

theorem confined_new (config : Config) : (Node.new config).Confined excused :=
  ⟨Ring.confined_new _ _ _, fun _ => ⟨rfl, rfl, rfl⟩⟩

/-- A pointer that is set if it is open names who it named before, or who it is set to. -/
theorem eq_or_of_getD {pointer : Option NodeId} {node x : NodeId}
    (h : some (pointer.getD node) = some x) : x = node ∨ pointer = some x := by
  cases pointer with
  | none => exact .inl (Option.some_inj.mp h).symm
  | some current => exact .inr h

namespace Confined

theorem congr (h : n.Confined excused) (hring : n'.ring = n.ring)
    (hrole : n'.isSuperpeer = n.isSuperpeer) : n'.Confined excused :=
  ⟨hring ▸ h.ring, hring ▸ hrole ▸ h.peer⟩

theorem noticePredecessor {node : NodeId} (h : n.Confined excused)
    (hnode : node.isReserved = true → excused node) : (n.noticePredecessor node).Confined excused := by
  by_cases htakes : n.TakesPredecessor node
  case neg =>
    rw [noticePredecessor_of_not_takes htakes]
    exact h
  case pos =>
    obtain ⟨t, ht, hmem⟩ := noticePredecessor_of_takes htakes
    obtain ⟨hrole, hne, -⟩ := htakes
    rw [ht]
    refine confined_of_superpeer hrole (h.ring.beside hne hnode hmem ?_ ?_)
    · exact fun y hy => .inl (Option.some_inj.mp hy).symm
    · exact fun y hy => eq_or_of_getD hy

theorem noticeSuccessor {node : NodeId} (h : n.Confined excused)
    (hnode : node.isReserved = true → excused node) : (n.noticeSuccessor node).Confined excused := by
  by_cases htakes : n.TakesSuccessor node
  case neg =>
    rw [noticeSuccessor_of_not_takes htakes]
    exact h
  case pos =>
    obtain ⟨t, ht, hmem⟩ := noticeSuccessor_of_takes htakes
    obtain ⟨hrole, hne, -⟩ := htakes
    rw [ht]
    refine confined_of_superpeer hrole (h.ring.beside hne hnode hmem ?_ ?_)
    · exact fun y hy => eq_or_of_getD hy
    · exact fun y hy => .inl (Option.some_inj.mp hy).symm

/-- A peer that starts its list of superpeers anew. -/
theorem renew (h : n.Confined excused) (hrole : n.isSuperpeer = false) (superpeers : List NodeId)
    (contact : NodeId) (hring : n'.ring =
      (n.ring.replaceSuperpeers superpeers).insertSuperpeer contact) : n'.Confined excused := by
  obtain ⟨hp, hq, hpeers⟩ := h.peer hrole
  obtain ⟨t, ht, -⟩ := Ring.insertSuperpeers_eq superpeers { n.ring with superpeers := ∅ }
  obtain ⟨t', ht', -⟩ := Ring.insertSuperpeer_eq (n.ring.replaceSuperpeers superpeers) contact
  refine ⟨?_, fun _ => ?_⟩
  · rw [hring]
    exact (h.ring.replaceSuperpeers hp hq superpeers).insertSuperpeer contact
  · rw [hring, ht', Ring.replaceSuperpeers, ht]
    exact ⟨hp, hq, hpeers⟩

theorem noticeSuperpeers (h : n.Confined excused) (sender : NodeId) (superpeers : List NodeId) :
    (n.noticeSuperpeers sender superpeers).Confined excused := by
  cases hrole : n.role with
  | superpeer d =>
    have hsuperpeer : n.isSuperpeer = true := by rw [isSuperpeer, directory?, hrole]; rfl
    rw [noticeSuperpeers_of_superpeer hsuperpeer]
    exact confined_of_superpeer hsuperpeer (h.ring.insertSuperpeer sender)
  | peer attached =>
    have hpeer : n.isSuperpeer = false := by rw [isSuperpeer, directory?, hrole]; rfl
    exact h.renew hpeer superpeers sender (by rw [Node.noticeSuperpeers, hrole])

theorem welcome {newcomer : NodeId} {isSuperpeer : Bool} (h : n.Confined excused)
    (hrole : n.isSuperpeer = true)
    (hnewcomer : isSuperpeer = true → newcomer.isReserved = true → excused newcomer) :
    (n.welcome newcomer isSuperpeer).2.Confined excused := by
  unfold Node.welcome
  split
  case isTrue => exact h
  case isFalse =>
    cases isSuperpeer with
    | false => exact confined_of_superpeer hrole (h.ring.insertPeer newcomer)
    | true => exact confined_of_superpeer hrole (h.ring.splitRing _ _ (hnewcomer rfl))

/-- Whatever message a node handles, its ring view stays confined. -/
theorem handled (h : n.Confined excused)
    (hmessage : ∀ x ∈ message.neighbours, x.isReserved = true → excused x)
    (hn' : n.Handled sender message n') : n'.Confined excused := by
  have hpromoted {snapshot : Snapshot}
      (hpointers : ∀ x ∈ snapshot.pointers, x.isReserved = true → excused x) :
      (Protocol.becomeSuperpeer n snapshot).Confined excused :=
    confined_of_superpeer rfl (.of_adopt
      (fun x hx => hpointers x (Snapshot.mem_pointers.mpr (.inl hx)))
      fun x hx => hpointers x (Snapshot.mem_pointers.mpr (.inr hx)))
  cases hn' with
  | kept => exact h
  | mutated => exact h.congr ring_mutate isSuperpeer_mutate
  | @welcomed newcomer isSuperpeer hrole =>
    refine h.welcome hrole fun hsuper => ?_
    subst hsuper
    exact hmessage newcomer List.mem_cons_self
  | promoted => exact hpromoted hmessage
  | settled => exact (hpromoted hmessage).congr ring_mutate isSuperpeer_mutate
  | predecessor => exact h.noticePredecessor (hmessage _ List.mem_cons_self)
  | successor => exact h.noticeSuccessor (hmessage _ List.mem_cons_self)
  | failedPeer => exact h.congr (ring_mapDirectory _) (isSuperpeer_mapDirectory _)
  | stored => exact h.congr (ring_mapDirectory _) (isSuperpeer_mapDirectory _)
  | superpeers => exact h.noticeSuperpeers sender _

end Confined

end Node

/-- No identifier that the message may put next to its receiver is reserved. -/
def Message.Proper : Message → Prop
  | .join node _ => node.isReserved = false
  | .notifyAboutNewPredecessor node => node.isReserved = false
  | .notifyAboutNewSuccessor node => node.isReserved = false
  | .promotePeer snapshot _ =>
    Ring.Proper snapshot.predecessor ∧ Ring.Proper snapshot.successor
  | _ => True

theorem Message.Proper.neighbours {message : Message} {x : NodeId} (h : message.Proper)
    (hx : x ∈ message.neighbours) : x.isReserved = false := by
  cases message with
  | join newcomer isSuperpeer =>
    cases isSuperpeer with
    | false => cases hx
    | true =>
      rw [List.mem_singleton.mp hx]
      exact h
  | notifyAboutNewPredecessor node =>
    rw [List.mem_singleton.mp hx]
    exact h
  | notifyAboutNewSuccessor node =>
    rw [List.mem_singleton.mp hx]
    exact h
  | promotePeer snapshot replacement =>
    rcases Snapshot.mem_pointers.mp hx with hp | hq
    · exact h.1 x hp
    · exact h.2 x hq
  | _ => cases hx

open Protocol

namespace Node

variable {n n' : Node} {sender : NodeId} {message : Message}

theorem keyed_new (config : Config) : (Node.new config).Keyed := by
  intro d hd
  unfold Node.new directory? at hd
  cases hrole : config.role with
  | superpeer =>
    rw [hrole] at hd
    cases hd
    exact TreeTable.keyed_empty
  | peer =>
    rw [hrole] at hd
    cases hd

theorem keyed_becomeSuperpeer (n : Node) (snapshot : Snapshot) :
    (becomeSuperpeer n snapshot).Keyed := by
  rintro d ⟨⟩
  exact (TreeTable.keyed_empty.insertAll snapshot.trees).modify fun _ => rfl

/-- Whatever message a node handles, its trees stay under their creators. -/
theorem Keyed.handled (h : n.Keyed) (hn' : n.Handled sender message n') : n'.Keyed := by
  cases hn' with
  | kept => exact h
  | mutated => exact (evolves_mutate n _).keyed h
  | welcomed =>
    unfold welcome
    split
    case isTrue => exact h
    case isFalse => split <;> exact h
  | promoted => exact keyed_becomeSuperpeer n _
  | settled => exact (evolves_mutate _ _).keyed (keyed_becomeSuperpeer n _)
  | predecessor =>
    unfold noticePredecessor
    split
    case isTrue => exact h
    case isFalse =>
      dsimp only
      split <;> split <;> exact h
  | successor =>
    unfold noticeSuccessor
    split
    case isTrue => exact h
    case isFalse =>
      dsimp only
      split <;> split <;> exact h
  | @failedPeer failed =>
    refine h.mapDirectory fun d hd => ?_
    have herased : (d.trees.eraseBackup failed).Keyed :=
      TreeTable.Keyed.mapValues (fun _ => rfl) hd
    exact herased.modify fun _ => rfl
  | stored => exact h.store _ _
  | superpeers =>
    cases hrole : n.role with
    | superpeer d =>
      rw [noticeSuperpeers, hrole]
      exact h
    | peer attached =>
      rw [noticeSuperpeers, hrole]
      exact keyed_of_peer rfl

end Node

/-! ## Runs -/

/-- A state a node comes to by handling messages one after the other, without a reserved identifier
among those that may come next to it. -/
inductive Node.Reached : Node → Prop
  | new (config : Config) : Reached (Node.new config)
  | handled {n n' : Node} {sender : NodeId} {message reply : Message} :
      Reached n → message.Proper → (handleMessage sender message n).Yields reply n' → Reached n'

namespace Node.Reached

variable {n : Node}

/-- Every state that is reached by handling messages is orderly. -/
theorem orderly (h : n.Reached) : n.Orderly := by
  refine Confined.orderly ?_
  induction h with
  | new config => exact confined_new config
  | @handled n n' sender message _ _ hmessage hyields ih =>
    obtain ⟨m, hm, hcore⟩ := handled_of_handleMessage hyields
    have hneighbours : ∀ x ∈ message.neighbours, x.isReserved = true → False := by
      intro x hx hreserved
      rw [hmessage.neighbours hx] at hreserved
      cases hreserved
    exact (ih.handled hneighbours hm).congr (congrArg (·.2.1) hcore) (isSuperpeer_of_core hcore)

/-- In every state that is reached by handling messages the trees are stored under their
creators. -/
theorem keyed (h : n.Reached) : n.Keyed := by
  induction h with
  | new config => exact keyed_new config
  | handled _ _ hyields ih =>
    obtain ⟨m, hm, hcore⟩ := handled_of_handleMessage hyields
    exact (evolves_of_core hcore).keyed (ih.handled hm)

end Node.Reached

end ChunkDirectory
