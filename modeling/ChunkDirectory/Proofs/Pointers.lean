import ChunkDirectory.Proofs.Overlay.Complete
import ChunkDirectory.Proofs.Protocol.Life
import ChunkDirectory.Proofs.Protocol.Reached

/-!
# Pointers and lists

What the view of a node may name, whatever the node has dealt with. The lists never name the node
itself or a reserved identifier, and a pointer never names the node itself. What a pointer names is
listed, with one exception: a reserved identifier that a message or an admission puts next to the
node is kept as a pointer although it is refused by the list (`Node.pointers_confined`).

Failures and promotions are no exception. A pointer that loses its superpeer moves to one that is
left, and who is promoted has been a peer, which reserved identifiers are not.
-/

namespace ChunkDirectory

open Protocol

namespace Node

/-- Who an event may put next to the node. -/
def Event.neighbours : Event → List NodeId
  | .message _ received => received.neighbours
  | .reply _ (.joinAccepted snapshot) => snapshot.pointers
  | _ => []

variable {n n' : Node} {e : Event} {excused : NodeId → Prop} {x : NodeId}

namespace Confined

theorem install {snapshot : Snapshot} (hrole : n.isSuperpeer = true)
    (hsnapshot : ∀ x ∈ snapshot.pointers, x.isReserved = true → excused x) :
    (n.install snapshot).Confined excused := by
  have hadopt : (n.mapRing (·.adopt snapshot)).Confined excused :=
    confined_of_superpeer hrole (.of_adopt
      (fun x hx => hsnapshot x (Snapshot.mem_pointers.mpr (.inl hx)))
      fun x hx => hsnapshot x (Snapshot.mem_pointers.mpr (.inr hx)))
  exact hadopt.congr (ring_mapDirectory _) (isSuperpeer_mapDirectory _)

theorem attach (h : n.Confined excused) (hrole : n.isSuperpeer = false) (contact : NodeId)
    (superpeers : List NodeId) : (n.attach contact superpeers).Confined excused := by
  refine h.renew hrole superpeers contact ?_
  unfold Node.attach
  dsimp only
  split <;> rfl

theorem tended (h : n.Confined excused) (hn' : n.Tended (n.isSuperpeer = true) n') :
    n'.Confined excused := by
  refine ⟨h.ring.tended hn'.ring, fun hrole => ?_⟩
  rw [hn'.role] at hrole
  obtain ⟨hp, hq, hpeers⟩ := h.peer hrole
  exact (hn'.ring.mono fun hsuper => by rw [hrole] at hsuper; cases hsuper).of_peer hp hq hpeers

/-- Whatever a node deals with, its view stays confined, as long as the reserved identifiers that are
put next to it are excused. -/
theorem becomes (h : n.Confined excused)
    (he : ∀ x ∈ e.neighbours, x.isReserved = true → excused x) (hn' : n.Becomes e n') :
    n'.Confined excused := by
  cases dealt_of_becomes hn' with
  | handled hm hcore =>
    exact (h.handled he hm).congr (congrArg (·.2.1) hcore) (isSuperpeer_of_core hcore)
  | installed hrole => exact install hrole he
  | attached hrole => exact h.attach hrole _ _
  | ignored => exact h
  | tended hn' => exact h.tended hn'

end Confined

/-- Every state that arises is confined. -/
theorem Arises.confined
    (h : n.Arises fun _ e => ∀ x ∈ e.neighbours, x.isReserved = true → excused x) :
    n.Confined excused := by
  induction h with
  | new config => exact confined_new config
  | next _ he hbecomes ih => exact ih.becomes he hbecomes

/-- In every state that arises, the lists name other nodes and no reserved identifiers, and a pointer
names another node, which is listed unless it is an excused reserved identifier: one that some event
put next to the node. It happens: a superpeer that is told of such a predecessor closer than the one
it has takes it, and does not list it. -/
theorem pointers_confined (excused : NodeId → Prop) :
    (∀ n : Node, (n.Arises fun _ e => ∀ x ∈ e.neighbours, x.isReserved = true → excused x) →
      (∀ x ∈ n.ring.superpeers, x ≠ n.me ∧ x.isReserved = false) ∧
      (∀ x ∈ n.ring.peers, x ≠ n.me ∧ x.isReserved = false) ∧
      ∀ x, n.ring.predecessor = some x ∨ n.ring.successor = some x →
        x ≠ n.me ∧ (x ∈ n.ring.superpeers ∨ x.isReserved = true ∧ excused x)) ∧
    ∀ (n n' : Node) (sender x : NodeId),
      (n.Arises fun _ e => ∀ x ∈ e.neighbours, x.isReserved = true → excused x) →
      n.TakesPredecessor x → x.isReserved = true →
      n.Becomes (.message sender (.notifyAboutNewPredecessor x)) n' →
      n'.ring.predecessor = some x ∧ x ∉ n'.ring.superpeers := by
  constructor
  · intro n harises
    obtain ⟨⟨hsuperpeers, hpeers, hp, hq⟩, -⟩ := harises.confined
    refine ⟨fun x hx => Ring.admits_iff.mp (hsuperpeers x hx),
      fun x hx => Ring.admits_iff.mp (hpeers x hx), ?_⟩
    rintro x (hx | hx)
    · exact hp x hx
    · exact hq x hx
  · intro n n' sender x harises htakes hreserved hn'
    have hall : n'.Confined fun _ => True :=
      Confined.becomes (Arises.confined (harises.mono fun _ _ _ _ _ _ => trivial))
        (fun _ _ _ => trivial) hn'
    have hring : n'.ring = (n.noticePredecessor x).ring := by
      cases hn' with
      | message hyields => rw [(Progress.yields_done.mp hyields).2]
    refine ⟨?_, fun hlisted => ?_⟩
    · rw [hring]
      obtain ⟨t, ht, -⟩ := noticePredecessor_of_takes htakes
      rw [ht]
    · have hadmits := (Ring.admits_iff.mp (hall.ring.superpeers x hlisted)).2
      rw [hreserved] at hadmits
      cases hadmits

/-- A superpeer that has just been started is told that the identifier for missing nodes precedes it.
-/
theorem pointers_confined_started :
    ∃ n n' : Node, n.isSuperpeer = true ∧
      n.Becomes (.message ⟨500⟩ (.notifyAboutNewPredecessor .invalid)) n' ∧
      n'.ring.predecessor = some .invalid ∧ NodeId.invalid ∉ n'.ring.superpeers ∧
      NodeId.invalid ≠ n'.me := by
  let n := Node.new (Overlay.twoAttempts ⟨1000⟩ .superpeer)
  have hn' : n.Becomes (.message ⟨500⟩ (.notifyAboutNewPredecessor .invalid))
      (n.noticePredecessor .invalid) := .message Progress.Yields.done
  have hallowed : ∀ x ∈ Event.neighbours (.message ⟨500⟩ (.notifyAboutNewPredecessor .invalid)),
      x.isReserved = true → x = .invalid := fun x hx _ => List.mem_singleton.mp hx
  obtain ⟨hconfined, hnoticed⟩ := pointers_confined (· = .invalid)
  obtain ⟨hpredecessor, hunlisted⟩ := hnoticed n _ ⟨500⟩ .invalid (.new _)
    ⟨rfl, by decide, fun _ hp => by cases hp⟩ rfl hn'
  obtain ⟨-, -, hpointers⟩ := hconfined _ (.next (.new _) hallowed hn')
  exact ⟨n, _, rfl, hn', hpredecessor, hunlisted, (hpointers _ (.inl hpredecessor)).1⟩

end Node

end ChunkDirectory
