import ChunkDirectory.Proofs.Ring.Tended

/-!
# What a ring view names

A view lists other nodes only, and no reserved identifiers. Its pointers name listed superpeers, with
one exception: a pointer can be set to a reserved identifier, which is not listed then. Where such
identifiers come from is a parameter, the identifiers that are `excused` (`Ring.Confined`); if none
is, every pointer names a listed superpeer. Each change of a view keeps it confined.
-/

namespace ChunkDirectory.Ring

/-- The lists name other nodes only, and a pointer another node that is listed, or else one of the
excused reserved identifiers. -/
structure Confined (excused : NodeId → Prop) (r : Ring) : Prop where
  superpeers : ∀ x ∈ r.superpeers, r.admits x = true
  peers : ∀ x ∈ r.peers, r.admits x = true
  predecessor : ∀ x, r.predecessor = some x →
    x ≠ r.me ∧ (x ∈ r.superpeers ∨ x.isReserved = true ∧ excused x)
  successor : ∀ x, r.successor = some x →
    x ≠ r.me ∧ (x ∈ r.superpeers ∨ x.isReserved = true ∧ excused x)

variable {excused : NodeId → Prop} {adds : Prop} {r r₀ : Ring} {id new x : NodeId}
  {pointer : Option NodeId}

theorem confined_new (me bootstrap : NodeId) (expected : Nat) :
    (Ring.new me bootstrap expected).Confined excused := by
  refine ⟨fun x hx => ?_, fun x hx => ?_, fun x hx => ?_, fun x hx => ?_⟩ <;> cases hx

/-- What a pointer comes to name: another node, listed with it unless it is reserved. -/
theorem named_of_filter (hpointer : ∀ x, pointer = some x → x.isReserved = true → excused x)
    (h : pointer.filter (· ≠ r.me) = some x) :
    x ≠ r.me ∧ (pointer = some x ∧ r.admits x = true ∨ x.isReserved = true ∧ excused x) := by
  obtain ⟨hp, hne⟩ := Option.filter_eq_some_iff.mp h
  have hother : x ≠ r.me := of_decide_eq_true hne
  cases hreserved : x.isReserved with
  | true => exact ⟨hother, .inr ⟨rfl, hpointer x hp hreserved⟩⟩
  | false => exact ⟨hother, .inl ⟨hp, admits_iff.mpr ⟨hother, hreserved⟩⟩⟩

namespace Confined

/-- A view in which more superpeers are listed. -/
theorem widen {t : NodeSet} (h : r.Confined excused)
    (ht : ∀ x, x ∈ r.superpeers → x ∈ t) (hadmits : ∀ x ∈ t, r.admits x = true) :
    ({ r with superpeers := t } : Ring).Confined excused :=
  ⟨hadmits, h.peers, fun x hx => ⟨(h.predecessor x hx).1, (h.predecessor x hx).2.imp_left (ht x)⟩,
    fun x hx => ⟨(h.successor x hx).1, (h.successor x hx).2.imp_left (ht x)⟩⟩

theorem insertSuperpeer (h : r.Confined excused) (id : NodeId) :
    (r.insertSuperpeer id).Confined excused := by
  obtain ⟨t, ht, hmem⟩ := insertSuperpeer_eq r id
  rw [ht]
  refine h.widen (fun x hx => (hmem x).mpr (.inl hx)) fun x hx => ?_
  rcases (hmem x).mp hx with hx | ⟨-, hadmits⟩
  · exact h.superpeers x hx
  · exact hadmits

theorem insertPeer (h : r.Confined excused) (id : NodeId) : (r.insertPeer id).Confined excused := by
  obtain ⟨u, hu, hmem⟩ := insertPeer_eq r id
  rw [hu]
  refine ⟨h.superpeers, fun x hx => ?_, h.predecessor, h.successor⟩
  rcases (hmem x).mp hx with hx | ⟨-, hadmits⟩
  · exact h.peers x hx
  · exact hadmits

theorem removePeers (h : r.Confined excused) (ids : List NodeId) :
    (r.removePeers ids).Confined excused := by
  obtain ⟨u, hu, hmem⟩ := removePeers_eq ids r
  rw [hu]
  exact ⟨h.superpeers, fun x hx => h.peers x ((hmem x).mp hx).1, h.predecessor, h.successor⟩

theorem setSuccessor (h : r.Confined excused)
    (hpointer : ∀ x, pointer = some x → x.isReserved = true → excused x) :
    (r.setSuccessor pointer).Confined excused := by
  obtain ⟨t, ht, hmem⟩ := setSuccessor_shape r pointer
  have hwide : ({ r with superpeers := t } : Ring).Confined excused := by
    refine h.widen (fun x hx => (hmem x).mpr (.inl hx)) fun x hx => ?_
    rcases (hmem x).mp hx with hx | ⟨-, hadmits⟩
    · exact h.superpeers x hx
    · exact hadmits
  rw [ht]
  refine ⟨hwide.superpeers, hwide.peers, hwide.predecessor, fun x hx => ?_⟩
  obtain ⟨hne, hnamed⟩ := named_of_filter hpointer hx
  exact ⟨hne, hnamed.imp_left fun hlisted => (hmem x).mpr (.inr hlisted)⟩

theorem setPredecessor (h : r.Confined excused)
    (hpointer : ∀ x, pointer = some x → x.isReserved = true → excused x) :
    (r.setPredecessor pointer).Confined excused := by
  obtain ⟨t, ht, hmem⟩ := setPredecessor_shape r pointer
  have hwide : ({ r with superpeers := t } : Ring).Confined excused := by
    refine h.widen (fun x hx => (hmem x).mpr (.inl hx)) fun x hx => ?_
    rcases (hmem x).mp hx with hx | ⟨-, hadmits⟩
    · exact h.superpeers x hx
    · exact hadmits
  rw [ht]
  refine ⟨hwide.superpeers, hwide.peers, fun x hx => ?_, hwide.successor⟩
  obtain ⟨hne, hnamed⟩ := named_of_filter hpointer hx
  exact ⟨hne, hnamed.imp_left fun hlisted => (hmem x).mpr (.inr hlisted)⟩

/-- A view in which another node was set next to this one. -/
theorem beside {t : NodeSet} {p q : Option NodeId} (h : r.Confined excused) (hne : x ≠ r.me)
    (hx : x.isReserved = true → excused x)
    (ht : ∀ y, y ∈ t ↔ y ∈ r.superpeers ∨ y = x ∧ r.admits y = true)
    (hp : ∀ y, p = some y → y = x ∨ r.predecessor = some y)
    (hq : ∀ y, q = some y → y = x ∨ r.successor = some y) :
    ({ r with superpeers := t, predecessor := p, successor := q } : Ring).Confined excused := by
  have hwide : ({ r with superpeers := t } : Ring).Confined excused := by
    refine h.widen (fun y hy => (ht y).mpr (.inl hy)) fun y hy => ?_
    rcases (ht y).mp hy with hy | ⟨-, hadmits⟩
    · exact h.superpeers y hy
    · exact hadmits
  have hself : x ≠ r.me ∧ (x ∈ t ∨ x.isReserved = true ∧ excused x) := by
    cases hreserved : x.isReserved with
    | true => exact ⟨hne, .inr ⟨rfl, hx hreserved⟩⟩
    | false => exact ⟨hne, .inl ((ht x).mpr (.inr ⟨rfl, admits_iff.mpr ⟨hne, hreserved⟩⟩))⟩
  refine ⟨hwide.superpeers, hwide.peers, fun y hy => ?_, fun y hy => ?_⟩
  · rcases hp y hy with rfl | hold
    · exact hself
    · exact hwide.predecessor y hold
  · rcases hq y hy with rfl | hold
    · exact hself
    · exact hwide.successor y hold

theorem splitRing (h : r.Confined excused) (moved : List NodeId) (alone : Bool)
    (hnew : new.isReserved = true → excused new) :
    (Node.splitRing r moved new alone).Confined excused := by
  have hpointer : ∀ x, some new = some x → x.isReserved = true → excused x :=
    fun x hx => by cases hx; exact hnew
  have hpeers : ((r.removePeers moved).removePeer new).Confined excused :=
    (h.removePeers moved).removePeers [new]
  unfold Node.splitRing
  cases alone with
  | false => exact hpeers.setPredecessor hpointer
  | true => exact (hpeers.setSuccessor hpointer).setPredecessor hpointer

theorem removeSuperpeer (h : r.Confined excused) (id : NodeId) :
    (r.removeSuperpeer id).Confined excused := by
  obtain ⟨hmem, hpeers, hpredecessor, hsuccessor⟩ := removeSuperpeer_shape r id
  have hsame : ∀ x, (r.removeSuperpeer id).admits x = r.admits x := by
    intro x
    rw [admits, admits, me_removeSuperpeer]
  have hlists : ∀ x ∈ (r.removeSuperpeer id).superpeers, (r.removeSuperpeer id).admits x = true := by
    intro x hx
    rw [hsame]
    exact h.superpeers x ((hmem x).mp hx).1
  -- A pointer names who it named before, or a superpeer that is left.
  have hnamed : ∀ x, (x ≠ r.me ∧ (x ∈ r.superpeers ∨ x.isReserved = true ∧ excused x)) ∧
        (x = id → id ∉ r.superpeers) →
      x ≠ (r.removeSuperpeer id).me ∧
        (x ∈ (r.removeSuperpeer id).superpeers ∨ x.isReserved = true ∧ excused x) := by
    rintro x ⟨⟨hne, hold⟩, hgone⟩
    rw [me_removeSuperpeer]
    refine ⟨hne, hold.imp_left fun hx => (hmem x).mpr ⟨hx, ?_⟩⟩
    rintro rfl
    exact hgone rfl hx
  have hleft : ∀ x ∈ (r.removeSuperpeer id).superpeers, x ≠ (r.removeSuperpeer id).me ∧
      (x ∈ (r.removeSuperpeer id).superpeers ∨ x.isReserved = true ∧ excused x) :=
    fun x hx => ⟨(admits_iff.mp (hlists x hx)).1, .inl hx⟩
  refine ⟨hlists, fun x hx => ?_, fun x hx => ?_, fun x hx => ?_⟩
  · rw [hpeers] at hx
    rw [hsame]
    exact h.peers x hx
  · rcases hpredecessor x hx with hlisted | ⟨hp, hgone⟩
    · exact hleft x hlisted
    · exact hnamed x ⟨h.predecessor x hp, hgone⟩
  · rcases hsuccessor x hx with hlisted | ⟨hq, hgone⟩
    · exact hleft x hlisted
    · exact hnamed x ⟨h.successor x hq, hgone⟩

/-- Of the lists and pointers a snapshot is taken over into, nothing remains. -/
theorem of_adopt {snapshot : Snapshot}
    (hp : ∀ x, snapshot.predecessor = some x → x.isReserved = true → excused x)
    (hq : ∀ x, snapshot.successor = some x → x.isReserved = true → excused x) :
    (r.adopt snapshot).Confined excused := by
  obtain ⟨t, u, hadopt, ht, hu⟩ := adopt_shape r snapshot
  rw [hadopt]
  refine ⟨fun x hx => ((ht x).mp hx).2, fun x hx => ((hu x).mp hx).2, fun x hx => ?_,
    fun x hx => ?_⟩
  · obtain ⟨hne, hnamed⟩ := named_of_filter hp hx
    exact ⟨hne, hnamed.imp_left fun hlisted => (ht x).mpr ⟨.inr (.inr hlisted.1), hlisted.2⟩⟩
  · obtain ⟨hne, hnamed⟩ := named_of_filter hq hx
    exact ⟨hne, hnamed.imp_left fun hlisted => (ht x).mpr ⟨.inr (.inl hlisted.1), hlisted.2⟩⟩

/-- Without pointers the list of superpeers may be started anew. -/
theorem replaceSuperpeers (h : r.Confined excused) (hpredecessor : r.predecessor = none)
    (hsuccessor : r.successor = none) (ids : List NodeId) :
    (r.replaceSuperpeers ids).Confined excused := by
  obtain ⟨t, ht, hmem⟩ := insertSuperpeers_eq ids { r with superpeers := ∅ }
  have hnone : ∀ x : NodeId, x ∉ (∅ : NodeSet) := fun x h => by cases h
  rw [Ring.replaceSuperpeers, ht]
  refine ⟨fun x hx => (((hmem x).mp hx).resolve_left (hnone x)).2, h.peers, fun x hx => ?_,
    fun x hx => ?_⟩
  · rw [hpredecessor] at hx
    cases hx
  · rw [hsuccessor] at hx
    cases hx

/-- Tending keeps a view confined. Who is promoted was a peer, and reserved identifiers are not. -/
theorem tended (h : r₀.Confined excused) (hr : Tended adds r₀ r) : r.Confined excused := by
  induction hr with
  | refl => exact h
  | bootstrap id _ ih => exact ⟨ih.superpeers, ih.peers, ih.predecessor, ih.successor⟩
  | lose id _ ih => exact ih.removeSuperpeer id
  | list _ _ _ ih => exact ih.insertPeer _
  | forget id _ ih => exact ih.removePeers [id]
  | split moved alone hbefore hnew hr _ ih =>
    refine ih.splitRing moved alone fun hreserved => ?_
    have hadmits := hbefore.admits_promoted h.peers hnew hr
    rw [(admits_iff.mp hadmits).2] at hreserved
    cases hreserved

end Confined

end ChunkDirectory.Ring
