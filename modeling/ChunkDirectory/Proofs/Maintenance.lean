import ChunkDirectory.Proofs.Placement
import ChunkDirectory.Proofs.Protocol.Refresh

/-!
# Maintenance of copies

Once in a while a superpeer fetches what is missing or out of date from the owners in its area and
drops what lies outside. Whatever it held before, it then holds for every position in its area what
the owner holds there, and nothing outside of it. What it owns itself is left alone, and so is what
the owner does not have (`Overlay.Settled.copies_maintained`).
-/

namespace ChunkDirectory

open NodeId Protocol

namespace Ring.Exact

variable {s : NodeSet} {r : Ring} {start next b c : NodeId} {front : List NodeId}

/-- The successor owns the next position among the others. -/
theorem successor_eq (h : r.Exact s) : r.successor = r.responsible (r.me.forward 1) := by
  apply Option.ext
  intro x
  rw [h.successor, responsible_eq_some_iff, h.superpeers, ← NodeSet.after_erase_self]
  constructor
  · exact fun hafter => hafter.owns_forward
  · intro hown
    obtain ⟨y, hy⟩ := NodeSet.exists_after hown.1 (NodeSet.mem_erase.mp hown.1).2
    exact hy.owns_forward.unique hown ▸ hy

/-- Behind the start of the window somebody else comes first. -/
theorem passed_next (hround : (s.erase r.me).roundFrom r.me = front ++ [start, next, b, c]) :
    next ∈ s ∧ Passed (start.forward 1) r.me next := by
  have hmem : ∀ x ∈ [start, next, b, c], x ∈ s ∧ x ≠ r.me := fun x hx =>
    NodeSet.mem_erase.mp (NodeSet.mem_roundFrom.mp (hround ▸ List.mem_append_right front hx))
  have hasc := (s.erase r.me).roundFrom_ascending r.me
  rw [hround] at hasc
  have hlt := (List.pairwise_cons.mp (List.pairwise_append.mp hasc).2.1).1 next List.mem_cons_self
  obtain ⟨-, hstart⟩ := hmem start List.mem_cons_self
  obtain ⟨hnext, hother⟩ := hmem next (List.mem_cons_of_mem _ List.mem_cons_self)
  refine ⟨hnext, (passed_forward_iff hstart).mpr ⟨hother, ?_⟩⟩
  have hturn := clockwise_add_swap hstart
  have hturn' := clockwise_add_swap hother
  omega

end Ring.Exact

/-- Where a superpeer begins to go through its area: the superpeer before the area and the first
owner to ask. -/
def Area.entrance (area : Area) (r : Ring) : NodeId × Option NodeId :=
  match area with
  | .everything => (r.me, r.successor)
  | .window start _ => (start, r.responsible (start.forward 1))

/-- The owner of the position after the entrance is asked first, and the way from there to the
superpeer covers the area. Unless the superpeer is alone somebody is met on it. -/
theorem Ring.Exact.exists_entrance {s : NodeSet} {r : Ring} (h : r.Exact s) :
    ∃ old, (r.area r.me).entrance r = (old, r.responsible (old.forward 1)) ∧
      (∀ key, (r.area r.me).contains key = true →
        clockwise key r.me ≤ clockwise (old.forward 1) r.me) ∧
      ((∃ w ∈ s, w ≠ r.me) → ∃ w ∈ s, Passed (old.forward 1) r.me w) := by
  by_cases hsize : r.superpeers.size ≤ replicas
  · -- A turn of the ring, which begins and ends at the superpeer itself.
    have hturn : ∀ x, clockwise x r.me ≤ clockwise (r.me.forward 1) r.me := fun x => by
      have hlt := clockwise_lt x r.me
      rw [clockwise_forward, if_pos rfl]
      omega
    have harea : r.area r.me = .everything := by rw [Ring.area, if_pos hsize]
    rw [harea]
    refine ⟨r.me, Prod.ext rfl h.successor_eq, fun key _ => hturn key, ?_⟩
    rintro ⟨w, hw, hne⟩
    exact ⟨w, hw, hne, hturn w⟩
  · obtain ⟨front, start, next, b, c, hround⟩ := h.exists_window (Nat.not_le.mp hsize)
    rw [h.area_eq hround]
    exact ⟨start, rfl, fun _ hkey => Arc.mem_upperClosed_iff_forward.mp hkey,
      fun _ => ⟨next, Ring.Exact.passed_next hround⟩⟩

namespace Overlay

variable {ρ : Type} {o o₁ : Overlay ρ} {s : NodeSet} {id : NodeId} {n : Node} {area : Area}

theorem leads_gatherBackups_of (hn : o.node? id = some n) (hrole : n.isSuperpeer = true)
    (h : Leads o id (gatherFrom (area.entrance n.ring).1 (area.entrance n.ring).2
      (n.ring.superpeers.size + 1)) () o₁) : Leads o id (gatherBackups area) () o₁ := by
  unfold gatherBackups
  refine Leads.node_bind hn ?_
  rw [if_pos hrole]
  cases area <;> exact h

namespace Settled

/-- A superpeer asks all owners in its area but itself. -/
theorem leads_gatherBackups (h : o.Settled s) (hn : o.node? id = some n) (hid : id ∈ s)
    (hkeyed : ∀ x m, x ≠ id → o.node? x = some m → m.Keyed) (hdigests : o.Distinguished) :
    ∃ o₁ asked, Leads o id (gatherBackups (n.ring.area id)) () o₁ ∧ Refreshed s id asked o o₁ ∧
      ¬ asked id ∧ ∀ key owner, s.Owns key owner → owner ≠ id →
        (n.ring.area id).contains key = true → asked owner := by
  have hme : n.ring.me = id := h.me hn
  have hexact := h.exact id n hn hid
  have hrole := (h.superpeer_iff id n hn).mpr hid
  obtain ⟨old, hentrance, harea, hothers⟩ := hexact.exists_entrance
  rw [hme] at hentrance harea hothers
  by_cases hsome : ∃ w ∈ s, w ≠ id
  · have hbound : s.between (old.forward 1) id ≤ n.ring.superpeers.size + 1 := by
      rw [← NodeSet.between_erase_self, hexact.superpeers, hme]
      exact Nat.le_succ_of_le NodeSet.between_le_size
    obtain ⟨o₁, hleads, hrefreshed⟩ :=
      h.leads_gatherFrom hn hid hkeyed hdigests (hothers hsome) hbound
    refine ⟨o₁, _, leads_gatherBackups_of hn hrole (by rw [hentrance]; exact hleads), hrefreshed,
      fun hself => hself.1 rfl, fun key owner hown hne hkey => ?_⟩
    obtain ⟨-, hway⟩ := hown.passed hid hne
    exact ⟨hne, Nat.le_trans hway (harea key hkey)⟩
  · have hnobody : n.ring.responsible (old.forward 1) = none := by
      rw [Option.eq_none_iff_forall_ne_some]
      intro x hx
      rw [Ring.responsible_eq_some_iff, hexact.superpeers, hme] at hx
      exact hsome ⟨x, NodeSet.mem_erase.mp hx.1⟩
    refine ⟨o, _, leads_gatherBackups_of hn hrole ?_, .rfl h, not_false,
      fun key owner hown hne _ => hsome ⟨owner, hown.1, hne⟩⟩
    rw [hentrance, hnobody]
    exact Leads.node_bind hn (Leads.pure hn)

end Settled

/-- What the superpeer `id` holds after it has looked after its copies. -/
structure Maintained (s : NodeSet) (id : NodeId) (area : Area) (o o₁ : Overlay ρ) : Prop where
  settled : o₁.Settled s
  others : ∀ x, x ≠ id → o₁.node? x = o.node? x
  /-- What the owner of a position in the area holds there. -/
  fetched : ∀ slot owner content, s.Owns slot.position owner →
    area.contains slot.position = true → o.read owner slot = some content →
    o₁.read id slot = some content
  /-- What it held there before, where the owner holds nothing. -/
  kept : ∀ slot owner, s.Owns slot.position owner → area.contains slot.position = true →
    o.read owner slot = none → o₁.read id slot = o.read id slot
  /-- What it owns itself. -/
  own : ∀ slot, s.Owns slot.position id → o₁.read id slot = o.read id slot
  /-- Nothing outside the area. -/
  dropped : ∀ slot, area.contains slot.position = false → o₁.read id slot = none

namespace Settled

/-- A round of maintenance repairs the copies of a superpeer, whatever it held before, provided that
a digest tells the versions of a tree apart. The others have their trees under the creators, where
all operations on tables put them. -/
theorem copies_maintained (h : o.Settled s) (hn : o.node? id = some n) (hid : id ∈ s)
    (hkeyed : ∀ x m, x ≠ id → o.node? x = some m → m.Keyed) (hdigests : o.Distinguished) :
    ∃ o₁, Leads o id maintainCopies () o₁ ∧ Maintained s id (n.ring.area id) o o₁ := by
  have hme : n.ring.me = id := h.me hn
  obtain ⟨o₁, asked, hleads, hfresh, hself, hasked⟩ :=
    h.leads_gatherBackups hn hid hkeyed hdigests
  obtain ⟨n₁, hn₁, houtlook⟩ := hfresh.views.exists_node? hn
  have hring : n₁.ring = n.ring := congrArg (·.2.1) houtlook
  let n₂ := n₁.mapDirectory fun d => dropOutside d (n₁.ring.area n₁.me)
  let n₃ := n₂.takeOverPeers n₂.me
  have hplace₂ : n₂.place = n₁.place := by
    simp only [n₂, Node.place, Node.ring_mapDirectory, Node.isSuperpeer_mapDirectory]
  have hplace : n₃.place = n₁.place :=
    (Node.place_of_standing (n₂.standing_takeOverPeers n₂.me)).trans hplace₂
  have hn₂ : (o₁.put id n₂).node? id = some n₂ := node?_put_self hn₁
  have hput : (o₁.put id n₂).put id n₃ = o₁.put id n₃ := put_put o₁ id n₂ n₃
  have hread : ∀ slot, (o₁.put id n₃).read id slot =
      if (n.ring.area id).contains slot.position = true then o₁.read id slot else none := by
    intro slot
    rw [read_put_self hn₁, Node.read_of_standing (n₂.standing_takeOverPeers n₂.me),
      Node.read_dropOutside, hring, show n₁.me = id from (congrArg Ring.me hring).trans hme,
      read_of_node? hn₁]
  have hown : ∀ slot, s.Owns slot.position id → (o₁.put id n₃).read id slot = o.read id slot := by
    intro slot hown
    have hexact := h.exact id n hn hid
    have harea := Ring.area_contains_iff_keeps (by rw [hme]; exact hid) hexact.superpeers
      hexact.superpeers (by rw [hme]; exact hown)
    rw [hme] at harea
    rw [hread, if_pos (harea.mpr (.inl rfl)), hfresh.kept slot id hown hself]
  refine ⟨o₁.put id n₃, ?_, hfresh.settled.put_place hn₁ hplace, ?_, ?_, ?_, hown, ?_⟩
  · refine Leads.node_bind hn ?_
    rw [show n.me = id from hme]
    refine hleads.bind (Leads.modify_bind hn₁ ?_)
    rw [← hput]
    exact .of_does (Does.modify hn₂ _)
  · intro x hx
    rw [hfresh.settled.node?_put_of_ne hx, hfresh.others x hx]
  · intro slot owner content howner harea hcontent
    by_cases hsame : owner = id
    · subst hsame
      rw [hown slot howner, hcontent]
    · rw [hread, if_pos harea, hfresh.fetched slot owner howner (hasked _ _ howner hsame harea),
        hcontent, Option.some_or]
  · intro slot owner howner harea hnone
    by_cases hsame : owner = id
    · subst hsame
      exact hown slot howner
    · rw [hread, if_pos harea, hfresh.fetched slot owner howner (hasked _ _ howner hsame harea),
        hnone, Option.none_or]
  · intro slot harea
    rw [hread, if_neg (by rw [harea]; exact Bool.false_ne_true)]

end Settled

/-! ## An outdated copy in the ring of five -/

/-- The first range of the peer at 500 gets backups. -/
def backedUpBy (backups : List NodeId) : Mutation :=
  .initRange (.created (.make ⟨500⟩ 0)) ⟨500⟩ (.ofList backups)

/-- The tree of the peer then. -/
def treeBackedUpBy (backups : List NodeId) : LookupTree :=
  (LookupTree.new ⟨500⟩).register (.created (.make ⟨500⟩ 0)) (.ofList backups)

/-- The owner at 1000 knows of other backups than the superpeer at 4000. -/
def outdated : Overlay ρ :=
  ((complete ringOfFive nodesOfFive).mutateAt (backedUpBy [⟨700⟩]) ⟨1000⟩).mutateAt
    (backedUpBy [⟨600⟩]) ⟨4000⟩

theorem settled_outdated : (outdated : Overlay ρ).Settled ringOfFive :=
  settled_five.mutateAt.mutateAt

theorem keyed_outdated : (outdated : Overlay ρ).Keyed :=
  (keyed_complete.mutateAt settled_five).mutateAt settled_five.mutateAt

theorem read_outdated (x : NodeId) (slot : Slot) :
    (outdated : Overlay ρ).read x slot =
      if x = ⟨4000⟩ then (backedUpBy [⟨600⟩]).change slot none
      else if x = ⟨1000⟩ then (backedUpBy [⟨700⟩]).change slot none
      else none := by
  by_cases hx : x = ⟨4000⟩
  · subst hx
    rw [outdated, settled_five.mutateAt.read_mutateAt_self (by decide),
      settled_five.read_mutateAt_of_ne (by decide), read_complete, if_pos rfl]
  · rw [outdated, settled_five.mutateAt.read_mutateAt_of_ne hx, if_neg hx]
    by_cases hx' : x = ⟨1000⟩
    · subst hx'
      rw [settled_five.read_mutateAt_self (by decide), read_complete, if_pos rfl]
    · rw [settled_five.read_mutateAt_of_ne hx', read_complete, if_neg hx']

/-- The two versions of the tree have different digests. -/
theorem distinguished_outdated : (outdated : Overlay ρ).Distinguished := by
  have hversions : ∀ x creator t, (outdated : Overlay ρ).read x (.tree creator) = some t →
      t = treeBackedUpBy [⟨600⟩] ∨ t = treeBackedUpBy [⟨700⟩] := by
    intro x creator t ht
    rw [read_outdated] at ht
    by_cases hcreator : Slot.tree creator = .tree ⟨500⟩
    · cases hcreator
      split at ht
      · exact .inl (Option.some.inj ht).symm
      · split at ht
        · exact .inr (Option.some.inj ht).symm
        · cases ht
    · have hother (backups : List NodeId) :
          (backedUpBy backups).change (.tree creator) none = none :=
        Mutation.change_of_ne rfl hcreator none
      rw [hother, hother, ite_self, ite_self] at ht
      cases ht
  have hdigests : (treeBackedUpBy [⟨600⟩]).digest ≠ (treeBackedUpBy [⟨700⟩]).digest := by
    decide +kernel
  intro x y creator t t' ht ht' hdigest
  rcases hversions x creator t ht with rfl | rfl <;>
    rcases hversions y creator t' ht' with rfl | rfl
  · rfl
  · exact absurd hdigest hdigests
  · exact absurd hdigest.symm hdigests
  · rfl

/-- The superpeer at 4000 gets the version of the owner at 1000. -/
theorem copies_maintained_outdated :
    (outdated : Overlay Unit).read ⟨4000⟩ (.tree ⟨500⟩) = some (treeBackedUpBy [⟨600⟩]) ∧
      ∃ o₁ : Overlay Unit, Leads outdated ⟨4000⟩ maintainCopies () o₁ ∧
        Maintained ringOfFive ⟨4000⟩ (.window ⟨0⟩ ⟨4000⟩) outdated o₁ ∧
        o₁.read ⟨4000⟩ (.tree ⟨500⟩) = some (treeBackedUpBy [⟨700⟩]) := by
  have hmember : ⟨4000⟩ ∈ ringOfFive := by decide
  obtain ⟨n, hn, -⟩ := settled_outdated.exists_superpeer hmember
  obtain ⟨o₁, hleads, hmaintained⟩ :=
    settled_outdated.copies_maintained hn hmember (fun x m _ hm => keyed_outdated x m hm)
      distinguished_outdated
  have hlist : n.ring.superpeers = ringOfFive.erase ⟨4000⟩ := by
    rw [(settled_outdated.exact ⟨4000⟩ n hn hmember).superpeers,
      show n.ring.me = ⟨4000⟩ from settled_outdated.me hn]
  have harea : n.ring.area ⟨4000⟩ = .window ⟨0⟩ ⟨4000⟩ := by
    rw [Ring.area, hlist]
    decide
  rw [harea] at hmaintained
  have hown : ringOfFive.Owns (Slot.tree ⟨500⟩).position ⟨1000⟩ :=
    NodeSet.head?_roundFrom.mp (by decide)
  have hcontent : (outdated : Overlay Unit).read ⟨1000⟩ (.tree ⟨500⟩) =
      some (treeBackedUpBy [⟨700⟩]) := by
    rw [read_outdated]
    rfl
  refine ⟨?_, o₁, hleads, hmaintained, hmaintained.fetched _ _ _ hown (by decide) hcontent⟩
  rw [read_outdated]
  rfl

end Overlay

end ChunkDirectory
