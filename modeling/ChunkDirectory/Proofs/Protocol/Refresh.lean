import ChunkDirectory.Proofs.Protocol.Lookup
import ChunkDirectory.Proofs.Protocol.Survivor
import ChunkDirectory.Proofs.Ring.Window
import ChunkDirectory.Protocol.Upkeep

/-!
# Copies fetched from their owners

A superpeer tells an owner the digests of the trees that it holds, and is sent those trees of the
owner that are not among them. If a digest tells the versions of a tree apart, the superpeer then
holds what the owner holds (`Node.read_store_missingBackups`). It goes on with the owner of the next
position until it has come to its predecessor, and so has asked exactly the owners on the way
(`Overlay.Settled.leads_gatherFrom`).
-/

namespace ChunkDirectory

open NodeId Protocol

theorem TreeTable.mem_digestsWhere {table : TreeTable} {keep : NodeId → Bool} {creator : NodeId}
    {digest : UInt64} (h : (creator, digest) ∈ table.digestsWhere keep) :
    ∃ tree, table.get? creator = some tree ∧ tree.digest = digest := by
  obtain ⟨e, he, heq⟩ := List.mem_map.mp h
  cases heq
  exact ⟨e.2, SortedMap.get?_eq_some_iff.mpr (List.mem_filter.mp he).1, rfl⟩

/-- A part of a part of the trees. -/
theorem TreeTable.filter_treesWhere (table : TreeTable) (keep : NodeId → Bool)
    (test : LookupTree → Bool) :
    (table.treesWhere keep).filter test =
      (table.byCreator.filter fun creator tree => keep creator && test tree).values := by
  show ((table.byCreator.entries.filter fun e => keep e.1).map (·.2)).filter test =
    (table.byCreator.entries.filter fun e => keep e.1 && test e.2).map (·.2)
  rw [List.filter_map, List.filter_filter]
  refine congrArg (List.map _) (List.filter_congr fun e _ => Bool.and_comm _ _)

namespace Node

variable {n m : Node}

/-- Who enters what an owner sends it for its digests holds in every slot of the owner what the
owner holds, and otherwise what it held before. -/
theorem read_store_missingBackups (hn : n.isSuperpeer = true) (hm : m.isSuperpeer = true)
    (hkeyed : m.Keyed)
    (hdigests : ∀ creator t t', m.read (.tree creator) = some t →
      n.read (.tree creator) = some t' → t.digest = t'.digest → t = t') (keep : NodeId → Bool) :
    ∃ trees mappings,
      m.missingBackups ((n.directory?.getD .empty).trees.digestsWhere keep) =
        .backups trees mappings ∧
      ∀ slot, (n.store trees mappings).read slot =
        (if m.isPrimaryFor slot.position = true then m.read slot else none).or (n.read slot) := by
  obtain ⟨d, hd⟩ := exists_directory hn
  obtain ⟨d', hd'⟩ := exists_directory hm
  obtain ⟨area, harea⟩ : ∃ area, m.primaryArea = some area := by
    unfold primaryArea
    rw [if_pos hm]
    split
    · exact ⟨_, rfl⟩
    · exact ⟨_, rfl⟩
  rw [hd, Option.getD_some]
  refine ⟨_, _, by rw [missingBackups, hd', harea], fun slot => ?_⟩
  rw [store, read, directory?_mapDirectory, hd, Option.map_some, Option.bind_some,
    read_of_directory? hd, read_of_directory? hd', isPrimaryFor, harea]
  cases slot with
  | mapping id => exact MappingTable.get?_putAll_entriesWhere area.contains
  | tree creator =>
    rw [TreeTable.filter_treesWhere]
    refine (TreeTable.get?_insertAll_values (hkeyed d' hd') _).trans ?_
    show _ = (if area.contains creator = true then d'.trees.get? creator else none).or
      (d.trees.get? creator)
    cases ht : d'.trees.get? creator with
    | none => rw [Option.filter_none, ite_self]
    | some t =>
      rw [Option.filter_some, hkeyed d' hd' creator t ht]
      cases harc : area.contains creator with
      | false => rfl
      | true =>
        cases hknown : (d.trees.digestsWhere keep).contains (creator, t.digest) with
        | false => rfl
        | true =>
          -- The tree is not sent, since the same version is there already.
          obtain ⟨t', ht', hdigest⟩ := TreeTable.mem_digestsWhere (List.contains_iff_mem.mp hknown)
          have hread : m.read (.tree creator) = some t := (read_of_directory? hd').trans ht
          have hread' : n.read (.tree creator) = some t' := (read_of_directory? hd).trans ht'
          rw [ht', hdigests creator t t' hread hread' hdigest.symm]
          rfl

end Node

namespace Overlay

variable {ρ : Type} {o o₁ o₂ : Overlay ρ} {s : NodeSet} {id old p x : NodeId} {n : Node}
  {asked : NodeId → Prop}

/-- Trees of one creator that are held somewhere and have the same digest are equal. -/
def Distinguished (o : Overlay ρ) : Prop :=
  ∀ x y creator t t', o.read x (.tree creator) = some t → o.read y (.tree creator) = some t' →
    t.digest = t'.digest → t = t'

/-- Where there are no other trees, digests tell them apart as before. -/
theorem Distinguished.mono (h : o.Distinguished)
    (hsub : ∀ x creator t, o₁.read x (.tree creator) = some t →
      ∃ y, o.read y (.tree creator) = some t) : o₁.Distinguished := by
  intro x y creator t t' ht ht' hdigest
  obtain ⟨x', hx⟩ := hsub x creator t ht
  obtain ⟨y', hy⟩ := hsub y creator t' ht'
  exact h x' y' creator t t' hx hy hdigest

/-- The superpeer `id` holds what the owners hold that were asked, and otherwise what it held
before. Nobody else is concerned. -/
structure Refreshed (s : NodeSet) (id : NodeId) (asked : NodeId → Prop) (o o₁ : Overlay ρ) :
    Prop where
  settled : o₁.Settled s
  views : o.SameViews o₁
  others : ∀ x, x ≠ id → o₁.node? x = o.node? x
  fetched : ∀ slot owner, s.Owns slot.position owner → asked owner →
    o₁.read id slot = (o.read owner slot).or (o.read id slot)
  kept : ∀ slot owner, s.Owns slot.position owner → ¬ asked owner →
    o₁.read id slot = o.read id slot

namespace Refreshed

/-- Nobody need be asked. -/
theorem rfl (h : o.Settled s) : Refreshed s id (fun _ => False) o o :=
  ⟨h, .rfl o, fun _ _ => Eq.refl _, fun _ _ _ hasked => hasked.elim, fun _ _ _ _ => Eq.refl _⟩

theorem read_of_ne (h : Refreshed s id asked o o₁) (hne : x ≠ id) (slot : Slot) :
    o₁.read x slot = o.read x slot := by
  rw [read, read, h.others x hne]

/-- No tree is new. -/
theorem distinguished (h : Refreshed s id asked o o₁) (hdigests : o.Distinguished) :
    o₁.Distinguished := by
  refine hdigests.mono fun x creator t ht => ?_
  by_cases hx : x = id
  · subst hx
    obtain ⟨owner, -, hown, -, -⟩ := h.settled.exists_owner creator
    by_cases hasked : asked owner
    · rw [h.fetched (.tree creator) owner hown hasked] at ht
      rcases Option.or_eq_some_iff.mp ht with hfetched | ⟨-, hheld⟩
      · exact ⟨owner, hfetched⟩
      · exact ⟨x, hheld⟩
    · rw [h.kept (.tree creator) owner hown hasked] at ht
      exact ⟨x, ht⟩
  · exact ⟨x, (h.read_of_ne hx _).symm.trans ht⟩

theorem congr {both : NodeId → Prop} (h : Refreshed s id asked o o₁)
    (hboth : ∀ w ∈ s, both w ↔ asked w) : Refreshed s id both o o₁ :=
  ⟨h.settled, h.views, h.others,
    fun slot owner hown hasked => h.fetched slot owner hown ((hboth owner hown.1).mp hasked),
    fun slot owner hown hasked => h.kept slot owner hown (mt (hboth owner hown.1).mpr hasked)⟩

/-- One owner after others. -/
theorem trans {asked' both : NodeId → Prop} (h : Refreshed s id asked o o₁)
    (h' : Refreshed s id asked' o₁ o₂) (hother : ∀ w, asked' w → w ≠ id)
    (hboth : ∀ w ∈ s, both w ↔ asked w ∨ asked' w) : Refreshed s id both o o₂ := by
  refine ⟨h'.settled, h.views.trans h'.views,
    fun x hx => (h'.others x hx).trans (h.others x hx), fun slot owner hown hasked => ?_,
    fun slot owner hown hasked => ?_⟩
  · by_cases hlater : asked' owner
    · rw [h'.fetched slot owner hown hlater, h.read_of_ne (hother owner hlater)]
      by_cases hearlier : asked owner
      · rw [h.fetched slot owner hown hearlier, ← Option.or_assoc, Option.or_self]
      · rw [h.kept slot owner hown hearlier]
    · have hearlier := ((hboth owner hown.1).mp hasked).resolve_right hlater
      rw [h'.kept slot owner hown hlater, h.fetched slot owner hown hearlier]
  · rw [hboth owner hown.1, not_or] at hasked
    rw [h'.kept slot owner hown hasked.2, h.kept slot owner hown hasked.1]

end Refreshed

namespace Settled

/-- An owner is asked and answers, and its answer is entered. -/
theorem leads_refresh (h : o.Settled s) (hn : o.node? id = some n) (hid : id ∈ s) (hp : p ∈ s)
    (hne : p ≠ id) (hkeyed : ∀ x m, x ≠ id → o.node? x = some m → m.Keyed)
    (hdigests : o.Distinguished) (keep : NodeId → Bool) :
    ∃ trees mappings,
      Leads o id (Task.call p (.askAboutBackups
        ((n.directory?.getD .empty).trees.digestsWhere keep))) (.ok (.backups trees mappings)) o ∧
      Refreshed s id (· = p) o (o.put id (n.store trees mappings)) := by
  obtain ⟨m, hm, hrole⟩ := h.exists_superpeer hp
  have hrole' := (h.superpeer_iff id n hn).mpr hid
  obtain ⟨trees, mappings, hanswer, hread⟩ :=
    Node.read_store_missingBackups hrole' hrole (hkeyed p m hne hm)
      (fun creator t t' ht ht' => hdigests p id creator t t' ((read_of_node? hm).trans ht)
        ((read_of_node? hn).trans ht')) keep
  have houtlook : (n.store trees mappings).outlook = n.outlook := by
    simp only [Node.store, Node.outlook, Node.config_mapDirectory, Node.ring_mapDirectory,
      Node.isSuperpeer_mapDirectory]
  refine ⟨trees, mappings, ?_, h.put_place hn (Node.place_of_outlook houtlook),
    h.sameViews_put hn houtlook, fun x hx => h.node?_put_of_ne hx,
    fun slot owner hown hasked => ?_, fun slot owner hown hasked => ?_⟩
  · rw [← hanswer]
    exact Leads.call h.toCalm hn (.of_does (Does.question (f := (·.missingBackups _)) hm rfl)) hn
  · subst hasked
    rw [read_put_self hn, hread, if_pos ((h.isPrimaryFor_iff hm _).mpr hown), read_of_node? hm,
      read_of_node? hn]
  · have hother : ¬ m.isPrimaryFor slot.position = true := fun hprimary =>
      hasked (hown.unique ((h.isPrimaryFor_iff hm _).mp hprimary))
    rw [read_put_self hn, hread, if_neg hother, Option.none_or, read_of_node? hn]

/-- The owners on the way from a position to a superpeer are asked one after the other. -/
theorem leads_gatherFrom {bound : Nat} (h : o.Settled s) (hn : o.node? id = some n) (hid : id ∈ s)
    (hkeyed : ∀ x m, x ≠ id → o.node? x = some m → m.Keyed) (hdigests : o.Distinguished)
    (hsome : ∃ w ∈ s, Passed (old.forward 1) id w)
    (hbound : s.between (old.forward 1) id ≤ bound) :
    ∃ o₁, Leads o id (gatherFrom old (n.ring.responsible (old.forward 1)) bound) () o₁ ∧
      Refreshed s id (Passed (old.forward 1) id) o o₁ := by
  induction bound generalizing o n old with
  | zero =>
    obtain ⟨w, hw, hpassed⟩ := hsome
    have hlt := NodeSet.between_forward_lt hw hpassed
    omega
  | succ bound ih =>
    have hme : n.me = id := h.me hn
    obtain ⟨p, hp, hpassed, hrest⟩ := NodeSet.exists_first_passed hsome
    obtain ⟨hps, hne⟩ := NodeSet.mem_erase.mp hp.1
    have htarget : n.ring.responsible (old.forward 1) = some p := by
      rw [Ring.responsible_eq_some_iff, (h.exact id n hn hid).superpeers,
        show n.ring.me = id from hme]
      exact hp
    obtain ⟨trees, mappings, hask, hfresh⟩ :=
      h.leads_refresh hn hid hps hne hkeyed hdigests (Arc.contains ⟨old, p, .upperClosed⟩)
    let n₁ := n.store trees mappings
    have hn₁ : (o.put id n₁).node? id = some n₁ := node?_put_self hn
    have hring : n₁.ring = n.ring := Node.ring_mapDirectory _
    -- What happens after the answer was entered.
    have hgather : ∀ {o₂}, Leads (o.put id n₁) id
        (if n₁.ring.predecessor = some p then return ()
          else gatherFrom p (n₁.ring.responsible (p.forward 1)) bound) () o₂ →
        Leads o id (gatherFrom old (n.ring.responsible (old.forward 1)) (bound + 1)) () o₂ := by
      intro o₂ hrest
      unfold gatherFrom
      refine Leads.node_bind hn ?_
      rw [htarget, Option.filter_some, if_pos (by rw [hme]; exact decide_eq_true hne)]
      exact hask.bind (Leads.modify_bind hn (Leads.node_bind hn₁ hrest))
    have hbefore : n₁.ring.predecessor = some p ↔ ∀ w ∈ s, ¬ Passed (p.forward 1) id w := by
      rw [hring, (h.exact id n hn hid).predecessor, show n.ring.me = id from hme]
      exact NodeSet.before_iff_not_passed hps hne
    by_cases hlast : n₁.ring.predecessor = some p
    · refine ⟨o.put id n₁, hgather ?_, ?_⟩
      · rw [if_pos hlast]
        exact Leads.pure hn₁
      · exact hfresh.congr fun w hw => (hrest w hw).trans (or_iff_left (hbefore.mp hlast w hw))
    · have hsome₁ : ∃ w ∈ s, Passed (p.forward 1) id w := by
        by_contra hnone
        exact hlast (hbefore.mpr fun w hw hpass => hnone ⟨w, hw, hpass⟩)
      have hfewer := NodeSet.between_forward_lt hps hpassed
      obtain ⟨o₂, hleads, hlater⟩ := ih hfresh.settled hn₁
        (fun x m hx hm => hkeyed x m hx ((hfresh.others x hx).symm.trans hm))
        (hfresh.distinguished hdigests) hsome₁ (by omega)
      refine ⟨o₂, hgather ?_, hfresh.trans hlater (fun w hw => hw.1) hrest⟩
      rw [if_neg hlast]
      exact hleads

end Settled

end Overlay

end ChunkDirectory
