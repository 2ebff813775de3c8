import ChunkDirectory.Proofs.Protocol.Aftermath
import ChunkDirectory.Proofs.Protocol.Survivor
import ChunkDirectory.Proofs.Replication
import ChunkDirectory.Proofs.Tree.Owners

/-!
# Reassigning an owner

When a node's objects have gone to another one, every tree that names it is to be rewritten, whoever
created the objects. The request for that goes to one superpeer, the primary for the old owner's own
position, which has its backups do the same. Trees that none of these keep go on naming the old
owner, and a tree that some of its keepers were told of and others were not is no longer the same
everywhere (`Overlay.Reassigned`).

So a recovery or a promotion makes gets forget the owner exactly if the primary for each tree that
names it is one of those superpeers, and leaves replicas equal exactly if each such tree is kept by
none but them or by none of them (`Settled.reassignment_reaches`). With at most four superpeers both
always hold. In the ring of five, gets may go on finding the old owner.
-/

namespace ChunkDirectory

open LookupTree Protocol

theorem Node.lookup_of_read {n : Node} {chunk : ChunkId} {tree : LookupTree}
    (h : n.read (.tree chunk.creator) = some tree) :
    n.lookup chunk = .lookupResult (tree.locate chunk) := by
  obtain ⟨d, hd, hread⟩ := Option.bind_eq_some_iff.mp h
  have htree : d.trees.get? chunk.creator = some tree := hread
  rw [lookup, hd]
  simp only [htree]

namespace Overlay

variable {ρ : Type} {o o' : Overlay ρ} {s : NodeSet} {id owner restorer new w x : NodeId} {n : Node}
  {chunk : ChunkId}

/-! ## Records -/

/-- Who owns a chunk by the tree that `x` has of its creator. Nothing is on record without a tree,
and a chunk may be on record as removed. -/
def recordAt (o : Overlay ρ) (x : NodeId) (chunk : ChunkId) : Option (Option NodeId) :=
  (o.read x (.tree chunk.creator)).map (·.ownerAt chunk.localId)

/-- Who owns a chunk by the tree that the primary has of its creator. -/
def recorded (s : NodeSet) (o : Overlay ρ) (chunk : ChunkId) : Option (Option NodeId) :=
  (s.roundFrom chunk.creator).head?.bind (o.recordAt · chunk)

/-- Whoever asks for a chunk on record is told its owner. -/
def Locates (o : Overlay ρ) (r : ChunkId → Option (Option NodeId)) : Prop :=
  ∀ id n chunk primary, o.node? id = some n → r chunk = some primary →
    ∃ place o', Leads o id (get chunk) (.ok place) o' ∧ place.map (·.primary) = primary

theorem recorded_of_owns (h : s.Owns chunk.creator w) :
    o.recorded s chunk = o.recordAt w chunk := by
  rw [recorded, NodeSet.head?_roundFrom.mpr h, Option.bind_some]

/-- A tree that was told of the new owner. -/
theorem map_ownerAt_change (owner restorer : NodeId) (chunk : ChunkId)
    (content : Option LookupTree) :
    ((Mutation.updateAll owner restorer).change (.tree chunk.creator) content).map
        (·.ownerAt chunk.localId) =
      (content.map (·.ownerAt chunk.localId)).map (handOver owner restorer) := by
  show (content.map (·.reassign owner restorer)).map _ = _
  rw [Option.map_map, Option.map_map]
  exact congrArg (content.map ·) (funext fun tree => tree.ownerAt_reassign owner restorer _)

/-- To mark a tree does not touch owners. -/
theorem map_ownerAt_mark (gone : NodeId) (chunk : ChunkId) (content : Option LookupTree) :
    ((Slot.tree chunk.creator).mark gone content).map (·.ownerAt chunk.localId) =
      content.map (·.ownerAt chunk.localId) := by
  show (if chunk.creator = gone then content.map (·.setAlive false) else content).map _ = _
  split
  case isTrue =>
    rw [Option.map_map]
    rfl
  case isFalse => rfl

/-- A get that comes to a superpeer with the chunk on record. -/
theorem leads_get {primary : Option NodeId} {o₁ : Overlay ρ} {m : Node}
    (hdirect : o₁.Direct) (hn : o.node? id = some n)
    (hresolve : Leads o id (resolve chunk.creator (!n.isStable)) (some w) o₁)
    (hm : o₁.node? w = some m) (hn₁ : ∃ n₁, o₁.node? id = some n₁)
    (hrecord : o₁.recordAt w chunk = some primary) :
    ∃ place, Leads o id (get chunk) (.ok place) o₁ ∧ place.map (·.primary) = primary := by
  obtain ⟨n₁, hn₁⟩ := hn₁
  obtain ⟨tree, htree, hprimary⟩ := Option.map_eq_some_iff.mp hrecord
  rw [read_of_node? hm] at htree
  refine ⟨tree.locate chunk, ?_, (tree.primary_locate chunk).trans hprimary⟩
  have hreply : Leads o₁ w (handleMessage id (.lookup chunk)) (m.lookup chunk) o₁ :=
    .of_does (Does.question (f := (·.lookup chunk)) hm rfl)
  rw [Node.lookup_of_read htree] at hreply
  exact (hdirect.leads_request_answered hn hresolve hn₁ hreply rfl hn₁).bind (Leads.pure hn₁)

namespace Settled

/-- In a settled overlay every get finds what the primary has on record. -/
theorem locates (h : o.Settled s) : o.Locates (o.recorded s) := by
  intro id n chunk primary hn hrecord
  obtain ⟨owner, m, hown, hm, -⟩ := h.exists_owner chunk.creator
  rw [recorded_of_owns hown] at hrecord
  obtain ⟨place, hget, hplace⟩ := leads_get h.toCalm.direct hn (h.leads_resolve hn hown _) hm
    ⟨n, hn⟩ hrecord
  exact ⟨place, o, hget, hplace⟩

/-- Where replicas agree, all who keep a tree have the same on record. -/
theorem recordAt_of_mem_holders (h : o.Settled s) (hagrees : o.Agrees s)
    (hx : x ∈ s.holders chunk.creator) : o.recordAt x chunk = o.recorded s chunk := by
  obtain ⟨owner, -, hown, -⟩ := h.exists_owner chunk.creator
  have hread : o.read x (.tree chunk.creator) = o.read owner (.tree chunk.creator) :=
    h.read_of_mem_holders hagrees hown hx
  rw [recorded_of_owns hown, recordAt, recordAt, hread]

end Settled

/-- While the word of a newcomer spreads, a get finds what the owners of the creator with and
without the newcomer have on record, if that is the same. -/
theorem Spreading.leads_get {primary : Option NodeId} (h : o.Spreading s new)
    (hn : o.node? id = some n)
    (hrecord : ∀ w, (s.insert new).Owns chunk.creator w ∨ s.Owns chunk.creator w →
      o.recordAt w chunk = some primary) :
    ∃ place o', Leads o id (get chunk) (.ok place) o' ∧ place.map (·.primary) = primary := by
  obtain ⟨w, o₁, hresolve, howner, hsame⟩ := h.leads_resolve hn (!n.isStable)
  have hw : w ∈ s.insert new := howner.elim (·.1) fun hown => NodeSet.mem_insert.mpr (.inr hown.1)
  obtain ⟨m, hm⟩ := h.running w hw
  obtain ⟨m₁, hm₁, hstance⟩ := hsame.exists_node? hm
  obtain ⟨n₁, hn₁, -⟩ := hsame.exists_node? hn
  have hrole : m₁.role = m.role := congrArg (·.2.2.2.2) hstance
  have hkept : o₁.recordAt w chunk = o.recordAt w chunk := by
    rw [recordAt, recordAt, read_of_node? hm₁, read_of_node? hm, Node.read_congr hrole]
  obtain ⟨place, hget, hplace⟩ :=
    Overlay.leads_get hsame.direct hn hresolve hm₁ ⟨n₁, hn₁⟩ (hkept.trans (hrecord w howner))
  exact ⟨place, o₁, hget, hplace⟩

/-! ## What a reassignment comes to -/

/-- The objects of `owner` went to `restorer`, and the superpeers of the ring `s` that keep copies
of what belongs at the position of `owner` were told. `before` is what was on record. -/
structure Reassigned (s : NodeSet) (owner restorer : NodeId)
    (before : ChunkId → Option (Option NodeId)) (o : Overlay ρ) : Prop where
  /-- A primary or backup that was told has the new owner on record, any other one the old. -/
  kept : ∀ chunk w n x, s.Owns chunk.creator w → o.node? w = some n →
    x ∈ w :: n.ring.backups w → o.recordAt x chunk =
      if x ∈ s.holders owner then (before chunk).map (handOver owner restorer) else before chunk
  /-- Gets are answered from the record. -/
  located : o.Locates (o.recorded s)
  /-- Nothing is on record as the owner's any more exactly if the primaries for its objects were
  told. -/
  forgotten_iff : (∀ chunk, o.recorded s chunk ≠ some (some owner)) ↔
    ∀ chunk w, s.Owns chunk.creator w → before chunk = some (some owner) → w ∈ s.holders owner
  /-- Primaries and backups agree on owners exactly if, for each object of the owner, all of them
  were told or none. -/
  agree_iff :
    (∀ chunk w n, s.Owns chunk.creator w → o.node? w = some n →
      ∀ b ∈ n.ring.backups w, o.recordAt b chunk = o.recordAt w chunk) ↔
    ∀ chunk w n, s.Owns chunk.creator w → o.node? w = some n → before chunk = some (some owner) →
      ∀ b ∈ n.ring.backups w, (b ∈ s.holders owner ↔ w ∈ s.holders owner)
  /-- In a ring of at most four superpeers every record is reached. -/
  complete : s.size ≤ replicas + 1 →
    (∀ chunk, o.recorded s chunk = (before chunk).map (handOver owner restorer)) ∧
    ∀ chunk w n, s.Owns chunk.creator w → o.node? w = some n →
      ∀ b ∈ n.ring.backups w, o.recordAt b chunk = o.recordAt w chunk

section

variable {before : ChunkId → Option (Option NodeId)}

/-- A record is different after a reassignment exactly if it named the owner. -/
theorem map_handOver_eq_iff (h : restorer ≠ owner) {r : Option (Option NodeId)} :
    r.map (handOver owner restorer) = r ↔ r ≠ some (some owner) := by
  cases r with
  | none => exact iff_of_true rfl nofun
  | some primary =>
    constructor
    · rintro heq ⟨⟩
      exact handOver_ne h _ (Option.some.inj heq)
    · exact fun hne => congrArg some (handOver_of_ne fun heq => hne (congrArg some heq))

/-- Of two records that were the same, each told or not, one is different from the other exactly if
they named the owner and only one of them was told. -/
theorem told_eq_told_iff (h : restorer ≠ owner) (r : Option (Option NodeId)) (told told' : Prop)
    [Decidable told] [Decidable told'] :
    (if told then r.map (handOver owner restorer) else r) =
        (if told' then r.map (handOver owner restorer) else r) ↔
      r ≠ some (some owner) ∨ (told ↔ told') := by
  have hsame := map_handOver_eq_iff h (r := r)
  by_cases htold : told <;> by_cases htold' : told'
  · simp [htold, htold']
  · simpa [htold, htold'] using hsame
  · simpa [htold, htold', eq_comm] using hsame
  · simp [htold, htold']

theorem map_handOver_ne (h : restorer ≠ owner) (r : Option (Option NodeId)) :
    r.map (handOver owner restorer) ≠ some (some owner) := by
  cases r with
  | none => exact nofun
  | some primary => exact fun heq => handOver_ne h primary (Option.some.inj heq)

namespace Reassigned

/-- What each keeper has on record decides the rest. -/
theorem of_kept (hne : restorer ≠ owner)
    (hrunning : ∀ creator, ∃ w n, s.Owns creator w ∧ o.node? w = some n)
    (hkept : ∀ chunk w n x, s.Owns chunk.creator w → o.node? w = some n →
      x ∈ w :: n.ring.backups w → x ∈ s ∧ o.recordAt x chunk =
        if x ∈ s.holders owner then (before chunk).map (handOver owner restorer)
        else before chunk)
    (hlocated : o.Locates (o.recorded s)) : Reassigned s owner restorer before o := by
  have hprimary : ∀ chunk w, s.Owns chunk.creator w → o.recorded s chunk =
      if w ∈ s.holders owner then (before chunk).map (handOver owner restorer)
      else before chunk := by
    intro chunk w hown
    obtain ⟨w', n, hown', hn⟩ := hrunning chunk.creator
    obtain rfl := hown.unique hown'
    rw [recorded_of_owns hown, (hkept chunk w n w hown hn List.mem_cons_self).2]
  have hpair : ∀ chunk w n, s.Owns chunk.creator w → o.node? w = some n →
      ∀ b ∈ n.ring.backups w, (b ∈ s ∧ w ∈ s) ∧
        (o.recordAt b chunk = o.recordAt w chunk ↔ before chunk ≠ some (some owner) ∨
          (b ∈ s.holders owner ↔ w ∈ s.holders owner)) := by
    intro chunk w n hown hn b hb
    obtain ⟨hbs, hbkept⟩ := hkept chunk w n b hown hn (List.mem_cons_of_mem w hb)
    obtain ⟨hws, hwkept⟩ := hkept chunk w n w hown hn List.mem_cons_self
    refine ⟨⟨hbs, hws⟩, ?_⟩
    rw [hbkept, hwkept]
    exact told_eq_told_iff hne _ _ _
  refine ⟨fun chunk w n x hown hn hx => (hkept chunk w n x hown hn hx).2, hlocated,
    ⟨fun hnone chunk w hown hbefore => ?_, fun htold chunk => ?_⟩,
    ⟨fun hagree chunk w n hown hn hbefore b hb => ?_, fun htold chunk w n hown hn b hb => ?_⟩,
    fun hsize => ⟨fun chunk => ?_, fun chunk w n hown hn b hb => ?_⟩⟩
  · by_contra hw
    refine hnone chunk ?_
    rw [hprimary chunk w hown, if_neg hw, hbefore]
  · obtain ⟨w, -, hown, -⟩ := hrunning chunk.creator
    rw [hprimary chunk w hown]
    split
    case isTrue => exact map_handOver_ne hne _
    case isFalse hw => exact fun hbefore => hw (htold chunk w hown hbefore)
  · have hsame := (hpair chunk w n hown hn b hb).2.mp (hagree chunk w n hown hn b hb)
    exact hsame.resolve_left (not_not_intro hbefore)
  · refine (hpair chunk w n hown hn b hb).2.mpr ?_
    by_cases hbefore : before chunk = some (some owner)
    · exact .inr (htold chunk w n hown hn hbefore b hb)
    · exact .inl hbefore
  · obtain ⟨w, -, hown, -⟩ := hrunning chunk.creator
    rw [hprimary chunk w hown, if_pos (NodeSet.mem_holders_of_size_le hown.1 hsize)]
  · obtain ⟨⟨hbs, hws⟩, hiff⟩ := hpair chunk w n hown hn b hb
    exact hiff.mpr (.inr (iff_of_true (NodeSet.mem_holders_of_size_le hbs hsize)
      (NodeSet.mem_holders_of_size_le hws hsize)))

end Reassigned

end

/-! ## Recoveries -/

namespace Settled

/-- The restorer has the primary for the owner's position apply the change, and its backups. -/
theorem reassigned_of_recovery (h : o.Settled s) (hagrees : o.Agrees s) (hn : o.node? id = some n)
    (hne : id ≠ owner) :
    ∃ o', Leads o id (updateAllAfterRecovery owner) (.ok ()) o' ∧
      Reassigned s owner id (o.recorded s) o' := by
  let m := Mutation.updateAll owner id
  obtain ⟨u, k, hu, hk, -⟩ := h.exists_owner owner
  have hrequest := h.leads_requestMutation_of_applied (m := m) .updateAllAfterRecovery hn
    (fun _ => rfl) hu hk rfl
  rw [h.cons_backups hk hu] at hrequest
  have hsettled : (o.mutateEach m (s.holders owner)).Settled s := h.mutateEach
  refine ⟨o.mutateEach m (s.holders owner), ?_, .of_kept hne (fun creator => ?_)
    (fun chunk w n' x hown hn' hx => ?_) hsettled.locates⟩
  · unfold updateAllAfterRecovery
    refine Leads.node_bind hn ?_
    rw [h.me hn]
    exact hrequest
  · obtain ⟨w, n', hown, hn', -⟩ := hsettled.exists_owner creator
    exact ⟨w, n', hown, hn'⟩
  · rw [hsettled.cons_backups hn' hown] at hx
    refine ⟨NodeSet.mem_of_mem_holders hx, ?_⟩
    rw [← h.recordAt_of_mem_holders hagrees hx, recordAt, recordAt, h.read_mutateHolders]
    split
    case isTrue => exact map_ownerAt_change owner id chunk _
    case isFalse => rfl

end Settled

/-! ## Promotions -/

namespace Promoted

variable {candidate : NodeId} {k : Node}

variable (hpromoted : Promoted owner candidate n k o o') (h : o.Settled s) (hagrees : o.Agrees s)
  (hn : o.node? owner = some n) (hk : o.node? candidate = some k) (hnew : candidate ∉ s)
  (hown : s.Owns candidate owner) (hkeyed : n.Keyed)

include hpromoted h hagrees hn hk hnew hown hkeyed

/-- Whoever is to keep a tree, on the ring with the candidate or without it, has on record what the
primary had before, or what became of it. -/
theorem exists_recordAt :
    ∃ replacement, replacement ≠ candidate ∧ ∀ chunk x,
      x ∈ (s.insert candidate).holders chunk.creator ∨ x ∈ s.holders chunk.creator →
      x ∈ s.insert candidate ∧ o'.recordAt x chunk =
        if x ∈ (s.insert candidate).holders candidate then
          (o.recorded s chunk).map (handOver candidate replacement)
        else o.recorded s chunk := by
  obtain ⟨replacement, hne, hread⟩ := hpromoted.exists_read h hn hk hown
  refine ⟨replacement, hne, fun chunk x hx => ?_⟩
  have hmember : x ∈ s.insert candidate := hx.elim NodeSet.mem_of_mem_holders fun hold =>
    NodeSet.mem_insert.mpr (.inr (NodeSet.mem_of_mem_holders hold))
  have hbefore : ((o.put candidate (becomeSuperpeer k (offer candidate n))).read x
      (.tree chunk.creator)).map (·.ownerAt chunk.localId) = o.recorded s chunk := by
    by_cases hcandidate : x = candidate
    · subst hcandidate
      have hholder := hx.resolve_right fun hold => hnew (NodeSet.mem_of_mem_holders hold)
      have htook : (becomeSuperpeer k (offer x n)).read (.tree chunk.creator) =
          (Slot.tree chunk.creator).mark x (o.read owner (.tree chunk.creator)) :=
        h.read_offer hn hk hown hkeyed hholder
      rw [read_of_node? (node?_put_self hk), htook, map_ownerAt_mark]
      exact h.recordAt_of_mem_holders hagrees (NodeSet.owner_mem_holders hown hnew hholder)
    · have hold := hx.elim (fun hnow => NodeSet.mem_holders_of_insert hnow hcandidate) id
      rw [read, h.direct.node?_put_of_ne hcandidate]
      exact h.recordAt_of_mem_holders hagrees hold
  refine ⟨hmember, ?_⟩
  rw [recordAt, hread x hmember]
  split
  case isTrue => rw [map_ownerAt_change, hbefore]
  case isFalse => exact hbefore

/-- A promotion in a settled overlay hands the candidate's objects to the replacement. -/
theorem reassigned (hvalid : candidate.isReserved = false) (hmembers : o'.members = o.members) :
    ∃ replacement, replacement ≠ candidate ∧
      Reassigned (s.insert candidate) candidate replacement (o.recorded s) o' := by
  have hspreading := hpromoted.spreading h hn hk hnew hown hvalid hmembers
  obtain ⟨replacement, hne, hkept⟩ := hpromoted.exists_recordAt h hagrees hn hk hnew hown hkeyed
  have hcandidate : candidate ∈ s.insert candidate := NodeSet.mem_insert.mpr (.inl rfl)
  refine ⟨replacement, hne, .of_kept hne (fun creator => ?_) (fun chunk w m x hw hm hx => ?_)
    fun id m chunk primary hm hrecorded => hspreading.leads_get hm fun w hw => ?_⟩
  · obtain ⟨w, hw⟩ := NodeSet.exists_owner hcandidate creator
    obtain ⟨m, hm⟩ := hspreading.running w hw.1
    exact ⟨w, m, hw, hm⟩
  · have hme : m.ring.me = w := hspreading.direct.me hm
    refine hkept chunk x ?_
    rcases (hspreading.aware w m hm).lists with hlist | ⟨hother, -, hlist⟩
    · exact .inl (Ring.cons_backups hme hlist hw ▸ hx)
    · have hws := (NodeSet.mem_insert.mp hw.1).resolve_left hother
      have hold := ((NodeSet.owns_insert_iff hnew hws).mp hw).1
      exact .inr (Ring.cons_backups hme hlist hold ▸ hx)
  · obtain ⟨w', hw'⟩ := NodeSet.exists_owner hcandidate chunk.creator
    rw [recorded_of_owns hw'] at hrecorded
    rw [← hrecorded]
    rcases hw with hw | hw
    · rw [hw.unique hw']
    by_cases hgiven : (s.insert candidate).Owns chunk.creator candidate
    · -- The owner's copies go on being asked for, and it was told as well as the candidate.
      have hgave : w = owner := hw.unique (NodeSet.owns_of_newcomer_owns hown hgiven)
      have htook : w' = candidate := hw'.unique hgiven
      rw [(hkept chunk w (.inr hw.mem_holders)).2, (hkept chunk w' (.inl hw'.mem_holders)).2,
        hgave, htook, if_pos (NodeSet.owner_mem_holders_newcomer hown hnew),
        if_pos (NodeSet.owns_self hcandidate).mem_holders]
    · rw [((NodeSet.owns_insert_iff hnew hw.1).mpr ⟨hw, hgiven⟩).unique hw']

end Promoted

/-- A superpeer promotes a peer in its range. -/
theorem Settled.reassigned_of_promotion {candidate : NodeId} (h : o.Settled s)
    (hagrees : o.Agrees s) (hn : o.node? id = some n) (hown : s.Owns candidate id)
    (hne : candidate ≠ id) (hvalid : candidate.isReserved = false) (hkeyed : n.Keyed)
    (safe : Bool) :
    ∃ result o', Leads o id (promote candidate safe) result o' ∧
      (n.promoting = false → (∃ x ∈ n.ring.peers, x ≠ candidate) →
        (∃ k, Promotable o candidate k) → result = .ok ()) ∧
      (result = .ok () → ∃ replacement, replacement ≠ candidate ∧
        Reassigned (s.insert candidate) candidate replacement (o.recorded s) o') := by
  have hme : n.ring.me = id := h.me hn
  have hnew : candidate ∉ s := fun hmem => hne ((NodeSet.owns_self hmem).unique hown)
  have hother : n.ring.predecessor ≠ some id := by
    intro hp
    exact (((h.exact id n hn hown.1).predecessor id).mp hp).2.1 hme.symm
  obtain ⟨result, o', hleads, houtcome, hok⟩ := leads_promote h.toCalm.direct hn
    ((h.superpeer_iff id n hn).mpr hown.1) hne hother safe
  refine ⟨result, o', hleads, hok, fun hresult => ?_⟩
  subst hresult
  cases houtcome with
  | promoted hcandidate hpromoted =>
    obtain ⟨events, hdoes⟩ := hleads
    exact hpromoted.reassigned h hagrees hn hcandidate.1 hnew hown hkeyed hvalid hdoes.members

/-- What a reassignment reaches, where replicas agree. A recovery always comes to an end, a
promotion if there is nothing in its way, and the trees that name the old owner are rewritten where
they are kept by the superpeers that keep copies for the old owner's position, and nowhere else. -/
theorem Settled.reassignment_reaches (h : o.Settled s) (hagrees : o.Agrees s) :
    o.Locates (o.recorded s) ∧
      (∀ owner id n, o.node? id = some n → id ≠ owner →
        ∃ o', Leads o id (updateAllAfterRecovery owner) (.ok ()) o' ∧
          Reassigned s owner id (o.recorded s) o') ∧
      ∀ id n candidate safe, o.node? id = some n → s.Owns candidate id → candidate ≠ id →
        candidate.isReserved = false → n.Keyed →
        ∃ result o', Leads o id (promote candidate safe) result o' ∧
          (n.promoting = false → (∃ x ∈ n.ring.peers, x ≠ candidate) →
            (∃ k, Promotable o candidate k) → result = .ok ()) ∧
          (result = .ok () → ∃ replacement, replacement ≠ candidate ∧
            Reassigned (s.insert candidate) candidate replacement (o.recorded s) o') :=
  ⟨h.locates, fun _ _ _ hn hne => h.reassigned_of_recovery hagrees hn hne,
    fun _ _ _ safe hn hown hne hvalid hkeyed =>
      h.reassigned_of_promotion hagrees hn hown hne hvalid hkeyed safe⟩

/-! ## An owner that is not forgotten -/

/-- What peers a superpeer lists makes no difference to the ring. -/
theorem Settled.put_of_place {m : Node} (h : o.Settled s) (hn : o.node? id = some n)
    (hplace : m.place = n.place) : (o.put id m).Settled s := by
  have hme : m.me = id := (congrArg (·.1) hplace).trans (h.me hn)
  have hrole : m.isSuperpeer = n.isSuperpeer := Node.isSuperpeer_of_place hplace
  have hlist : m.ring.superpeers = n.ring.superpeers := congrArg (·.2.1) hplace
  have hall := fun P => h.toCalm.direct.forall_put (P := P) (m := m) hn
  refine ⟨h.toCalm.put hme, h.inhabited, h.valid, fun x hx => ?_, ?_, ?_, ?_⟩
  · by_cases heq : x = id
    · rw [heq]
      exact ⟨m, node?_put_self hn⟩
    · rw [h.node?_put_of_ne heq]
      exact h.running x hx
  · exact hall (fun x k => k.isSuperpeer = true ↔ x ∈ s) h.superpeer_iff
      (hrole ▸ h.superpeer_iff id n hn)
  · exact hall (fun x k => x ∈ s → k.ring.Exact s) h.exact
      fun hid => Node.exact_of_place hplace (h.exact id n hn hid)
  · exact hall (fun x k => x ∉ s → k.ring.superpeers = s) h.lists
      fun hid => hlist.trans (h.lists id n hn hid)

/-- The superpeer at 1000 of the ring of five, with two peers. -/
def superpeerWithPeers : Node :=
  (Node.complete ringOfFive (twoAttempts ⟨1000⟩ .superpeer)).mapRing (·.insertPeers [⟨500⟩, ⟨600⟩])

/-- The ring of five with the two peers. -/
def ringWithPeers : Overlay ρ :=
  (complete ringOfFive (nodesOfFive ++ [twoAttempts ⟨600⟩ .peer])).put ⟨1000⟩ superpeerWithPeers

/-- An object of a creator that is not running, and whose tree is kept from 0 to 3000. -/
def foreignChunk : ChunkId := .make ⟨4500⟩ 7

/-- It belongs to the peer at 500. -/
def ringWithForeignChunk : Overlay ρ :=
  (ringWithPeers.mutateEach (.initRange (.created (.make ⟨4500⟩ 0)) ⟨4500⟩ .empty)
    (ringOfFive.holders ⟨4500⟩)).mutateEach (.migrate foreignChunk ⟨500⟩)
      (ringOfFive.holders ⟨4500⟩)

theorem settled_ringWithPeers : (ringWithPeers : Overlay ρ).Settled ringOfFive := by
  refine Settled.put_of_place (n := .complete ringOfFive (twoAttempts ⟨1000⟩ .superpeer)) ?_ rfl ?_
  · refine settled_complete ⟨⟨0⟩, by decide⟩ (fun x hx => ?_) fun x hx => ?_
    · have hall : ∀ x ∈ ringOfFive.toList, x.isReserved = false := by decide
      exact hall x hx
    · exact ⟨_, List.mem_append_left _ (List.mem_append_left _ (List.mem_map_of_mem hx)), rfl⟩
  · rfl

theorem settled_ringWithForeignChunk : (ringWithForeignChunk : Overlay ρ).Settled ringOfFive :=
  settled_ringWithPeers.mutateEach.mutateEach

/-- Nothing is stored in the ring with the peers. -/
theorem read_ringWithPeers (slot : Slot) : (ringWithPeers : Overlay ρ).read x slot = none := by
  by_cases hx : x = ⟨1000⟩
  · subst hx
    rw [ringWithPeers,
      read_put_self (n := .complete ringOfFive (twoAttempts ⟨1000⟩ .superpeer)) rfl]
    exact Directory.read_empty slot
  · rw [ringWithPeers, calm_complete.direct.read_put_of_ne hx, read_complete]

theorem agrees_ringWithForeignChunk : (ringWithForeignChunk : Overlay ρ).Agrees ringOfFive := by
  have hempty : (ringWithPeers : Overlay ρ).Agrees ringOfFive :=
    fun _ _ _ _ _ _ _ => by rw [read_ringWithPeers, read_ringWithPeers]
  have hranged := settled_ringWithPeers.agrees_mutateHolders
    (m := .initRange (.created (.make ⟨4500⟩ 0)) ⟨4500⟩ .empty) hempty rfl
  exact settled_ringWithPeers.mutateEach.agrees_mutateHolders
    (m := .migrate foreignChunk ⟨500⟩) hranged rfl

/-- The superpeer at 0 is the primary for the foreign chunk. -/
theorem owns_foreignChunk : ringOfFive.Owns foreignChunk.creator ⟨0⟩ :=
  NodeSet.head?_roundFrom.mp (by decide)

theorem recorded_foreignChunk :
    (ringWithForeignChunk : Overlay ρ).recorded ringOfFive foreignChunk = some (some ⟨500⟩) := by
  have hholder : (⟨0⟩ : NodeId) ∈ ringOfFive.holders ⟨4500⟩ := by decide
  rw [recorded_of_owns owns_foreignChunk, recordAt, ringWithForeignChunk,
    settled_ringWithPeers.mutateEach.read_mutateHolders, if_pos hholder,
    settled_ringWithPeers.read_mutateHolders, if_pos hholder, read_ringWithPeers]
  decide

/-- The state of the superpeer at 1000 there. -/
def superpeerWithForeignTree : Node :=
  (superpeerWithPeers.mutate (.initRange (.created (.make ⟨4500⟩ 0)) ⟨4500⟩ .empty)).mutate
    (.migrate foreignChunk ⟨500⟩)

theorem node?_superpeerWithForeignTree :
    (ringWithForeignChunk : Overlay ρ).node? ⟨1000⟩ = some superpeerWithForeignTree := by
  have hholder : (⟨1000⟩ : NodeId) ∈ ringOfFive.holders ⟨4500⟩ := by decide
  have hbefore : (ringWithPeers : Overlay ρ).node? ⟨1000⟩ = some superpeerWithPeers :=
    node?_put_self (n := .complete ringOfFive (twoAttempts ⟨1000⟩ .superpeer)) rfl
  rw [ringWithForeignChunk,
    settled_ringWithPeers.mutateEach.direct.node?_mutateEach (NodeSet.holders_nodup _ _),
    if_pos hholder, settled_ringWithPeers.direct.node?_mutateEach (NodeSet.holders_nodup _ _),
    if_pos hholder, hbefore]
  rfl

/-- A node that keeps no copy of the foreign tree is as it was put. -/
theorem node?_ringWithForeignChunk (hx : x ∉ ringOfFive.holders ⟨4500⟩) (hpromoter : x ≠ ⟨1000⟩) :
    (ringWithForeignChunk : Overlay ρ).node? x =
      (complete ringOfFive (nodesOfFive ++ [twoAttempts ⟨600⟩ .peer]) : Overlay ρ).node? x := by
  rw [ringWithForeignChunk,
    settled_ringWithPeers.mutateEach.direct.node?_mutateEach (NodeSet.holders_nodup _ _),
    if_neg hx, settled_ringWithPeers.direct.node?_mutateEach (NodeSet.holders_nodup _ _),
    if_neg hx, ringWithPeers, calm_complete.node?_put_of_ne hpromoter]

theorem promotable_ringWithForeignChunk :
    ∃ k, Promotable (ringWithForeignChunk : Overlay ρ) ⟨500⟩ k := by
  refine ⟨.complete ringOfFive (twoAttempts ⟨500⟩ .peer), ?_, rfl, ?_⟩
  · exact node?_ringWithForeignChunk (by decide) (by decide)
  · obtain ⟨nodes, hranged⟩ := exists_nodes_mutateEach (ringWithPeers : Overlay ρ)
      (.initRange (.created (.make ⟨4500⟩ 0)) ⟨4500⟩ .empty) (ringOfFive.holders ⟨4500⟩)
    obtain ⟨nodes', hmoved⟩ := exists_nodes_mutateEach ({ ringWithPeers with nodes } : Overlay ρ)
      (.migrate foreignChunk ⟨500⟩) (ringOfFive.holders ⟨4500⟩)
    rw [ringWithForeignChunk, hranged, hmoved]
    exact holds_put _ _ _ _ _

theorem keyed_superpeerWithForeignTree : superpeerWithForeignTree.Keyed := by
  have hempty : superpeerWithPeers.Keyed := by
    have hnone : superpeerWithPeers.directory? = some .empty := rfl
    intro d hd creator tree htree
    cases hnone.symm.trans hd
    cases htree
  exact (Node.evolves_mutate _ _).keyed ((Node.evolves_mutate _ _).keyed hempty)

/-- In the ring of five neither a recovery nor a promotion reaches the tree of the foreign chunk.
The peer at 600 takes over what the one at 500 had, or the peer at 500 becomes a superpeer, and
either way there is a chunk that is still located at 500. -/
theorem reassignment_reaches_ringOfFive :
    (∃ o', Leads (ringWithForeignChunk : Overlay Unit) ⟨600⟩ (updateAllAfterRecovery ⟨500⟩)
        (.ok ()) o' ∧ o'.Locates (o'.recorded ringOfFive) ∧
      ∃ chunk, o'.recorded ringOfFive chunk = some (some ⟨500⟩)) ∧
    ∃ o', Leads (ringWithForeignChunk : Overlay Unit) ⟨1000⟩ (promote ⟨500⟩ true) (.ok ()) o' ∧
      o'.Locates (o'.recorded (ringOfFive.insert ⟨500⟩)) ∧
      ∃ chunk, o'.recorded (ringOfFive.insert ⟨500⟩) chunk = some (some ⟨500⟩) := by
  obtain ⟨-, hrecovery, hpromotion⟩ :=
    settled_ringWithForeignChunk.reassignment_reaches (agrees_ringWithForeignChunk (ρ := Unit))
  constructor
  · obtain ⟨o', hleads, hreassigned⟩ := hrecovery ⟨500⟩ ⟨600⟩
      (.complete ringOfFive (twoAttempts ⟨600⟩ .peer))
      (node?_ringWithForeignChunk (by decide) (by decide)) (by decide)
    refine ⟨o', hleads, hreassigned.located, ?_⟩
    by_contra hnone
    have htold := hreassigned.forgotten_iff.mp (not_exists.mp hnone) foreignChunk ⟨0⟩
      owns_foreignChunk recorded_foreignChunk
    revert htold
    decide
  · obtain ⟨result, o', hleads, hok, hresult⟩ := hpromotion ⟨1000⟩ superpeerWithForeignTree ⟨500⟩
      true node?_superpeerWithForeignTree (NodeSet.head?_roundFrom.mp (by decide)) (by decide) rfl
      keyed_superpeerWithForeignTree
    have hspare : ∃ x ∈ superpeerWithForeignTree.ring.peers, x ≠ ⟨500⟩ := by
      rw [superpeerWithForeignTree, Node.ring_mutate, Node.ring_mutate]
      exact ⟨⟨600⟩, by decide, by decide⟩
    obtain rfl := hok rfl hspare promotable_ringWithForeignChunk
    obtain ⟨replacement, -, hreassigned⟩ := hresult rfl
    refine ⟨o', hleads, hreassigned.located, ?_⟩
    by_contra hnone
    have htold := hreassigned.forgotten_iff.mp (not_exists.mp hnone) foreignChunk ⟨0⟩
      (NodeSet.head?_roundFrom.mp (by decide)) recorded_foreignChunk
    revert htold
    decide

end Overlay

end ChunkDirectory
