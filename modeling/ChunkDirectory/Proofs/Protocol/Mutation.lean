import ChunkDirectory.Proofs.Overlay.Settled

/-!
# Mutations in a settled overlay

What each node does with a request for a mutation. A copy is applied by whichever superpeer gets it
(`does_copy`). The request itself is refused by everyone but the owner of its key
(`does_mutate_of_not_owns`); the owner applies it, and so do the superpeers it sends copies to
(`does_mutate_applied`), or it refuses and nobody changes anything (`does_mutate_refused`).
-/

namespace ChunkDirectory

namespace Mutation

variable {m : Mutation} {isBackup : Bool}

/-- The mutation can be asked for: what it names belongs to one creator. -/
def Requestable (m : Mutation) : Prop :=
  ∀ isBackup, (m.message isBackup).mutation? = some (.ok m, isBackup)

/-- A request is the message of the mutation it asks for. -/
theorem of_mutation? {message : Message} (h : message.mutation? = some (.ok m, isBackup)) :
    message = m.message isBackup ∧ m.Requestable := by
  cases message with
  | updateAll owner restorer b => cases h; exact ⟨rfl, fun _ => rfl⟩
  | initRange start owner backups b => cases h; exact ⟨rfl, fun _ => rfl⟩
  | migrate chunk node b => cases h; exact ⟨rfl, fun _ => rfl⟩
  | insertId id chunk b => cases h; exact ⟨rfl, fun _ => rfl⟩
  | migrateRange start stop node b =>
    simp only [Message.mutation?] at h
    split at h
    case isTrue hsame =>
      cases h
      exact ⟨rfl, fun _ => if_pos hsame⟩
    case isFalse => cases h
  | remove chunks b =>
    cases chunks with
    | nil => cases h
    | cons first rest =>
      simp only [Message.mutation?] at h
      split at h
      case isTrue hsame =>
        cases h
        exact ⟨rfl, fun _ => if_pos hsame⟩
      case isFalse => cases h
  | _ => cases h

end Mutation

namespace Protocol

variable {message : Message} {m : Mutation} {isBackup : Bool}

theorem handleMessage_of_mutation {sender : NodeId}
    (h : message.mutation? = some (.ok m, isBackup)) :
    handleMessage sender message = (mutate m isBackup >>= fun status => return .status status) := by
  unfold handleMessage
  rw [h]

/-- A request for chunks of several creators, or for none, is settled without looking at the node.
-/
theorem handleMessage_of_settled {status : RequestStatus} (sender : NodeId)
    (h : message.mutation? = some (.error status, isBackup)) :
    handleMessage sender message = (return .status status) := by
  unfold handleMessage
  rw [h]

end Protocol

namespace Overlay

variable {ρ : Type} {s : NodeSet} {o : Overlay ρ} {id sender : NodeId} {n : Node} {m : Mutation}

/-- The events of a mutation that is copied from one node to others, latest first. -/
def copyEvents (id : NodeId) (m : Mutation) (backups : List NodeId) : List (Event ρ) :=
  (backups.map fun b => .called id b (m.message true) (.ok (.status .applied))).reverse

theorem node?_mutateAt_self (h : o.node? id = some n) :
    (o.mutateAt m id).node? id = some (n.mutate m) := by
  rw [mutateAt_of_node? h, node?_put_self h]

/-- A request for a mutation is answered with the status of the mutation. -/
theorem Does.handle_mutation {message : Message} {isBackup : Bool} {status : RequestStatus}
    {o₁ : Overlay ρ} {n₁ : Node} {events : List (Event ρ)}
    (hm : message.mutation? = some (.ok m, isBackup))
    (h : Does o id (Protocol.mutate m isBackup) status o₁ events) (hn₁ : o₁.node? id = some n₁) :
    Does o id (Protocol.handleMessage sender message) (.status status) o₁ events := by
  rw [Protocol.handleMessage_of_mutation hm]
  exact h.map hn₁

namespace Settled

/-- A superpeer applies a copy. -/
theorem does_copy (h : o.Settled s) (hid : id ∈ s) (hm : m.Requestable) :
    Does o id (Protocol.handleMessage sender (m.message true)) (.status .applied)
      (o.mutateAt m id) [] := by
  obtain ⟨n, hn, hrole⟩ := h.exists_superpeer hid
  obtain ⟨d, hd⟩ := Node.exists_directory hrole
  have hmutate : Does o id (Protocol.mutate m true) .applied (o.mutateAt m id) [] := by
    unfold Protocol.mutate
    apply Does.node_bind hn
    rw [hd]
    simp only [if_true]
    apply Does.modify_bind hn
    rw [Node.mapDirectory_apply hd, mutateAt_of_node? hn]
    exact Does.pure (node?_put_self hn)
  exact hmutate.handle_mutation (hm true) (node?_mutateAt_self hn)

/-- Copies are sent one after the other, and every receiver applies its copy. -/
theorem does_copyTo {backups : List NodeId} (h : o.Settled s) (hn : o.node? id = some n)
    (hbackups : ∀ b ∈ backups, b ∈ s) (hm : m.Requestable) :
    Does o id (Protocol.copyTo (m.message true) backups) () (o.mutateEach m backups)
      (copyEvents id m backups) := by
  induction backups generalizing o n with
  | nil => exact Does.pure hn
  | cons b rest ih =>
    have hb := hbackups b List.mem_cons_self
    obtain ⟨n₁, hn₁, -⟩ := (h.sameViews_mutateAt b m).exists_node? hn
    have hcall := Does.call h.toCalm hn (h.does_copy hb hm) hn₁
    have hrest := ih h.mutateAt hn₁ fun x hx => hbackups x (List.mem_cons_of_mem b hx)
    have hevents : (copyEvents id m (b :: rest) : List (Event ρ)) =
        copyEvents id m rest ++
          ([] ++ [.called id b (m.message true) (.ok (.status .applied))]) := by
      simp only [copyEvents, List.map_cons, List.reverse_cons, List.nil_append]
    rw [hevents]
    unfold Protocol.copyTo
    exact hcall.bind hrest

/-- Whoever does not own the key refuses and changes nothing. -/
theorem does_mutate_of_not_owns (h : o.Settled s) (hn : o.node? id = some n)
    (hown : ¬ s.Owns m.key id) :
    Does o id (Protocol.mutate m false)
      (if n.isSuperpeer then .notResponsible else .notSuperpeer) o [] := by
  unfold Protocol.mutate
  apply Does.node_bind hn
  cases hd : n.directory? with
  | none =>
    have hrole : n.isSuperpeer = false := by rw [Node.isSuperpeer, hd]; rfl
    rw [hrole]
    exact Does.pure hn
  | some d =>
    have hrole : n.isSuperpeer = true := by rw [Node.isSuperpeer, hd]; rfl
    have hprimary : n.isPrimaryFor m.key = false := by
      rw [← Bool.not_eq_true]
      exact fun hprimary => hown ((h.isPrimaryFor_iff hn m.key).mp hprimary)
    rw [hrole]
    simp only [hprimary]
    exact Does.pure hn

/-- The superpeers that an owner sends copies to are other superpeers of the ring. -/
theorem mem_of_mem_backups (h : o.Settled s) (hn : o.node? id = some n) (hid : id ∈ s) {b : NodeId}
    (hb : b ∈ n.ring.backups id) : b ∈ s ∧ b ≠ id := by
  obtain ⟨hlisted, hne⟩ := Ring.mem_of_mem_backups hb
  rw [(h.exact id n hn hid).superpeers] at hlisted
  exact ⟨(NodeSet.mem_erase.mp hlisted).1, hne⟩

/-- The owner applies a mutation and has it applied by the superpeers that keep copies. -/
theorem does_mutate_applied (h : o.Settled s) (hn : o.node? id = some n) (hown : s.Owns m.key id)
    (hm : m.Requestable) (happlied : m.outcome (o.read id (.tree m.key)) = .applied) :
    Does o id (Protocol.mutate m false) .applied (o.mutateEach m (id :: n.ring.backups id))
      (copyEvents id m (n.ring.backups id)) := by
  have hid := hown.1
  have hprimary := (h.isPrimaryFor_iff hn m.key).mpr hown
  obtain ⟨d, hd⟩ := Node.exists_directory ((h.superpeer_iff id n hn).mpr hid)
  rw [read_of_node? hn, Node.read_of_directory? hd, ← Mutation.apply_snd] at happlied
  have hn₁ := node?_mutateAt_self (m := m) hn
  have hcopies : Does (o.mutateAt m id) id (Protocol.replicate m) ()
      (o.mutateEach m (id :: n.ring.backups id)) (copyEvents id m (n.ring.backups id)) := by
    unfold Protocol.replicate
    apply Does.node_bind hn₁
    rw [Node.ring_mutate, Node.me_mutate, h.me hn]
    exact h.mutateAt.does_copyTo hn₁ (fun b hb => (h.mem_of_mem_backups hn hid hb).1) hm
  unfold Protocol.mutate
  apply Does.node_bind hn
  rw [hd]
  simp only [hprimary, happlied, if_true, Bool.false_eq_true, if_false]
  apply Does.modify_bind hn
  rw [Node.mapDirectory_apply hd, ← mutateAt_of_node? hn]
  obtain ⟨n₂, hn₂, -⟩ := h.sameViews_mutateEach.exists_node? hn
  exact hcopies.map hn₂

/-- The owner refuses a mutation of a tree it does not have. -/
theorem does_mutate_refused (h : o.Settled s) (hn : o.node? id = some n) (hown : s.Owns m.key id)
    (hrefused : m.outcome (o.read id (.tree m.key)) ≠ .applied) :
    Does o id (Protocol.mutate m false) (m.outcome (o.read id (.tree m.key))) o [] := by
  have hprimary := (h.isPrimaryFor_iff hn m.key).mpr hown
  obtain ⟨d, hd⟩ := Node.exists_directory ((h.superpeer_iff id n hn).mpr hown.1)
  rw [read_of_node? hn, Node.read_of_directory? hd, ← Mutation.apply_snd] at hrefused ⊢
  have hsame := Mutation.apply_fst_of_refused hrefused
  unfold Protocol.mutate
  apply Does.node_bind hn
  rw [hd]
  simp only [hprimary, hrefused, hsame, if_true, Bool.false_eq_true, if_false]
  apply Does.modify_bind hn
  rw [Node.mapDirectory_self hd, put_of_node? hn]
  exact Does.pure hn

end Settled

end Overlay

end ChunkDirectory
