import ChunkDirectory.Proofs.Overlay.Complete
import ChunkDirectory.Proofs.Protocol.Mutation
import ChunkDirectory.Proofs.Ring.Loss

/-!
# Replicas

The owner of a position and the superpeers it names as its backups hold the same in every slot at
that position (`Overlay.Agrees`). A request for a mutation of one slot keeps it that way, whoever it
is delivered to: the owner and its backups take the same step from the same content, everybody else
refuses, and no other slot is touched (`Settled.deliver_keyed`).
-/

namespace ChunkDirectory

/-- A request, not a copy, for a mutation that concerns one key. -/
def Message.isKeyedRequest : Message → Bool
  | .initRange _ _ _ isBackup => !isBackup
  | .migrate _ _ isBackup => !isBackup
  | .migrateRange _ _ _ isBackup => !isBackup
  | .remove _ isBackup => !isBackup
  | .insertId _ _ isBackup => !isBackup
  | _ => false

/-- A request for a mutation of one key either names the slot to change or is settled without one.
-/
theorem Message.mutation?_of_isKeyedRequest {message : Message}
    (h : message.isKeyedRequest = true) :
    (∃ m slot, message.mutation? = some (.ok m, false) ∧ m.slot? = some slot) ∨
      ∃ status, message.mutation? = some (.error status, false) := by
  cases message with
  | initRange start owner backups b =>
    cases b <;> cases h
    exact .inl ⟨_, _, rfl, rfl⟩
  | migrate chunk node b =>
    cases b <;> cases h
    exact .inl ⟨_, _, rfl, rfl⟩
  | insertId id chunk b =>
    cases b <;> cases h
    exact .inl ⟨_, _, rfl, rfl⟩
  | migrateRange start stop node b =>
    cases b <;> cases h
    by_cases hsame : start.creator = stop.creator
    · exact .inl ⟨_, _, if_pos hsame, rfl⟩
    · exact .inr ⟨_, if_neg hsame⟩
  | remove chunks b =>
    cases b <;> cases h
    cases chunks with
    | nil => exact .inr ⟨_, rfl⟩
    | cons first rest =>
      by_cases hsame : rest.all fun chunk => chunk.creator = first.creator
      · exact .inl ⟨_, _, if_pos hsame, rfl⟩
      · exact .inr ⟨_, if_neg hsame⟩
  | _ => cases h

namespace Overlay

variable {ρ : Type} {s : NodeSet} {o : Overlay ρ} {sender receiver : NodeId} {n : Node}
  {m : Mutation} {message : Message} {slot : Slot}

/-- The superpeers that an owner names as its backups hold what the owner holds. -/
def Agrees (s : NodeSet) (o : Overlay ρ) : Prop :=
  ∀ slot owner n, s.Owns slot.position owner → o.node? owner = some n →
    ∀ b ∈ n.ring.backups owner, o.read b slot = o.read owner slot

theorem Agrees.change {condition : Condition} {add remove : List NodeId} (h : o.Agrees s) :
    (o.change condition add remove).Agrees s := h

/-- What the delivery of a request for a mutation of one key comes to. -/
structure KeyedOutcome (s : NodeSet) (o : Overlay ρ) (receiver : NodeId) (message : Message)
    (reply : Except NetError Message) (o' : Overlay ρ) (events : List (Event ρ)) : Prop where
  settled : o'.Settled s
  agrees : o'.Agrees s
  /-- All slots but the one the mutation is about are left alone on every node. -/
  others : ∀ id slot, (∀ m, message.mutation? = some (.ok m, false) → m.slot? ≠ some slot) →
    o'.read id slot = o.read id slot
  /-- Nobody but the owner of the key applies the mutation. -/
  refused : ∀ m, message.mutation? = some (.ok m, false) → ¬ s.Owns m.key receiver →
    o' = o ∧ events = [] ∧ reply ≠ .ok (.status .applied)
  /-- The owner answers as the tree it has, or lacks, demands. -/
  answered : ∀ m, message.mutation? = some (.ok m, false) → s.Owns m.key receiver →
    reply = .ok (.status (m.outcome (o.read receiver (.tree m.key))))
  /-- What is not applied changes nothing. -/
  unchanged : ∀ m, message.mutation? = some (.ok m, false) → s.Owns m.key receiver →
    m.outcome (o.read receiver (.tree m.key)) ≠ .applied → o' = o ∧ events = []
  /-- What is applied is applied by the owner and by the backups, which are sent copies. -/
  applied : ∀ m n, message.mutation? = some (.ok m, false) → s.Owns m.key receiver →
    o.node? receiver = some n → m.outcome (o.read receiver (.tree m.key)) = .applied →
      events = copyEvents receiver m (n.ring.backups receiver) ∧
      ∀ id ∈ receiver :: n.ring.backups receiver, ∀ slot,
        o'.read id slot = m.change slot (o.read id slot)

/-- A message to a node that is not running reaches nobody. -/
theorem Ends.deliver_of_not_running (h : o.node? receiver = none) :
    Ends (fun fuel => Overlay.deliver fuel sender receiver message) o
      (.error (.unreachable receiver .refused)) o [] := by
  have hrunning : o.running? receiver = none := Option.map_eq_none_iff.mp h
  have hreach : o.reachable? receiver = none := by
    rw [reachable?, hrunning]
    exact ite_self none
  refine Ends.succ (fun _ => by rw [Overlay.deliver]) ?_
  refine Ends.look (fun _ _ => rfl) ?_
  rw [hreach]
  exact Ends.pure

namespace Settled

/-- The owner of a position and its backups are different superpeers. -/
theorem holders_nodup (h : o.Settled s) (hn : o.node? receiver = some n) (hid : receiver ∈ s) :
    (receiver :: n.ring.backups receiver).Nodup :=
  List.nodup_cons.mpr
    ⟨fun hmem => (h.mem_of_mem_backups hn hid hmem).2 rfl, Ring.backups_nodup _ _⟩

theorem holders_mem (h : o.Settled s) (hn : o.node? receiver = some n) (hid : receiver ∈ s) :
    ∀ id ∈ receiver :: n.ring.backups receiver, id ∈ s := by
  intro id hmem
  rcases List.mem_cons.mp hmem with rfl | hmem
  · exact hid
  · exact (h.mem_of_mem_backups hn hid hmem).1

/-- The owner and its backups keep agreeing when all of them apply the same mutation of a slot that
the owner is primary for. -/
theorem agrees_mutateEach (h : o.Settled s) (hagrees : o.Agrees s)
    (hn : o.node? receiver = some n) (hown : s.Owns m.key receiver) (hslot : m.slot? = some slot) :
    (o.mutateEach m (receiver :: n.ring.backups receiver)).Agrees s := by
  intro slot' owner n' hown' hn' b hb
  obtain ⟨n₀, hn₀, hview⟩ := h.sameViews_mutateEach.symm.exists_node? hn'
  have hring : n₀.ring = n'.ring := congrArg (·.2.1) hview
  rw [← hring] at hb
  have hbefore := hagrees slot' owner n₀ hown' hn₀ b hb
  have hmem := h.holders_mem hn hown.1
  have hnodup := h.holders_nodup hn hown.1
  rw [h.read_mutateEach hmem hnodup, h.read_mutateEach hmem hnodup]
  by_cases hsame : slot' = slot
  · subst hsame
    have howner : owner = receiver := by
      rw [Mutation.position_of_slot? hslot] at hown'
      exact hown'.unique hown
    subst howner
    rw [hn] at hn₀
    cases hn₀
    rw [if_pos (List.mem_cons_of_mem _ hb), if_pos List.mem_cons_self, hbefore]
  · rw [Mutation.change_of_ne hslot hsame, Mutation.change_of_ne hslot hsame, ite_self, ite_self,
      hbefore]

/-- The owner of a position and its backups are the holders of the position. -/
theorem cons_backups {key : NodeId} (h : o.Settled s) (hn : o.node? receiver = some n)
    (hown : s.Owns key receiver) : receiver :: n.ring.backups receiver = s.holders key := by
  have hme : n.ring.me = receiver := h.me hn
  refine Ring.cons_backups hme ?_ hown
  rw [(h.exact receiver n hn hown.1).superpeers, hme]

/-- All holders of a position store the same there. -/
theorem read_of_mem_holders {owner x : NodeId} (h : o.Settled s) (hagrees : o.Agrees s)
    (hown : s.Owns slot.position owner) (hx : x ∈ s.holders slot.position) :
    o.read x slot = o.read owner slot := by
  obtain ⟨n, hn, -⟩ := h.exists_superpeer hown.1
  rw [← h.cons_backups hn hown] at hx
  rcases List.mem_cons.mp hx with rfl | hx
  · rfl
  · exact hagrees slot owner n hown hn x hx

/-- All holders of a position may apply a mutation of a slot there. -/
theorem agrees_mutateHolders (h : o.Settled s) (hagrees : o.Agrees s)
    (hslot : m.slot? = some slot) : (o.mutateEach m (s.holders m.key)).Agrees s := by
  obtain ⟨owner, n, hown, hn, -⟩ := h.exists_owner m.key
  rw [← h.cons_backups hn hown]
  exact h.agrees_mutateEach hagrees hn hown hslot

/-- What the holders of a position store after they have applied a mutation. -/
theorem read_mutateHolders {key id : NodeId} (h : o.Settled s) :
    (o.mutateEach m (s.holders key)).read id slot =
      if id ∈ s.holders key then m.change slot (o.read id slot) else o.read id slot :=
  h.read_mutateEach (fun _ => NodeSet.mem_of_mem_holders) (s.holders_nodup key)

/-- A mutation that its owner applies. -/
theorem keyedOutcome_of_applied (h : o.Settled s) (hagrees : o.Agrees s)
    (hm : message.mutation? = some (.ok m, false)) (hslot : m.slot? = some slot)
    (hn : o.node? receiver = some n) (hown : s.Owns m.key receiver)
    (happlied : m.outcome (o.read receiver (.tree m.key)) = .applied) :
    o.KeyedOutcome s receiver message (.ok (.status .applied))
      (o.mutateEach m (receiver :: n.ring.backups receiver))
      (copyEvents receiver m (n.ring.backups receiver)) := by
  have hmem := h.holders_mem hn hown.1
  have hnodup := h.holders_nodup hn hown.1
  have hsame : ∀ m', message.mutation? = some (.ok m', false) → m' = m := by
    intro m' hm'
    rw [hm] at hm'
    cases hm'
    rfl
  refine ⟨h.mutateEach, h.agrees_mutateEach hagrees hn hown hslot, ?_, ?_, ?_, ?_, ?_⟩
  · intro id other hother
    have hne : other ≠ slot := by
      rintro rfl
      exact hother m hm hslot
    rw [h.read_mutateEach hmem hnodup, Mutation.change_of_ne hslot hne, ite_self]
  · intro m' hm' hrefused
    rw [hsame m' hm'] at hrefused
    exact absurd hown hrefused
  · intro m' hm' _
    rw [hsame m' hm', happlied]
  · intro m' hm' _ hrefused
    rw [hsame m' hm'] at hrefused
    exact absurd happlied hrefused
  · intro m' n' hm' _ hn' _
    rw [hn] at hn'
    cases hn'
    rw [hsame m' hm']
    refine ⟨rfl, fun id hid slot' => ?_⟩
    rw [h.read_mutateEach hmem hnodup, if_pos hid]

/-- A request that changes nothing. -/
theorem keyedOutcome_of_unchanged {reply : Except NetError Message} (h : o.Settled s)
    (hagrees : o.Agrees s)
    (hrefused : ∀ m, message.mutation? = some (.ok m, false) → ¬ s.Owns m.key receiver →
      reply ≠ .ok (.status .applied))
    (howner : ∀ m, message.mutation? = some (.ok m, false) → s.Owns m.key receiver →
      m.outcome (o.read receiver (.tree m.key)) ≠ .applied ∧
      reply = .ok (.status (m.outcome (o.read receiver (.tree m.key))))) :
    o.KeyedOutcome s receiver message reply o [] := by
  refine ⟨h, hagrees, fun _ _ _ => rfl, ?_, ?_, ?_, ?_⟩
  · intro m hm hown
    exact ⟨rfl, rfl, hrefused m hm hown⟩
  · intro m hm hown
    exact (howner m hm hown).2
  · intro m _ _ _
    exact ⟨rfl, rfl⟩
  · intro m _ hm hown _ happlied
    exact absurd happlied (howner m hm hown).1

/-- Delivering a request for a mutation of one key, to any node whatever, keeps replicas in
agreement. Only the owner of the key applies it, with the superpeers it sends copies to, and nothing
is changed at other keys. -/
theorem deliver_keyed (h : o.Settled s) (hagrees : o.Agrees s)
    (hkeyed : message.isKeyedRequest = true) :
    ∃ reply o' events,
      Ends (fun fuel => deliver fuel sender receiver message) o reply o' events ∧
      o.KeyedOutcome s receiver message reply o' events := by
  cases hn : o.node? receiver with
  | none =>
    refine ⟨_, _, _, Ends.deliver_of_not_running hn, h.keyedOutcome_of_unchanged hagrees ?_ ?_⟩
    · intro m _ _ hreply
      cases hreply
    · intro m _ hown
      obtain ⟨n, hn', -⟩ := h.exists_superpeer hown.1
      rw [hn] at hn'
      cases hn'
  | some n =>
    rcases Message.mutation?_of_isKeyedRequest hkeyed with ⟨m, slot, hm, hslot⟩ | ⟨status, hstatus⟩
    · have hrequestable := (Mutation.of_mutation? hm).2
      have hsame : ∀ m', message.mutation? = some (.ok m', false) → m' = m := by
        intro m' hm'
        rw [hm] at hm'
        cases hm'
        rfl
      by_cases hown : s.Owns m.key receiver
      · by_cases happlied : m.outcome (o.read receiver (.tree m.key)) = .applied
        · have hmutate := h.does_mutate_applied hn hown hrequestable happlied
          obtain ⟨n₁, hn₁, -⟩ := h.sameViews_mutateEach.exists_node? hn
          exact ⟨_, _, _, Ends.deliver h.toCalm (Does.handle_mutation hm hmutate hn₁),
            h.keyedOutcome_of_applied hagrees hm hslot hn hown happlied⟩
        · have hmutate := h.does_mutate_refused hn hown happlied
          refine ⟨_, _, _, Ends.deliver h.toCalm (Does.handle_mutation hm hmutate hn),
            h.keyedOutcome_of_unchanged hagrees ?_ ?_⟩
          · intro m' hm' hrefused
            rw [hsame m' hm'] at hrefused
            exact absurd hown hrefused
          · intro m' hm' _
            rw [hsame m' hm']
            exact ⟨happlied, rfl⟩
      · have hmutate := h.does_mutate_of_not_owns hn hown
        refine ⟨_, _, _, Ends.deliver h.toCalm (Does.handle_mutation hm hmutate hn),
          h.keyedOutcome_of_unchanged hagrees ?_ ?_⟩
        · intro _ _ _ hreply
          split at hreply <;> cases hreply
        · intro m' hm' howner
          rw [hsame m' hm'] at howner
          exact absurd howner hown
    · have hhandle := Protocol.handleMessage_of_settled sender hstatus
      refine ⟨_, _, _, Ends.deliver h.toCalm (by rw [hhandle]; exact Does.pure hn),
        h.keyedOutcome_of_unchanged hagrees ?_ ?_⟩
      · intro m hm
        rw [hstatus] at hm
        cases hm
      · intro m hm
        rw [hstatus] at hm
        cases hm

/-- A peer of the small ring asks the superpeer at 1000 to register its first range. -/
theorem deliver_keyed_smallOverlay :
    ∃ reply o' events,
      Ends (fun fuel => deliver fuel ⟨500⟩ ⟨1000⟩
        (.initRange (.created (.make ⟨500⟩ 0)) ⟨500⟩ .empty false))
        (smallOverlay : Overlay Unit) reply o' events ∧
      smallOverlay.KeyedOutcome smallRing ⟨1000⟩
        (.initRange (.created (.make ⟨500⟩ 0)) ⟨500⟩ .empty false) reply o' events :=
  settled_smallOverlay.deliver_keyed
    (fun _ _ _ _ _ _ _ => by rw [smallOverlay, read_complete, read_complete]) rfl

end Settled

end Overlay

end ChunkDirectory
