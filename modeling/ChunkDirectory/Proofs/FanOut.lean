import ChunkDirectory.Proofs.Overlay.Complete
import ChunkDirectory.Proofs.Protocol.Disturbed
import ChunkDirectory.Proofs.Protocol.Undisturbed

/-!
# The fan-out of a mutation

A mutation is applied as a whole or not at all, and only the primary sends it on. A request that is
not answered as applied leaves the node as it was and asks nothing of its surroundings. A copy is
never sent on. When the primary answers that the request is applied it has changed all slots of its
directory before it first waited, and has then sent one copy to each of the superpeers that were
next on the ring at that time (`FannedOut`).

The answers to the copies decide nothing but which backups are handed to failure handling, and
whatever happens to the node while it waits for them does not change whom they are sent to.
-/

namespace ChunkDirectory

/-- A primary in state `n` applied a request before anything else, and then sent one copy to each
of its backups and handed over those that could not be reached. -/
structure FannedOut (sender : NodeId) (n : Node) (message : Message) (m : Mutation)
    (log : List Answered) : Prop where
  request : message = m.message false
  superpeer : n.isSuperpeer = true
  primary : n.isPrimaryFor m.key = true
  inRange : ∀ p, n.ring.predecessor = some p → Arc.contains ⟨p, n.me, .upperClosed⟩ m.key = true
  /-- When it first waits, or ends without waiting, the node has applied the mutation. -/
  applied : (Protocol.handleMessage sender message n).state = n.mutate m
  slots : ∀ slot, (n.mutate m).read slot = m.change slot (n.read slot)
  copies : log.filterMap Answered.sent? = (n.ring.backups n.me).map fun b => (b, m.message true)
  once : (n.ring.backups n.me).Nodup
  few : (n.ring.backups n.me).length ≤ 3
  others : ∀ b ∈ n.ring.backups n.me, b ∈ n.ring.superpeers ∧ b ≠ n.me
  inOrder : (n.ring.backups n.me).Pairwise fun a b =>
    NodeId.clockwise n.me a < NodeId.clockwise n.me b
  handedOver : log.filterMap Answered.spawned? =
    (log.filterMap Answered.unreachable?).map Background.handleFailure
  queued : ∀ e ∈ log, ∀ b, e.request = .spawn (.handleFailure b) → b ∈ e.node.failures

namespace Progress

variable {α β : Type} {p : Progress α} {f : α → Task β}

theorem state_bind (h : ∀ a n, (f a n).state = n) : (p.bind f).state = p.state := by
  cases p with
  | done a n => exact h a n
  | wait => rfl
  | enter => rfl

end Progress

namespace Ring

variable {r : Ring} {id : NodeId}

theorem length_backups_le (r : Ring) (id : NodeId) : (r.backups id).length ≤ replicas :=
  List.length_take_le _ _

/-- The keepers of copies are listed by their distance. -/
theorem backups_ascending (r : Ring) (id : NodeId) :
    (r.backups id).Pairwise fun a b => NodeId.clockwise id a < NodeId.clockwise id b :=
  (r.successorsAfter_ascending id).sublist (List.take_sublist _ _)

end Ring

theorem Node.contains_of_isPrimaryFor {n : Node} {id p : NodeId} (h : n.isPrimaryFor id = true)
    (hp : n.ring.predecessor = some p) : Arc.contains ⟨p, n.me, .upperClosed⟩ id = true := by
  unfold isPrimaryFor primaryArea at h
  rw [hp] at h
  cases hsuper : n.isSuperpeer with
  | true => simpa [hsuper, Area.contains] using h
  | false => simp [hsuper] at h

namespace Protocol

variable {n n' : Node} {m : Mutation} {isBackup : Bool} {log : List Answered} {sender : NodeId}
  {message copy : Message} {backups : List NodeId}

/-- The primary applies a request and sends copies before it answers. -/
theorem handleMessage_of_primary {d : Directory} (hm : message.mutation? = some (.ok m, false))
    (sender : NodeId) (hd : n.directory? = some d) (hprimary : n.isPrimaryFor m.key = true)
    (happlied : (m.apply d).2 = .applied) :
    handleMessage sender message n =
      (copyTo (m.message true) (n.ring.backups n.me) (n.mutate m)).bind
        fun _ => return .status .applied := by
  have hmutate := mutate_of_superpeer m false hd
  rw [if_neg Bool.false_ne_true, if_pos hprimary, if_pos happlied] at hmutate
  rw [handleMessage_of_mutation hm]
  show (mutate m false n).bind _ = _
  rw [hmutate]
  show ((copyTo _ _ _).bind _).bind _ = _
  rw [Progress.bind_bind, Node.ring_mutate, Node.me_mutate]
  rfl

/-- A request is answered at once: it is refused, or it is applied and need not be sent on. Or the
primary has applied it and sends copies before it answers. -/
theorem handleMessage_cases {asked : Except RequestStatus Mutation}
    (hm : message.mutation? = some (asked, isBackup)) (sender : NodeId) (n : Node) :
    (∃ reply, reply ≠ .status .applied ∧ handleMessage sender message n = .done reply n) ∨
      (∃ n', handleMessage sender message n = .done (.status .applied) n' ∧
        (isBackup = true ∨ ∃ status, asked = .error status)) ∨
      ∃ m, asked = .ok m ∧ isBackup = false ∧ n.isSuperpeer = true ∧
        n.isPrimaryFor m.key = true ∧
        handleMessage sender message n =
          (copyTo (m.message true) (n.ring.backups n.me) (n.mutate m)).bind
            fun _ => return .status .applied := by
  cases asked with
  | error status =>
    have hhandle : handleMessage sender message n = .done (.status status) n := by
      rw [handleMessage_of_settled sender hm]
      rfl
    by_cases happlied : status = .applied
    · rw [happlied] at hhandle
      exact .inr (.inl ⟨n, hhandle, .inr ⟨status, rfl⟩⟩)
    · exact .inl ⟨_, fun heq => happlied (Message.status.inj heq), hhandle⟩
  | ok m =>
    have hhandle : handleMessage sender message n =
        (mutate m isBackup n).bind fun status => return .status status := by
      rw [handleMessage_of_mutation hm]
      rfl
    have hrefused {status : RequestStatus} (hne : status ≠ .applied)
        (hmutate : mutate m isBackup n = .done status n) :
        ∃ reply, reply ≠ .status .applied ∧ handleMessage sender message n = .done reply n :=
      ⟨.status status, fun heq => hne (Message.status.inj heq), by rw [hhandle, hmutate]; rfl⟩
    cases hd : n.directory? with
    | none =>
      have hpeer : n.isSuperpeer = false := by rw [Node.isSuperpeer, hd]; rfl
      exact .inl (hrefused (by simp) (mutate_of_peer m isBackup hpeer))
    | some d =>
      have hsuper : n.isSuperpeer = true := by rw [Node.isSuperpeer, hd]; rfl
      have hmutate := mutate_of_superpeer m isBackup hd
      cases isBackup with
      | true => exact .inr (.inl ⟨n.mutate m, by rw [hhandle, hmutate]; rfl, .inl rfl⟩)
      | false =>
        rw [if_neg Bool.false_ne_true] at hmutate
        by_cases hprimary : n.isPrimaryFor m.key = true
        · rw [if_pos hprimary] at hmutate
          by_cases happlied : (m.apply d).2 = .applied
          · have hfirst := handleMessage_of_primary hm sender hd hprimary happlied
            exact .inr (.inr ⟨m, rfl, rfl, hsuper, hprimary, hfirst⟩)
          · have hsame : n.mutate m = n := by
              rw [← Node.mapDirectory_apply hd, Mutation.apply_fst_of_refused happlied,
                Node.mapDirectory_self hd]
            rw [if_neg happlied, hsame] at hmutate
            exact .inl (hrefused happlied hmutate)
        · rw [if_neg hprimary] at hmutate
          exact .inl (hrefused (by simp) hmutate)

theorem state_copyTo (copy : Message) (backups : List NodeId) (n : Node) :
    (copyTo copy backups n).state = n := by
  cases backups <;> rfl

/-- One copy was sent to each of the given superpeers, in their order, and one that could not be
reached was queued and handed over before the next copy was sent. -/
inductive Copied (copy : Message) : List NodeId → List Answered → Prop
  | none : Copied copy [] []
  | reached {n : Node} {b : NodeId} {rest : List NodeId} {log : List Answered} (reply : Message) :
      Copied copy rest log → Copied copy (b :: rest) (⟨n, .call b copy, .ok reply⟩ :: log)
  | unreachable {n n' : Node} {b : NodeId} {rest : List NodeId} {log : List Answered}
      (e : NetError) (queued : b ∈ n'.failures) :
      Copied copy rest log →
      Copied copy (b :: rest)
        (⟨n, .call b copy, .error e⟩ :: ⟨n', .spawn (.handleFailure b), ()⟩ :: log)

namespace Copied

theorem sent (h : Copied copy backups log) :
    log.filterMap Answered.sent? = backups.map fun b => (b, copy) := by
  induction h with
  | none => rfl
  | reached reply _ ih => rw [List.filterMap_cons_some Answered.sent?_call, ih, List.map_cons]
  | unreachable e _ _ ih =>
    rw [List.filterMap_cons_some Answered.sent?_call,
      List.filterMap_cons_none Answered.sent?_spawn, ih, List.map_cons]

theorem spawned (h : Copied copy backups log) :
    log.filterMap Answered.spawned? =
      (log.filterMap Answered.unreachable?).map Background.handleFailure := by
  induction h with
  | none => rfl
  | reached reply _ ih =>
    rw [List.filterMap_cons_none Answered.spawned?_call,
      List.filterMap_cons_none Answered.unreachable?_call_ok, ih]
  | unreachable e _ _ ih =>
    rw [List.filterMap_cons_none Answered.spawned?_call,
      List.filterMap_cons_some Answered.spawned?_spawn,
      List.filterMap_cons_some Answered.unreachable?_call_error,
      List.filterMap_cons_none Answered.unreachable?_spawn, ih, List.map_cons]

theorem queued (h : Copied copy backups log) :
    ∀ e ∈ log, ∀ b, e.request = .spawn (.handleFailure b) → b ∈ e.node.failures := by
  induction h with
  | none => exact fun e he => by cases he
  | reached reply _ ih =>
    intro e he b hspawn
    rcases List.mem_cons.mp he with rfl | he
    · cases hspawn
    · exact ih e he b hspawn
  | unreachable _ hqueued _ ih =>
    intro e he b hspawn
    rcases List.mem_cons.mp he with rfl | he
    · cases hspawn
    · rcases List.mem_cons.mp he with rfl | he
      · cases hspawn
        exact hqueued
      · exact ih e he b hspawn

end Copied

theorem copied_of_copyTo (h : (copyTo copy backups n).Reaches log (.done () n')) :
    Copied copy backups log := by
  induction backups generalizing n log with
  | nil =>
    obtain ⟨rfl, -⟩ := Progress.reaches_done.mp h
    exact .none
  | cons b rest ih =>
    obtain ⟨-, hwait⟩ | ⟨reply, n₁, log, rfl, hrest⟩ := Progress.reaches_wait.mp h
    · cases hwait
    · cases reply with
      | ok reply => exact .reached reply (ih (n := n₁) hrest)
      | error e =>
        obtain ⟨-, hwait⟩ | ⟨⟨⟩, n₂, log, rfl, hlast⟩ := Progress.reaches_wait.mp hrest
        · cases hwait
        · exact .unreachable e (Node.mem_failures_enqueue.mpr (.inr rfl)) (ih (n := n₂) hlast)

/-- The answer is given when all copies are sent. -/
theorem copied_of_reaches {reply answer : Message}
    (hrun : ((copyTo copy backups n).bind fun _ => return answer).Reaches log (.done reply n')) :
    reply = answer ∧ Copied copy backups log := by
  rcases Progress.reaches_bind hrun with ⟨p, hp, hq⟩ | ⟨first, ⟨⟩, k, rest, rfl, hfirst, hlast⟩
  · cases p with
    | done a k =>
      cases hq
      exact ⟨rfl, copied_of_copyTo hp⟩
    | wait => cases hq
    | enter => cases hq
  · obtain ⟨rfl, hq⟩ := Progress.reaches_done.mp hlast
    cases hq
    rw [List.append_nil]
    exact ⟨rfl, copied_of_copyTo hfirst⟩

/-- What the primary has done when all copies are sent. -/
theorem fannedOut_of_copied (hm : message.mutation? = some (.ok m, false))
    (hsuper : n.isSuperpeer = true) (hprimary : n.isPrimaryFor m.key = true)
    (hhandle : handleMessage sender message n =
      (copyTo (m.message true) (n.ring.backups n.me) (n.mutate m)).bind
        fun _ => return .status .applied)
    (hcopied : Copied (m.message true) (n.ring.backups n.me) log) :
    FannedOut sender n message m log where
  request := (Mutation.of_mutation? hm).1
  superpeer := hsuper
  primary := hprimary
  inRange := fun p => Node.contains_of_isPrimaryFor hprimary
  applied := by rw [hhandle, Progress.state_bind fun _ _ => rfl, state_copyTo]
  slots := fun slot => Node.read_mutate hsuper
  copies := hcopied.sent
  once := n.ring.backups_nodup n.me
  few := n.ring.length_backups_le n.me
  others := fun b => Ring.mem_of_mem_backups
  inOrder := n.ring.backups_ascending n.me
  handedOver := hcopied.spawned
  queued := hcopied.queued

end Protocol

open Protocol

/-- Whatever a node is, whatever is answered to it and whatever else happens on it meanwhile, a
request for a mutation that is not answered as applied has no effect, a request flagged as a copy
sends nothing, and one that is applied by the primary is fanned out. -/
theorem mutation_all_or_nothing {sender : NodeId} {n : Node} {message : Message}
    {asked : Except RequestStatus Mutation} {isBackup : Bool} {log : List Answered}
    {p : Progress Message} (hm : message.mutation? = some (asked, isBackup))
    (hrun : (handleMessage sender message n).Reaches log p) :
    (∀ reply n', p = .done reply n' → reply ≠ .status .applied → log = [] ∧ n' = n) ∧
      (isBackup = true → log = []) ∧
      ∀ m n', asked = .ok m → isBackup = false → p = .done (.status .applied) n' →
        FannedOut sender n message m log := by
  rcases handleMessage_cases hm sender n with
    ⟨refusal, hne, hhandle⟩ | ⟨k, hhandle, hquiet⟩ |
      ⟨m, rfl, rfl, hsuper, hprimary, hhandle⟩
  · rw [hhandle] at hrun
    obtain ⟨rfl, rfl⟩ := Progress.reaches_done.mp hrun
    refine ⟨?_, fun _ => rfl, ?_⟩
    · intro reply n' hp _
      cases hp
      exact ⟨rfl, rfl⟩
    · intro m n' _ _ hp
      cases hp
      exact absurd rfl hne
  · rw [hhandle] at hrun
    obtain ⟨rfl, rfl⟩ := Progress.reaches_done.mp hrun
    refine ⟨?_, fun _ => rfl, ?_⟩
    · intro reply n' hp hrefused
      cases hp
      exact absurd rfl hrefused
    · intro m n' hasked hrequest _
      rcases hquiet with hcopy | ⟨status, hsettled⟩
      · cases hrequest.symm.trans hcopy
      · cases hasked.symm.trans hsettled
  · rw [hhandle] at hrun
    refine ⟨?_, fun hcopy => absurd hcopy Bool.false_ne_true, ?_⟩
    · rintro reply n' rfl hrefused
      exact absurd (copied_of_reaches hrun).1 hrefused
    · rintro m' n' hasked - rfl
      cases hasked
      exact fannedOut_of_copied hm hsuper hprimary hhandle (copied_of_reaches hrun).2

open Overlay (ringOfFive twoAttempts)

/-- The superpeer at 1000 in a ring of five registers the first range of a new creator while one of
its three backups cannot be reached. -/
theorem mutation_all_or_nothing_unreachable :
    ∃ log n',
      (handleMessage ⟨500⟩ (.initRange (.created (.make ⟨500⟩ 0)) ⟨500⟩ .empty false)
        (.complete ringOfFive (twoAttempts ⟨1000⟩ .superpeer))).Reaches log
          (.done (.status .applied) n') ∧
      FannedOut ⟨500⟩ (.complete ringOfFive (twoAttempts ⟨1000⟩ .superpeer))
        (.initRange (.created (.make ⟨500⟩ 0)) ⟨500⟩ .empty false)
        (.initRange (.created (.make ⟨500⟩ 0)) ⟨500⟩ .empty) log ∧
      log.filterMap Answered.unreachable? = [⟨3000⟩] := by
  let owner : Node := .complete ringOfFive (twoAttempts ⟨1000⟩ .superpeer)
  let m : Mutation := .initRange (.created (.make ⟨500⟩ 0)) ⟨500⟩ .empty
  have hm : (m.message false).mutation? = some (.ok m, false) := rfl
  have hbackups : owner.ring.backups owner.me = [⟨2000⟩, ⟨3000⟩, ⟨4000⟩] := by decide
  have hrun : (handleMessage ⟨500⟩ (m.message false) owner).Reaches
      [⟨owner.mutate m, .call ⟨2000⟩ (m.message true), .ok (.status .applied)⟩,
        ⟨owner.mutate m, .call ⟨3000⟩ (m.message true), .error (.timeout ⟨3000⟩)⟩,
        ⟨(owner.mutate m).enqueue ⟨3000⟩, .spawn (.handleFailure ⟨3000⟩), ()⟩,
        ⟨owner.mutate m, .call ⟨4000⟩ (m.message true), .ok (.status .notSuperpeer)⟩]
      (.done (.status .applied) owner) := by
    rw [handleMessage_of_primary hm ⟨500⟩ rfl (by decide) rfl, hbackups]
    exact .wait _ (.wait _ (.wait _ (.wait _ .here)))
  obtain ⟨-, -, hfanned⟩ := mutation_all_or_nothing hm hrun
  exact ⟨_, _, hrun, hfanned m owner rfl rfl rfl, rfl⟩

end ChunkDirectory
