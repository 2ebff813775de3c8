import ChunkDirectory.Proofs.Concurrency.Tame
import ChunkDirectory.Proofs.Directory.Transfer
import ChunkDirectory.Proofs.Ring.Formed

/-!
# Quiet steps

Most steps of a machine are quiet: the node that goes on becomes what the segment says, which is a
mutation of its directory or nothing (`Machine.Quiet`). Nodes only evolve by quiet steps, their
roles and views of the ring stay as they are (`Machine.Quiet.evolves`). A thread that is tame goes
on quietly until it comes to its goal (`Thread.Tame.step`).
-/

namespace ChunkDirectory

namespace Node

variable {s ps S : NodeSet} {n n' : Node} {new : NodeId}

/-- Every tree of the directory, if there is one, is stored under its creator. -/
def Keyed (n : Node) : Prop := ∀ d, n.directory? = some d → d.trees.Keyed

theorem keyed_of_peer (h : n.isSuperpeer = false) : n.Keyed := by
  intro d hd
  rw [isSuperpeer, hd] at h
  cases h

theorem Keyed.congr (h : n.Keyed) (hsame : n'.directory? = n.directory?) : n'.Keyed := by
  rw [Keyed, hsame]
  exact h

theorem Keyed.mapDirectory (h : n.Keyed) {f : Directory → Directory}
    (hf : ∀ d : Directory, d.trees.Keyed → (f d).trees.Keyed) : (n.mapDirectory f).Keyed := by
  intro d hd
  rw [directory?_mapDirectory] at hd
  obtain ⟨old, hold, rfl⟩ := Option.map_eq_some_iff.mp hd
  exact hf old (h old hold)

theorem Keyed.store (h : n.Keyed) (trees : List LookupTree)
    (mappings : List (ApplicationId × ChunkId)) : (n.store trees mappings).Keyed :=
  h.mapDirectory fun _ hd => hd.insertAll trees

/-- `n'` is `n` after mutations, as far as directories go. -/
structure Evolves (n n' : Node) (ms : List Mutation) : Prop where
  ring : n'.ring = n.ring
  role : n'.isSuperpeer = n.isSuperpeer
  read : n.isSuperpeer = true → ∀ slot, n'.read slot = slot.replay ms (n.read slot)
  keyed : n.Keyed → n'.Keyed

theorem evolves_of_core (h : n'.core = n.core) : n.Evolves n' [] := by
  obtain ⟨-, hring, hrole⟩ : n'.config = n.config ∧ n'.ring = n.ring ∧ n'.role = n.role := by
    simpa only [core, Prod.mk.injEq] using h
  have hdirectory : n'.directory? = n.directory? := by rw [directory?, directory?, hrole]
  refine ⟨hring, ?_, ?_, fun hkeyed => hkeyed.congr hdirectory⟩
  · rw [isSuperpeer, isSuperpeer, hdirectory]
  · intro _ slot
    rw [read, read, hdirectory, Slot.replay_nil]

theorem evolves_mutate (n : Node) (m : Mutation) : n.Evolves (n.mutate m) [m] := by
  refine ⟨ring_mutate, isSuperpeer_mutate, fun hrole slot => read_mutate hrole,
    fun hkeyed d hd => ?_⟩
  rw [directory?_mutate] at hd
  obtain ⟨old, hold, rfl⟩ := Option.map_eq_some_iff.mp hd
  exact m.keyed_apply (hkeyed old hold)

theorem Evolves.of_core {ms : List Mutation} {n₁ : Node} (h : n.Evolves n₁ ms)
    (hcore : n'.core = n₁.core) : n.Evolves n' ms := by
  have hsame := evolves_of_core hcore
  refine ⟨hsame.ring.trans h.ring, hsame.role.trans h.role, fun hrole slot => ?_,
    fun hkeyed => hsame.keyed (h.keyed hkeyed)⟩
  rw [hsame.read (h.role.trans hrole) slot, Slot.replay_nil]
  exact h.read hrole slot

theorem isPrimaryFor_congr (hring : n'.ring = n.ring) (hrole : n'.isSuperpeer = n.isSuperpeer)
    (id : NodeId) : n'.isPrimaryFor id = n.isPrimaryFor id := by
  rw [isPrimaryFor, isPrimaryFor, primaryArea, primaryArea, hrole, hring, me, me, hring]

/-! ## Who gets copies -/

/-- What a superpeer is primary for belongs to none of those it sends copies to. -/
def Proper (S : NodeSet) (n : Node) : Prop :=
  n.isSuperpeer = true → ∀ id, n.isPrimaryFor id = true →
    ∀ b ∈ n.ring.backups n.me, ¬ S.Owns id b

theorem proper_of_peer (h : n.isSuperpeer = false) : n.Proper S := by
  intro hrole
  rw [h] at hrole
  cases hrole

theorem proper_of_pointed (h : n.ring.Pointed S) (hme : n.me ∈ S) : n.Proper S := by
  intro hrole id hprimary b hb hown
  exact (Ring.mem_of_mem_backups hb).2 (hown.unique ((isPrimaryFor_iff hrole h hme).mp hprimary))

/-- A superpeer that does not know of a newcomer sends it no copies. -/
theorem proper_of_formed (h : n.ring.Formed s ps) (hme : n.me ∈ s) (hnew : new ∉ s) :
    n.Proper (s.insert new) := by
  intro hrole id hprimary b hb hown
  obtain ⟨hlisted, hne⟩ := Ring.mem_of_mem_backups hb
  have hold := (isPrimaryFor_iff hrole h.toPointed hme).mp hprimary
  have hownb := ((NodeSet.owns_insert_iff hnew (h.listed b hlisted).1).mp hown).1
  exact hne (hownb.unique hold)

/-- A superpeer that lists nobody sends no copies. -/
theorem proper_of_isEmpty (h : n.ring.superpeers.isEmpty = true) : n.Proper S := by
  intro _ _ _ b hb
  have hlisted : b ∈ n.ring.superpeers.toList := (Ring.mem_of_mem_backups hb).1
  rw [List.isEmpty_iff.mp h] at hlisted
  cases hlisted

theorem Proper.evolves {ms : List Mutation} (h : n.Proper S) (hn' : n.Evolves n' ms) :
    n'.Proper S := by
  intro hrole id hprimary
  rw [hn'.role] at hrole
  rw [isPrimaryFor_congr hn'.ring hn'.role] at hprimary
  rw [me, hn'.ring]
  exact h hrole id hprimary

end Node

/-! ## What was applied -/

theorem appliedBy_append (id : NodeId) (t t' : List Segment) :
    appliedBy id (t ++ t') = appliedBy id t ++ appliedBy id t' := by
  rw [appliedBy, List.filter_append, List.filterMap_append]
  rfl

theorem appliedBy_self (g : Segment) : appliedBy g.node [g] = g.applied?.toList := by
  rw [appliedBy, List.filter_cons, decide_eq_true rfl, if_pos rfl]
  cases h : g.applied? <;> simp [h]

theorem appliedBy_of_ne {id : NodeId} {g : Segment} (h : id ≠ g.node) : appliedBy id [g] = [] := by
  rw [appliedBy, List.filter_cons, if_neg]
  · rfl
  · rw [decide_eq_true_iff]
    exact Ne.symm h

theorem Segment.evolves (g : Segment) : g.before.Evolves g.result g.applied?.toList := by
  unfold result
  cases g.applied? with
  | none => exact Node.evolves_of_core rfl
  | some m => exact Node.evolves_mutate _ m

namespace Machine

variable {S : NodeSet} {σ : Machine} {t : Thread} {id : NodeId}

theorem nodes_advance_self : (σ.advance t).nodes t.node = (t.task (σ.nodes t.node)).state :=
  if_pos rfl

theorem appliedBy_segment : appliedBy t.node [σ.segment t] = (σ.segment t).applied?.toList :=
  appliedBy_self _

theorem nodes_advance_of_ne (h : id ≠ t.node) : (σ.advance t).nodes id = σ.nodes id := if_neg h

/-- What holds of all nodes still does if the node that goes on keeps it. -/
theorem forall_advance {P : NodeId → Node → Prop} (h : ∀ x, P x (σ.nodes x))
    (hself : P t.node (σ.nodes t.node) → P t.node (t.task (σ.nodes t.node)).state) (x : NodeId) :
    P x ((σ.advance t).nodes x) := by
  by_cases hx : x = t.node
  · subst hx
    rw [nodes_advance_self]
    exact hself (h _)
  · rw [nodes_advance_of_ne hx]
    exact h x

/-- The next segment of a thread changes its node as it says, and this is a superpeer if it changes.
The segment ends neither a promotion nor an admission, and does not put a copy where its original
belongs. -/
structure Quiet (S : NodeSet) (σ : Machine) (t : Thread) : Prop where
  core : (t.task (σ.nodes t.node)).state.core = (σ.segment t).result.core
  role : ∀ m, (σ.segment t).applied? = some m → (σ.nodes t.node).isSuperpeer = true
  plain : t.cue.isPlain = true
  copy : ∀ m, (σ.segment t).handled? = some (m, true) → ¬ S.Owns m.key t.node

theorem Quiet.evolves (h : σ.Quiet S t) (id : NodeId) :
    (σ.nodes id).Evolves ((σ.advance t).nodes id) (appliedBy id [σ.segment t]) := by
  by_cases hid : id = t.node
  · subst hid
    rw [nodes_advance_self, appliedBy_segment]
    exact (σ.segment t).evolves.of_core h.core
  · rw [nodes_advance_of_ne hid, appliedBy_of_ne hid]
    exact Node.evolves_of_core rfl

section Cues

variable {sender : NodeId} {message reply : Message}

theorem handled?_of_message (h : t.cue = .message sender message) :
    (σ.segment t).handled? = (σ.nodes t.node).handled? message := by
  rw [Segment.handled?, show (σ.segment t).cue = t.cue from rfl, h]
  rfl

theorem applied?_of_message (h : t.cue = .message sender message) :
    (σ.segment t).applied? = ((σ.nodes t.node).handled? message).map (·.1) := by
  rw [Segment.applied?, show (σ.segment t).cue = t.cue from rfl, h]
  rfl

theorem handled?_of_reply (h : t.cue = .reply reply) : (σ.segment t).handled? = none := by
  rw [Segment.handled?, show (σ.segment t).cue = t.cue from rfl, h]

theorem applied?_of_reply (h : t.cue = .reply reply) : (σ.segment t).applied? = none := by
  rw [Segment.applied?, show (σ.segment t).cue = t.cue from rfl, h]

end Cues

/-- Going on silently is quiet if nothing changes. -/
theorem quiet_of_silent (hcue : t.cue.isSilent = true)
    (hcore : (t.task (σ.nodes t.node)).state.core = (σ.nodes t.node).core) : σ.Quiet S t := by
  have happlied : (σ.segment t).applied? = none := Segment.applied?_of_silent hcue
  have hhandled : (σ.segment t).handled? = none := Segment.handled?_of_silent hcue
  refine ⟨?_, ?_, Segment.isPlain_of_silent (g := σ.segment t) hcue, ?_⟩
  · rw [Segment.result, happlied]
    exact hcore
  · intro m hm
    rw [happlied] at hm
    cases hm
  · intro m hm
    rw [hhandled] at hm
    cases hm

/-- Handling a message is quiet if the node becomes what the message makes of it. -/
theorem quiet_of_message {sender : NodeId} {message : Message}
    (hcue : t.cue = .message sender message)
    (hcore : (t.task (σ.nodes t.node)).state.core = ((σ.nodes t.node).handle message).core)
    (hcopy : ∀ m, (σ.nodes t.node).handled? message = some (m, true) → ¬ S.Owns m.key t.node) :
    σ.Quiet S t := by
  refine ⟨?_, ?_, by rw [hcue]; rfl, fun m hm => hcopy m ?_⟩
  · rw [hcore, Segment.result, applied?_of_message hcue, Node.handle]
    cases (σ.nodes t.node).handled? message <;> rfl
  · intro m hm
    rw [← Bool.not_eq_false]
    intro hpeer
    rw [applied?_of_message hcue, Node.handled?_of_peer message hpeer] at hm
    cases hm
  · rw [← handled?_of_message hcue]
    exact hm

/-- Recording that all objects were moved is quiet. -/
theorem quiet_of_handOver {target : NodeId} (hcue : t.cue = .answer (.handOver target) true)
    (hrole : (σ.nodes t.node).isSuperpeer = true)
    (hcore : (t.task (σ.nodes t.node)).state.core =
      ((σ.nodes t.node).mutate (.updateAll t.node target)).core) : σ.Quiet S t := by
  have happlied : (σ.segment t).applied? = some (.updateAll t.node target) := by
    rw [Segment.applied?, show (σ.segment t).cue = t.cue from rfl, hcue]
    rfl
  have hhandled : (σ.segment t).handled? = none := by
    rw [Segment.handled?, show (σ.segment t).cue = t.cue from rfl, hcue]
  refine ⟨?_, fun _ _ => hrole, by rw [hcue]; rfl, ?_⟩
  · rw [Segment.result, happlied]
    exact hcore
  · intro m hm
    rw [hhandled] at hm
    cases hm

end Machine

/-! ## Tame threads -/

namespace Protocol

/-- A copy is handled at once. -/
theorem handleMessage_copy (sender : NodeId) {m : Mutation} (hm : m.Requestable) (n : Node) :
    ∃ status, handleMessage sender (m.message true) n =
      .done (.status status) (n.handle (m.message true)) := by
  have hmutate : handleMessage sender (m.message true) n =
      (mutate m true n).bind fun status => pure (.status status) := by
    rw [handleMessage_of_mutation (hm true)]
    rfl
  rw [hmutate]
  cases hd : n.directory? with
  | none =>
    have hrole : n.isSuperpeer = false := by rw [Node.isSuperpeer, hd]; rfl
    refine ⟨.notSuperpeer, ?_⟩
    rw [mutate_of_peer m true hrole, Node.handle, Node.handled?_of_peer _ hrole]
    rfl
  | some d =>
    have hrole : n.isSuperpeer = true := by rw [Node.isSuperpeer, hd]; rfl
    refine ⟨.applied, ?_⟩
    rw [mutate_of_superpeer m true hd, Node.handle, Node.handled?_of_superpeer (hm true) hrole]
    rfl

end Protocol

/-- A harmless message is handled at once, or a number is drawn before the reply. -/
theorem handleMessage_harmless {S : NodeSet} {target : NodeId} {message : Message} (sender : NodeId)
    (h : message.IsHarmless S target) (n : Node) :
    (∃ reply, Protocol.handleMessage sender message n = .done reply (n.handle message) ∧
        (Cue.reply reply).isSilent = true) ∨
      ∃ k : Nat → Task Message,
        Protocol.handleMessage sender message n = .wait (n.handle message) .draw k ∧
          ∀ x, (k x).Concludes := by
  rcases h with rfl | ⟨m, rfl, hm, -⟩
  · rcases handleMessage_search sender n with ⟨peer, hdone⟩ | ⟨k, hwait, hk⟩
    · exact .inl ⟨_, hdone, rfl⟩
    · exact .inr ⟨k, hwait, hk⟩
  · obtain ⟨status, hdone⟩ := Protocol.handleMessage_copy sender hm n
    exact .inl ⟨_, hdone, rfl⟩

/-- A harmless message does not put a copy where its original belongs. -/
theorem Message.IsHarmless.copy {S : NodeSet} {target : NodeId} {message : Message}
    (h : message.IsHarmless S target) {n : Node} {m : Mutation}
    (hm : n.handled? message = some (m, true)) : ¬ S.Owns m.key target := by
  rcases h with rfl | ⟨m', rfl, hm', hown⟩
  · cases hm
  · unfold Node.handled? at hm
    rw [hm' true] at hm
    simp only [Bool.true_or, Bool.and_true, Option.ite_none_right_eq_some, Option.some.injEq,
      Prod.mk.injEq] at hm
    obtain ⟨-, rfl, -⟩ := hm
    exact hown

section

variable {S : NodeSet} {goal : Node → Progress Message → Prop} {home : NodeId}
  {callers : List Frame} {σ : Machine} {t : Thread}

/-- What a tame thread does next: it is at its goal, or goes on quietly and remains tame. -/
theorem Thread.Tame.step (h : t.Tame S goal home callers) (x : Oracle) :
    (t.node = home ∧ t.callers = callers ∧ t.cue.isSilent = true ∧
        goal (σ.nodes home) (t.task (σ.nodes home))) ∨
      σ.Quiet S t ∧ ∃ t', σ.next t x = .inr t' ∧ t'.Tame S goal home callers := by
  cases h with
  | @home cue task hcue htask =>
    have hnext := (htask (σ.nodes home)).next (t := ⟨home, cue, task, callers⟩) rfl rfl x
    rcases hnext with hgoal | hnext
    · exact .inl ⟨rfl, rfl, hcue, hgoal⟩
    · exact .inr ⟨Machine.quiet_of_silent hcue hnext.1, hnext.2⟩
  | @visiting sender target message resume hmessage hresume =>
    refine .inr ?_
    have hquiet (hcore : (Protocol.handleMessage sender message (σ.nodes target)).state =
        (σ.nodes target).handle message) :
        σ.Quiet S (.arrival sender target message (⟨home, resume⟩ :: callers)) :=
      Machine.quiet_of_message rfl (congrArg Node.core hcore) fun m hm => hmessage.copy hm
    have hnext : σ.next (.arrival sender target message (⟨home, resume⟩ :: callers)) x =
        Thread.next _ x (Protocol.handleMessage sender message (σ.nodes target)) := rfl
    rw [hnext]
    rcases handleMessage_harmless sender hmessage (σ.nodes target) with
      ⟨reply, hdone, hsilent⟩ | ⟨k, hwait, hk⟩
    · rw [hdone] at hquiet ⊢
      exact ⟨hquiet rfl, _, rfl, .home hsilent (hresume reply)⟩
    · rw [hwait] at hquiet ⊢
      exact ⟨hquiet rfl, _, rfl, .abroad rfl (hk x.number) hresume⟩
  | @abroad node cue task resume hcue htask hresume =>
    obtain ⟨peer, hdone⟩ := htask (σ.nodes node)
    have hnext : σ.next ⟨node, cue, task, ⟨home, resume⟩ :: callers⟩ x =
        Thread.next ⟨node, cue, task, ⟨home, resume⟩ :: callers⟩ x (task (σ.nodes node)) := rfl
    rw [hnext, hdone]
    refine .inr ⟨Machine.quiet_of_silent hcue ?_, _, rfl, .home rfl (hresume _)⟩
    show (task (σ.nodes node)).state.core = _
    rw [hdone]
    rfl

/-- What a tame thread that is to reply does next: it gives the reply to who waits for it, or
remains tame, and both are quiet. -/
theorem Thread.Tame.reply_or {post : Message → Prop}
    (h : t.Tame S (Replies post) home callers) (x : Oracle) :
    σ.Quiet S t ∧
      ((∃ reply n, post reply ∧ t.callers = callers ∧ t.node = home ∧
          σ.next t x = t.next x (.done reply n)) ∨
        ∃ t', σ.next t x = .inr t' ∧ t'.Tame S (Replies post) home callers) := by
  rcases h.step (σ := σ) x with ⟨hnode, hcallers, hcue, hgoal⟩ | ⟨hquiet, hnext⟩
  · obtain ⟨reply, n, hp, hcore, hreply⟩ := hgoal
    subst hnode
    refine ⟨Machine.quiet_of_silent hcue ?_, .inl ⟨reply, n, hreply, hcallers, rfl, ?_⟩⟩
    · rw [hp]
      exact hcore
    · rw [Machine.next, hp]
  · exact ⟨hquiet, .inr hnext⟩

end

end ChunkDirectory
