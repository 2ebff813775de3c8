import ChunkDirectory.Proofs.Concurrency.Quiet

/-!
# Requests during an operation

While an operation is under way that adds `new` to a ring `s`, requests for mutations reach the
superpeers of the ring and `new`. Whatever the operation does, the superpeers of the ring hold what
they held at first and then applied, in this order, and apply nobody else's requests
(`Machine.Steady`); and a request is only answered to be applied if it was applied
(`Machine.Sound`). Both are kept by quiet steps, so that an operation is left with the steps that
are its own (`Machine.Underway.run`).
-/

namespace ChunkDirectory

/-- The node applies a request for the mutation in this segment. -/
def Segment.Accepts (g : Segment) (m : Mutation) : Prop := g.handled? = some (m, false)

/-- What a node accepts it is primary for. -/
theorem Segment.Accepts.isPrimaryFor {g : Segment} {m : Mutation} (h : g.Accepts m) :
    g.before.isPrimaryFor m.key = true := by
  obtain ⟨node, cue, before, asked⟩ := g
  cases cue with
  | message sender message =>
    have hhandled : before.handled? message = some (m, false) := h
    unfold Node.handled? at hhandled
    split at hhandled
    case h_1 m' isBackup _ =>
      simp only [Option.ite_none_right_eq_some, Option.some.injEq, Prod.mk.injEq,
        Bool.and_eq_true, Bool.or_eq_true] at hhandled
      obtain ⟨⟨-, hprimary⟩, rfl, rfl⟩ := hhandled
      exact hprimary.resolve_left Bool.false_ne_true
    case h_2 => cases hhandled
  | _ => cases h

theorem Segment.Accepts.applied? {g : Segment} {m : Mutation} (h : g.Accepts m) :
    g.applied? = some m := by
  obtain ⟨node, cue, before, asked⟩ := g
  cases cue with
  | message sender message =>
    have hhandled : before.handled? message = some (m, false) := h
    show (before.handled? message).map (·.1) = some m
    rw [hhandled]
    rfl
  | _ => cases h

/-- Only requests for mutations arrive, and only at members of `S`. -/
def Move.Allowed (S : NodeSet) : Move → Prop
  | .request _ id message => id ∈ S ∧ message.isRequest = true
  | _ => True

namespace Machine

variable {s ps : NodeSet} {new : NodeId} {nodes₀ nodes : NodeId → Node} {trace : List Segment}
  {σ : Machine} {t : Thread}

/-- The superpeers of the ring `s` hold what they applied to what they held at first. Their views
may or may not include `new` already. They accept only what they own, and copies go only to those
who do not own the key. -/
structure Steady (s ps : NodeSet) (new : NodeId) (nodes₀ nodes : NodeId → Node)
    (trace : List Segment) : Prop where
  me : ∀ x, (nodes x).me = x
  role : ∀ x ∈ s, (nodes x).isSuperpeer = true
  formed : ∀ x ∈ s, (nodes x).ring.Formed s ps ∨ (nodes x).ring.Formed (s.insert new) ps
  proper : (nodes new).Proper (s.insert new)
  keyed : ∀ x ∈ s, (nodes x).Keyed
  content : ∀ x ∈ s, ∀ slot,
    (nodes x).read slot = slot.replay (appliedBy x trace) ((nodes₀ x).read slot)
  accepted : ∀ g ∈ trace, g.node ∈ s → ∀ m, g.Accepts m → s.Owns m.key g.node
  copies : ∀ g ∈ trace, ∀ m, g.handled? = some (m, true) → ¬ (s.insert new).Owns m.key g.node

namespace Steady

/-- Superpeers of the ring take themselves for primary at most for what they own in it. -/
theorem owns_of_isPrimaryFor (h : Steady s ps new nodes₀ nodes trace) (hnew : new ∉ s)
    {x id : NodeId} (hx : x ∈ s) (hprimary : (nodes x).isPrimaryFor id = true) : s.Owns id x := by
  have hme : (nodes x).me = x := h.me x
  rcases h.formed x hx with hformed | hformed
  · have hown := (Node.isPrimaryFor_iff (h.role x hx) hformed.toPointed (by rw [hme]; exact hx)).mp
      hprimary
    rw [hme] at hown
    exact hown
  · have hown := (Node.isPrimaryFor_iff (h.role x hx) hformed.toPointed
      (by rw [hme]; exact NodeSet.mem_insert.mpr (.inr hx))).mp hprimary
    rw [hme] at hown
    exact ((NodeSet.owns_insert_iff hnew hx).mp hown).1

theorem proper_of_mem (h : Steady s ps new nodes₀ nodes trace) (hnew : new ∉ s) {x : NodeId}
    (hx : x ∈ s.insert new) : (nodes x).Proper (s.insert new) := by
  rcases NodeSet.mem_insert.mp hx with rfl | hx
  · exact h.proper
  · have hme : (nodes x).me = x := h.me x
    rcases h.formed x hx with hformed | hformed
    · exact Node.proper_of_formed hformed (by rw [hme]; exact hx) hnew
    · exact Node.proper_of_pointed hformed.toPointed
        (by rw [hme]; exact NodeSet.mem_insert.mpr (.inr hx))

/-- What a step has to keep at the node that goes on. -/
structure Keeps (s ps : NodeSet) (new : NodeId) (g : Segment) (n n' : Node) : Prop where
  me : n'.me = n.me
  proper : g.node = new → n'.Proper (s.insert new)
  member : g.node ∈ s → n'.isSuperpeer = true ∧
    (n'.ring.Formed s ps ∨ n'.ring.Formed (s.insert new) ps) ∧ (n.Keyed → n'.Keyed) ∧
    ∀ slot, n'.read slot = slot.replay g.applied?.toList (n.read slot)
  copy : ∀ m, g.handled? = some (m, true) → ¬ (s.insert new).Owns m.key g.node

theorem advance (h : Steady s ps new nodes₀ σ.nodes σ.trace) (hnew : new ∉ s)
    (hkeeps : Keeps s ps new (σ.segment t) (σ.nodes t.node) (t.task (σ.nodes t.node)).state) :
    Steady s ps new nodes₀ (σ.advance t).nodes (σ.advance t).trace := by
  have hproper : ∀ x, x = new → ((σ.advance t).nodes x).Proper (s.insert new) :=
    forall_advance (P := fun x n => x = new → n.Proper (s.insert new)) (fun x hx => hx ▸ h.proper)
      fun _ ht => hkeeps.proper ht
  refine ⟨?_, ?_, ?_, hproper new rfl, ?_, ?_, ?_, ?_⟩
  · exact forall_advance (P := fun x n => n.me = x) h.me fun hme => hkeeps.me.trans hme
  · exact forall_advance (P := fun x n => x ∈ s → n.isSuperpeer = true) h.role
      fun _ ht => (hkeeps.member ht).1
  · exact forall_advance
      (P := fun x n => x ∈ s → n.ring.Formed s ps ∨ n.ring.Formed (s.insert new) ps) h.formed
      fun _ ht => (hkeeps.member ht).2.1
  · exact forall_advance (P := fun x n => x ∈ s → n.Keyed) h.keyed
      fun hkeyed ht => (hkeeps.member ht).2.2.1 (hkeyed ht)
  · intro x hx slot
    have htrace : (σ.advance t).trace = σ.trace ++ [σ.segment t] := rfl
    rw [htrace, appliedBy_append, Slot.replay_append, ← h.content x hx]
    by_cases hxt : x = t.node
    · subst hxt
      rw [nodes_advance_self, appliedBy_segment]
      exact (hkeeps.member hx).2.2.2 slot
    · rw [nodes_advance_of_ne hxt, appliedBy_of_ne hxt, Slot.replay_nil]
  · intro g hg hgs m hm
    rcases List.mem_append.mp hg with hg | hg
    · exact h.accepted g hg hgs m hm
    · rw [List.mem_singleton.mp hg] at hgs hm ⊢
      exact h.owns_of_isPrimaryFor hnew hgs hm.isPrimaryFor
  · intro g hg m hm
    rcases List.mem_append.mp hg with hg | hg
    · exact h.copies g hg m hm
    · rw [List.mem_singleton.mp hg] at hm ⊢
      exact hkeeps.copy m hm

theorem quiet (h : Steady s ps new nodes₀ σ.nodes σ.trace) (hnew : new ∉ s)
    (hquiet : σ.Quiet (s.insert new) t) :
    Steady s ps new nodes₀ (σ.advance t).nodes (σ.advance t).trace := by
  have hevolves := (σ.segment t).evolves.of_core hquiet.core
  refine h.advance hnew ⟨?_, ?_, fun hmem => ⟨?_, ?_, hevolves.keyed, ?_⟩, hquiet.copy⟩
  · rw [Node.me, hevolves.ring]
    rfl
  · intro hnode
    subst hnode
    exact h.proper.evolves hevolves
  · rw [hevolves.role]
    exact h.role _ hmem
  · rw [hevolves.ring]
    exact h.formed _ hmem
  · exact hevolves.read (h.role _ hmem)

/-- A superpeer of the ring may change its view. -/
theorem reshape (h : Steady s ps new nodes₀ σ.nodes σ.trace) (hnew : new ∉ s) (ht : t.node ∈ s)
    (hhandled : (σ.segment t).handled? = none) (happlied : (σ.segment t).applied? = none)
    (hme : (t.task (σ.nodes t.node)).state.me = t.node)
    (hrole : (t.task (σ.nodes t.node)).state.role = (σ.nodes t.node).role)
    (hformed : (t.task (σ.nodes t.node)).state.ring.Formed (s.insert new) ps) :
    Steady s ps new nodes₀ (σ.advance t).nodes (σ.advance t).trace := by
  have hdirectory : (t.task (σ.nodes t.node)).state.directory? = (σ.nodes t.node).directory? := by
    rw [Node.directory?, Node.directory?, hrole]
  refine h.advance hnew ⟨hme.trans (h.me _).symm, fun hnode => absurd (hnode ▸ ht) hnew,
    fun _ => ⟨?_, .inr hformed, ?_, ?_⟩, ?_⟩
  · rw [Node.isSuperpeer, hdirectory]
    exact h.role _ ht
  · exact fun hkeyed => hkeyed.congr hdirectory
  · intro slot
    rw [happlied, Node.read, hdirectory]
    rfl
  · intro m hm
    rw [hhandled] at hm
    cases hm

/-- The newcomer may change as long as it sends copies to the right ones. -/
theorem renew (h : Steady s ps new nodes₀ σ.nodes σ.trace) (hnew : new ∉ s) (ht : t.node = new)
    (hhandled : (σ.segment t).handled? = none) (hme : (t.task (σ.nodes new)).state.me = new)
    (hproper : (t.task (σ.nodes new)).state.Proper (s.insert new)) :
    Steady s ps new nodes₀ (σ.advance t).nodes (σ.advance t).trace := by
  subst ht
  refine h.advance hnew ⟨hme.trans (h.me _).symm, fun _ => hproper, fun hmem => absurd hmem hnew,
    fun m hm => ?_⟩
  rw [hhandled] at hm
  cases hm

end Steady

end Machine

/-! ## Requests that are being handled -/

/-- A request that is answered to be applied was applied by the node that answers. -/
def Acknowledged (trace : List Segment) (node : NodeId) (message reply : Message) : Prop :=
  reply = .status .applied → ∀ m, message.mutation? = some (.ok m, false) →
    ∃ g ∈ trace, g.node = node ∧ g.Accepts m

theorem Acknowledged.append {trace : List Segment} {node : NodeId} {message reply : Message}
    (h : Acknowledged trace node message reply) (g : Segment) :
    Acknowledged (trace ++ [g]) node message reply := by
  intro hreply m hm
  obtain ⟨g', hg', haccepts⟩ := h hreply m hm
  exact ⟨g', List.mem_append_left _ hg', haccepts⟩

theorem Message.mutation?_of_isRequest {message : Message} (h : message.isRequest = true) :
    ∃ r, message.mutation? = some (r, false) := by
  cases message with
  | initRange start owner backups b => cases b <;> first | exact ⟨_, rfl⟩ | cases h
  | migrate chunk node b => cases b <;> first | exact ⟨_, rfl⟩ | cases h
  | insertId id chunk b => cases b <;> first | exact ⟨_, rfl⟩ | cases h
  | migrateRange start stop node b =>
    cases b with
    | true => cases h
    | false =>
      simp only [mutation?]
      split <;> exact ⟨_, rfl⟩
  | remove chunks b =>
    cases b with
    | true => cases h
    | false =>
      cases chunks with
      | nil => exact ⟨_, rfl⟩
      | cons first rest =>
        simp only [mutation?]
        split <;> exact ⟨_, rfl⟩
  | _ => cases h

/-- A request is not handled as a copy. -/
theorem Node.handled?_ne_copy {n : Node} {message : Message} {r : Except RequestStatus Mutation}
    (h : message.mutation? = some (r, false)) (m : Mutation) :
    n.handled? message ≠ some (m, true) := by
  intro hm
  unfold handled? at hm
  rw [h] at hm
  cases r with
  | error => cases hm
  | ok => simp at hm

/-- A request to a node has just arrived, or nothing but copies and the answer are left to do. -/
def Thread.Handles (S : NodeSet) (trace : List Segment) (node : NodeId) (message : Message)
    (t : Thread) : Prop :=
  (∃ sender, t = .arrival sender node message []) ∨
    t.Tame S (Replies (Acknowledged trace node message)) node []

theorem Thread.Handles.append {S : NodeSet} {trace : List Segment} {node : NodeId}
    {message : Message} {t : Thread} (h : t.Handles S trace node message) (g : Segment) :
    t.Handles S (trace ++ [g]) node message := by
  refine h.imp_right fun htame => htame.mono ?_
  rintro n p ⟨reply, n', hp, hcore, hreply⟩
  exact ⟨reply, n', hp, hcore, hreply.append g⟩

namespace Machine

variable {s ps S : NodeSet} {new : NodeId} {nodes₀ : NodeId → Node} {σ : Machine} {t : Thread}

/-- All requests are being handled by members of `S`, and those answered were answered rightly. -/
structure Sound (S : NodeSet) (σ : Machine) : Prop where
  jobs : ∀ job ∈ σ.requests, job.node ∈ S ∧ job.message.isRequest = true ∧
    job.thread.Handles S σ.trace job.node job.message
  answers : ∀ a ∈ σ.answers, a.1 ∈ S ∧ Acknowledged σ.trace a.1 a.2.1 a.2.2

/-- A request that the node accepts when it arrives may be answered to be applied. -/
theorem acknowledged_of_handled {sender : NodeId} {message : Message} {m : Mutation}
    (hm : message.mutation? = some (.ok m, false)) (hcue : t.cue = .message sender message)
    {status : RequestStatus}
    (happlied : status = .applied → (σ.nodes t.node).handled? message = some (m, false)) :
    Acknowledged (σ.advance t).trace t.node message (.status status) := by
  intro hreply m' hm'
  rw [hm] at hm'
  cases hm'
  cases hreply
  refine ⟨σ.segment t, List.mem_append_right _ (List.mem_singleton.mpr rfl), rfl, ?_⟩
  rw [Segment.Accepts, handled?_of_message hcue]
  exact happlied rfl

/-- Handling a request that has arrived. -/
theorem quiet_of_arrival {sender node : NodeId} {message : Message}
    (hproper : (σ.nodes node).Proper S) (hrequest : message.isRequest = true)
    (ht : t = .arrival sender node message []) (x : Oracle) :
    σ.Quiet S t ∧
      match σ.next t x with
      | .inl reply => Acknowledged (σ.advance t).trace node message reply
      | .inr t' => t'.Handles S (σ.advance t).trace node message := by
  obtain ⟨r, hr⟩ := Message.mutation?_of_isRequest hrequest
  have hnode : t.node = node := by rw [ht]; rfl
  have hcallers : t.callers = [] := by rw [ht]; rfl
  have hcue : t.cue = .message sender message := by rw [ht]; rfl
  have htask : t.task = Protocol.handleMessage sender message := by rw [ht]; rfl
  clear ht
  subst hnode
  have hquiet (hcore : (t.task (σ.nodes t.node)).state.core =
      ((σ.nodes t.node).handle message).core) : σ.Quiet S t :=
    quiet_of_message hcue hcore fun m hm => absurd hm (Node.handled?_ne_copy hr m)
  cases r with
  | error status =>
    have hdone : t.task (σ.nodes t.node) = .done (.status status) (σ.nodes t.node) := by
      rw [htask, Protocol.handleMessage_of_settled sender hr]
      rfl
    have hnext : σ.next t x = .inl (.status status) := by
      rw [next, hdone, Thread.next, hcallers]
    constructor
    · apply hquiet
      rw [hdone, Node.handle, Node.handled?, hr]
      rfl
    · rw [hnext]
      intro _ m hm
      rw [hr] at hm
      cases hm
  | ok m =>
    have htame := tame_handleMessage sender hr (fun _ hrole hprimary => hproper hrole _ hprimary)
      fun status happlied => acknowledged_of_handled (σ := σ) hr hcue happlied
    rw [← htask] at htame
    rcases htame.next (t := t) rfl hcallers x with hdone | ⟨hcore, t', ht', htame'⟩
    · obtain ⟨reply, n', hp, hcore, hreply⟩ := hdone
      have hnext : σ.next t x = .inl reply := by
        rw [next, hp, Thread.next, hcallers]
      constructor
      · apply hquiet
        rw [hp]
        exact hcore
      · rw [hnext]
        exact hreply
    · refine ⟨hquiet hcore, ?_⟩
      rw [next, ht']
      exact .inr htame'

/-- The handling of a request goes on quietly. -/
theorem Steady.serve (h : Steady s ps new nodes₀ σ.nodes σ.trace) (hnew : new ∉ s) {node : NodeId}
    {message : Message} (hnode : node ∈ s.insert new) (hrequest : message.isRequest = true)
    (hthread : t.Handles (s.insert new) σ.trace node message) (x : Oracle) :
    σ.Quiet (s.insert new) t ∧
      match σ.next t x with
      | .inl reply => Acknowledged (σ.advance t).trace node message reply
      | .inr t' => t'.Handles (s.insert new) (σ.advance t).trace node message := by
  rcases hthread with ⟨sender, rfl⟩ | htame
  · exact quiet_of_arrival (h.proper_of_mem hnew hnode) hrequest rfl x
  · obtain ⟨hquiet, hnext⟩ := htame.reply_or (σ := σ) x
    refine ⟨hquiet, ?_⟩
    rcases hnext with ⟨reply, n, hreply, hcallers, rfl, hnext⟩ | ⟨t', ht', htame'⟩
    · rw [hnext, Thread.next, hcallers]
      exact hreply.append _
    · rw [ht']
      exact Thread.Handles.append (.inr htame') _

/-! ## Runs -/

theorem Sound.advance (h : σ.Sound S) (t : Thread) (operation : Option Thread) :
    Sound S { σ.advance t with operation } := by
  refine ⟨fun job hjob => ?_, fun a ha => (h.answers a ha).imp_right fun hright => hright.append _⟩
  obtain ⟨hnode, hrequest, hthread⟩ := h.jobs job hjob
  exact ⟨hnode, hrequest, hthread.append _⟩

/-- The next segment of an operation keeps the ring steady, and what follows is as `P` says. -/
structure Continues (s ps : NodeSet) (new : NodeId) (nodes₀ : NodeId → Node)
    (P : Option Thread → (NodeId → Node) → List Segment → Prop) (σ : Machine) (t : Thread)
    (x : Oracle) : Prop where
  steady : Steady s ps new nodes₀ (σ.advance t).nodes (σ.advance t).trace
  phase : P (σ.next t x).getRight? (σ.advance t).nodes (σ.advance t).trace

theorem Continues.of_next {P : Option Thread → (NodeId → Node) → List Segment → Prop} {x : Oracle}
    {result : Message ⊕ Thread} (hnext : σ.next t x = result)
    (hsteady : Steady s ps new nodes₀ (σ.advance t).nodes (σ.advance t).trace)
    (hphase : P result.getRight? (σ.advance t).nodes (σ.advance t).trace) :
    σ.Continues s ps new nodes₀ P t x := ⟨hsteady, hnext ▸ hphase⟩

/-- A property of an operation under way that its own steps and all quiet steps keep. -/
structure Kept (s ps : NodeSet) (new : NodeId) (nodes₀ : NodeId → Node)
    (P : Option Thread → (NodeId → Node) → List Segment → Prop) : Prop where
  operate : ∀ (σ : Machine) (t : Thread) (x : Oracle), Steady s ps new nodes₀ σ.nodes σ.trace →
    P (some t) σ.nodes σ.trace → σ.Continues s ps new nodes₀ P t x
  quiet : ∀ (σ : Machine) (t : Thread) (operation : Option Thread),
    Steady s ps new nodes₀ σ.nodes σ.trace → P operation σ.nodes σ.trace →
    σ.Quiet (s.insert new) t → P operation (σ.advance t).nodes (σ.advance t).trace

/-- An operation is under way as `P` says, among requests. -/
structure Underway (s ps : NodeSet) (new : NodeId) (nodes₀ : NodeId → Node)
    (P : Option Thread → (NodeId → Node) → List Segment → Prop) (σ : Machine) : Prop where
  steady : Steady s ps new nodes₀ σ.nodes σ.trace
  sound : σ.Sound (s.insert new)
  phase : P σ.operation σ.nodes σ.trace

variable {P : Option Thread → (NodeId → Node) → List Segment → Prop}

theorem Underway.operate (h : σ.Underway s ps new nodes₀ P) (hkept : Kept s ps new nodes₀ P)
    (x : Oracle) : (σ.step (.operate x)).Underway s ps new nodes₀ P := by
  obtain ⟨hsteady, hsound, hphase⟩ := h
  cases hop : σ.operation with
  | none =>
    have hstep : σ.step (.operate x) = σ := by simp only [step, hop]
    rw [hstep]
    exact ⟨hsteady, hsound, hphase⟩
  | some t =>
    have hstep : σ.step (.operate x) =
        { σ.advance t with operation := (σ.next t x).getRight? } := by simp only [step, hop]
    rw [hop] at hphase
    obtain ⟨hsteady', hphase'⟩ := hkept.operate σ t x hsteady hphase
    rw [hstep]
    exact ⟨hsteady', hsound.advance t _, hphase'⟩

theorem Underway.serve (h : σ.Underway s ps new nodes₀ P) (hkept : Kept s ps new nodes₀ P)
    (hnew : new ∉ s) (i : Nat) (x : Oracle) :
    (σ.step (.serve i x)).Underway s ps new nodes₀ P := by
  cases hjob : σ.requests[i]? with
  | none =>
    have hstep : σ.step (.serve i x) = σ := by simp only [step, hjob]
    rw [hstep]
    exact h
  | some job =>
    obtain ⟨hnode, hrequest, hthread⟩ := h.sound.jobs job (List.mem_of_getElem? hjob)
    obtain ⟨hquiet, hnext⟩ := h.steady.serve hnew hnode hrequest hthread x
    have hsteady := h.steady.quiet hnew hquiet
    have hphase := hkept.quiet σ job.thread _ h.steady h.phase hquiet
    have hsound := h.sound.advance job.thread σ.operation
    cases hreply : σ.next job.thread x with
    | inl reply =>
      have hstep : σ.step (.serve i x) =
          { σ.advance job.thread with
            requests := σ.requests.eraseIdx i
            answers := σ.answers ++ [(job.node, job.message, reply)] } := by
        simp only [step, hjob, hreply]
      rw [hreply] at hnext
      rw [hstep]
      refine ⟨hsteady, ⟨?_, ?_⟩, hphase⟩
      · intro job' hjob'
        exact hsound.jobs job' (List.mem_of_mem_eraseIdx hjob')
      · intro a ha
        rcases List.mem_append.mp ha with ha | ha
        · exact hsound.answers a ha
        · rw [List.mem_singleton.mp ha]
          exact ⟨hnode, hnext⟩
    | inr thread =>
      have hstep : σ.step (.serve i x) =
          { σ.advance job.thread with requests := σ.requests.set i { job with thread } } := by
        simp only [step, hjob, hreply]
      rw [hreply] at hnext
      rw [hstep]
      refine ⟨hsteady, ⟨fun job' hjob' => ?_, hsound.answers⟩, hphase⟩
      rcases List.mem_or_eq_of_mem_set hjob' with hjob' | rfl
      · exact hsound.jobs job' hjob'
      · exact ⟨hnode, hrequest, hnext⟩

theorem Underway.request (h : σ.Underway s ps new nodes₀ P) {sender node : NodeId}
    {message : Message} (hallowed : (Move.request sender node message).Allowed (s.insert new)) :
    (σ.step (.request sender node message)).Underway s ps new nodes₀ P := by
  refine ⟨h.steady, ⟨fun job hjob => ?_, h.sound.answers⟩, h.phase⟩
  rcases List.mem_append.mp hjob with hjob | hjob
  · exact h.sound.jobs job hjob
  · rw [List.mem_singleton.mp hjob]
    exact ⟨hallowed.1, hallowed.2, .inl ⟨sender, rfl⟩⟩

/-- An operation remains under way as its steps demand, whatever happens when. -/
theorem Underway.run (h : σ.Underway s ps new nodes₀ P) (hkept : Kept s ps new nodes₀ P)
    (hnew : new ∉ s) {moves : List Move}
    (hmoves : ∀ move ∈ moves, move.Allowed (s.insert new)) :
    (σ.run moves).Underway s ps new nodes₀ P := by
  induction moves generalizing σ with
  | nil => exact h
  | cons move rest ih =>
    refine ih ?_ fun move' hmove' => hmoves move' (List.mem_cons_of_mem move hmove')
    cases move with
    | operate x => exact h.operate hkept x
    | serve i x => exact h.serve hkept hnew i x
    | request => exact h.request (hmoves _ List.mem_cons_self)

end Machine

end ChunkDirectory
