import Mathlib.Algebra.Ring.Nat
import ChunkDirectory.Proofs.Overlay.Steps
import ChunkDirectory.Proofs.Protocol.Request
import ChunkDirectory.Proofs.Reference
import ChunkDirectory.Proofs.Replication

/-!
# A settled overlay is one table

An overlay stores a table when in every slot the owner and its backups hold what the table holds
there and nobody else holds anything (`Overlay.Holds`). Every directory operation, made by any node,
returns what the table returns and leaves an overlay that stores the changed table
(`Settled.leads_call`), and so does every sequence of operations (`Settled.calls_refine_table`).

The result tells how long an operation takes. It is answered at once or given up, and then its
caller has paused before each attempt but the first.
-/

namespace ChunkDirectory

open Protocol

/-- How long an operation takes that ends so, in nanoseconds. -/
def RetryPolicy.time {α : Type} (policy : RetryPolicy) : Except LookupError α → Nat
  | .error (.retriesExhausted ..) => policy.patience
  | _ => 0

/-- How long an operation takes that returns so, in nanoseconds. -/
def DirectoryAnswer.time (policy : RetryPolicy) : DirectoryAnswer → Nat
  | .changed result => policy.time result
  | .located result => policy.time result
  | .listed result => policy.time result
  | .found result => policy.time result

namespace Overlay

variable {ρ : Type} {s : NodeSet} {o o₁ o₂ : Overlay ρ} {t : Table} {id owner : NodeId} {n : Node}
  {m : Mutation} {slot : Slot} {operation : Operation}

/-- The owner of a slot and its backups hold what the table holds, and nobody else holds anything.
-/
def Holds (s : NodeSet) (o : Overlay ρ) (t : Table) : Prop :=
  ∀ slot owner n, s.Owns slot.position owner → o.node? owner = some n → ∀ id,
    o.read id slot = if id ∈ owner :: n.ring.backups owner then t.read slot else none

theorem read_owner_of_holds (h : o.Holds s t) (hown : s.Owns slot.position owner)
    (hn : o.node? owner = some n) : o.read owner slot = t.read slot := by
  rw [h slot owner n hown hn owner, if_pos List.mem_cons_self]

/-- What an operation leaves behind: the overlay stores `t`, and nothing else is different but the
time, which is later by `delay`. -/
structure Follows (s : NodeSet) (o : Overlay ρ) (t : Table) (delay : Nat) (o' : Overlay ρ) :
    Prop where
  settled : o'.Settled s
  holds : o'.Holds s t
  views : o.SameViews o'
  workers : o'.workers = o.workers
  clock : o'.clock = o.clock + delay

namespace Follows

variable {t₁ : Table} {delay more : Nat}

theorem rfl (h : o.Settled s) (hholds : o.Holds s t) : o.Follows s t 0 o :=
  ⟨h, hholds, .rfl o, Eq.refl _, Eq.refl _⟩

theorem trans (h : o.Follows s t delay o₁) (h₁ : o₁.Follows s t₁ more o₂) :
    o.Follows s t₁ (delay + more) o₂ := by
  refine ⟨h₁.settled, h₁.holds, h.views.trans h₁.views, h₁.workers.trans h.workers, ?_⟩
  rw [h₁.clock, h.clock, Nat.add_assoc]

theorem quiet {moment : Nat} (h : o.Follows s t delay o₁) (hquiet : o.QuietUntil moment) :
    o₁.QuietUntil moment := by
  unfold QuietUntil
  rw [h.workers]
  exact hquiet

end Follows

namespace Settled

/-! ## Mutations -/

theorem holds_mutateEach (h : o.Settled s) (hholds : o.Holds s t) (hn : o.node? owner = some n)
    (hown : s.Owns m.key owner) (hslot : m.slot? = some slot) :
    (o.mutateEach m (owner :: n.ring.backups owner)).Holds s (t.after m) := by
  intro slot' owner' n' hown' hn' id
  obtain ⟨n₀, hn₀, hview⟩ := h.sameViews_mutateEach.symm.exists_node? hn'
  have hring : n₀.ring = n'.ring := congrArg (·.2.1) hview
  have hbefore := hholds slot' owner' n₀ hown' hn₀ id
  rw [← hring, h.read_mutateEach (h.holders_mem hn hown.1) (h.holders_nodup hn hown.1),
    Table.read_after, hbefore]
  by_cases hsame : slot' = slot
  · subst hsame
    have howner : owner' = owner := by
      rw [Mutation.position_of_slot? hslot] at hown'
      exact hown'.unique hown
    subst howner
    rw [hn] at hn₀
    cases hn₀
    by_cases hid : id ∈ owner' :: n.ring.backups owner'
    · rw [if_pos hid, if_pos hid, if_pos hid]
    · rw [if_neg hid, if_neg hid, if_neg hid]
  · rw [Mutation.change_of_ne hslot hsame, Mutation.change_of_ne hslot hsame, ite_self]

/-- A mutation that the table accepts is accepted. -/
theorem leads_requestMutation_applied (h : o.Settled s) (hholds : o.Holds s t)
    (hn : o.node? id = some n) (hm : m.Requestable) (hslot : m.slot? = some slot)
    (happlied : m.outcome (t.trees m.key) = .applied) :
    ∃ o', Leads o id (requestMutation operation m) (.ok ()) o' ∧ o.Follows s (t.after m) 0 o' := by
  obtain ⟨owner, no, hown, hno, -⟩ := h.exists_owner m.key
  have hread : o.read owner (.tree m.key) = t.trees m.key := read_owner_of_holds hholds hown hno
  obtain ⟨nodes, hnodes⟩ := exists_nodes_mutateEach o m (owner :: no.ring.backups owner)
  exact ⟨_, h.leads_requestMutation_of_applied operation hn hm hown hno (hread ▸ happlied),
    h.mutateEach, h.holds_mutateEach hholds hno hown hslot, h.sameViews_mutateEach,
    by rw [hnodes], by rw [hnodes]; rfl⟩

/-- A mutation that the table refuses is given up. -/
theorem leads_requestMutation_refused {limit : Nat} (h : o.Settled s) (hholds : o.Holds s t)
    (hn : o.node? id = some n) (hm : m.Requestable)
    (hlimit : n.config.retry.maxAttempts = some limit)
    (hquiet : o.QuietUntil (o.clock + n.config.retry.patience))
    (hrefused : m.outcome (t.trees m.key) = .uninitialized) :
    Leads o id (requestMutation operation m)
        (.error (.retriesExhausted operation n.config.retry.tries))
        (o.later n.config.retry.patience) ∧
      o.Follows s t n.config.retry.patience (o.later n.config.retry.patience) := by
  obtain ⟨owner, no, hown, hno, -⟩ := h.exists_owner m.key
  have hread : o.read owner (.tree m.key) = t.trees m.key := read_owner_of_holds hholds hown hno
  have hreply : ∀ time, Leads (o.later time) owner (handleMessage id (m.message false))
      (.status .uninitialized) (o.later time) := by
    intro time
    have hmutate := (h.later time).does_mutate_refused hno hown (m := m)
    rw [read_later, hread, hrefused] at hmutate
    exact Leads.of_does ((hmutate (by decide)).handle_mutation (hm false) hno)
  refine ⟨?_, h.later _, hholds, sameViews_later _, rfl, rfl⟩
  unfold requestMutation
  refine (h.leads_request_exhausted hn hown hlimit hreply hquiet).bind ?_
  exact Leads.pure hn

/-- Asks for a mutation. The table says what comes of it. -/
theorem leads_requestMutation {limit : Nat} (operation : Operation) (m : Mutation)
    (h : o.Settled s) (hholds : o.Holds s t) (hn : o.node? id = some n) (hm : m.Requestable)
    (hslot : m.slot? = some slot)
    (hlimit : n.config.retry.maxAttempts = some limit)
    (hquiet : o.QuietUntil
      (o.clock + n.config.retry.time (t.request operation n.config.retry.tries m).2)) :
    ∃ o', Leads o id (requestMutation operation m)
        (t.request operation n.config.retry.tries m).2 o' ∧
      o.Follows s (t.request operation n.config.retry.tries m).1
        (n.config.retry.time (t.request operation n.config.retry.tries m).2) o' := by
  unfold Table.request at hquiet ⊢
  by_cases happlied : m.outcome (t.trees m.key) = .applied
  · rw [if_pos happlied]
    exact h.leads_requestMutation_applied hholds hn hm hslot happlied
  · rw [if_neg happlied] at hquiet ⊢
    exact ⟨_, h.leads_requestMutation_refused hholds hn hm hlimit hquiet
      (Mutation.outcome_of_not_applied happlied)⟩

/-! ## Forgetting chunks -/

/-- The chunks of one creator can be forgotten with one request. -/
theorem requestable_remove {chunks others : List ChunkId} {creator : NodeId} {first : ChunkId}
    (hgroup : Table.chunksOf chunks creator = first :: others) :
    (Mutation.remove first others).Requestable := by
  intro isBackup
  refine if_pos (List.all_eq_true.mpr fun chunk hchunk => decide_eq_true ?_)
  rw [Table.creator_of_chunksOf hgroup chunk (List.mem_cons_of_mem _ hchunk),
    Table.creator_of_chunksOf hgroup first List.mem_cons_self]

/-- Forgets the chunks of one creator after the other. The table says where that ends. -/
theorem leads_removeGroups {policy : RetryPolicy} {limit : Nat} {chunks : List ChunkId}
    {creators : List NodeId} (hcreators : ∀ c ∈ creators, Table.chunksOf chunks c ≠ [])
    (h : o.Settled s) (hholds : o.Holds s t) (hn : o.node? id = some n)
    (hpolicy : n.config.retry = policy) (hlimit : policy.maxAttempts = some limit)
    (hquiet : o.QuietUntil
      (o.clock + policy.time (t.removeOf policy.tries chunks creators).2)) :
    ∃ o', Leads o id (removeGroups (creators.map (Table.chunksOf chunks)))
        (t.removeOf policy.tries chunks creators).2 o' ∧
      o.Follows s (t.removeOf policy.tries chunks creators).1
        (policy.time (t.removeOf policy.tries chunks creators).2) o' := by
  induction creators generalizing o t n with
  | nil => exact ⟨o, Leads.pure hn, .rfl h hholds⟩
  | cons creator rest ih =>
    have hrest : ∀ c ∈ rest, Table.chunksOf chunks c ≠ [] :=
      fun c hc => hcreators c (List.mem_cons_of_mem _ hc)
    obtain ⟨first, others, hgroup⟩ :=
      List.exists_cons_of_ne_nil (hcreators creator List.mem_cons_self)
    have hm := requestable_remove hgroup
    rw [Table.removeOf, Table.changeTree_chunksOf hgroup] at hquiet ⊢
    rw [List.map_cons, hgroup]
    unfold removeGroups
    unfold Table.request at hquiet ⊢
    by_cases happlied : (Mutation.remove first others).outcome
        (t.trees (Mutation.remove first others).key) = .applied
    · obtain ⟨o₁, hleads, hfollows⟩ :=
        h.leads_requestMutation_applied hholds hn hm rfl happlied
      obtain ⟨n₁, hn₁, hview⟩ := hfollows.views.exists_node? hn
      have hpolicy₁ : n₁.config.retry = policy := by
        rw [← hpolicy]
        exact congrArg (·.1.retry) hview
      rw [if_pos happlied] at hquiet ⊢
      have hquiet₁ := hfollows.quiet hquiet
      rw [← Nat.add_zero o.clock, ← hfollows.clock] at hquiet₁
      obtain ⟨o₂, hleads₂, hfollows₂⟩ :=
        ih hrest hfollows.settled hfollows.holds hn₁ hpolicy₁ hquiet₁
      refine ⟨o₂, hleads.bind hleads₂, ?_⟩
      have hboth := hfollows.trans hfollows₂
      rw [Nat.zero_add] at hboth
      exact hboth
    · rw [if_neg happlied] at hquiet ⊢
      subst hpolicy
      obtain ⟨hleads, hfollows⟩ := h.leads_requestMutation_refused hholds hn hm hlimit hquiet
        (Mutation.outcome_of_not_applied happlied)
      exact ⟨_, hleads.bind (Leads.pure hn), hfollows⟩

/-! ## Questions -/

/-- A question that the owner of a slot answers from what it holds there. The table holds the same.
-/
theorem leads_question {f : Node → Message} (operation : Operation) (slot : Slot)
    (message : Message) (reply : Option slot.Content → Message) (h : o.Settled s)
    (hholds : o.Holds s t) (hn : o.node? id = some n)
    (hask : handleMessage id message = (Task.node >>= fun n => return f n))
    (hanswer : ∀ {owner no}, o.node? owner = some no → s.Owns slot.position owner →
      f no = reply (o.read owner slot))
    (hdefinite : (reply (t.read slot)).isDefinite = true) :
    Leads o id (requestResponsible operation slot.position message) (.ok (reply (t.read slot)))
      o := by
  obtain ⟨owner, no, hown, hno, -⟩ := h.exists_owner slot.position
  have hreply := Does.question hno hask
  rw [hanswer hno hown, read_owner_of_holds hholds hown hno] at hreply
  exact h.leads_request_answered hn hown (.of_does hreply) hdefinite hn

theorem leads_get (h : o.Settled s) (hholds : o.Holds s t) (hn : o.node? id = some n)
    (chunk : ChunkId) :
    Leads o id (Protocol.get chunk) (.ok ((t.trees chunk.creator).bind (·.locate chunk))) o := by
  have hasked := h.leads_question .get (.tree chunk.creator) (.lookup chunk)
    (fun tree? => .lookupResult (tree?.bind (·.locate chunk))) hholds hn rfl h.lookup_of_owns rfl
  exact hasked.bind (Leads.pure hn)

theorem leads_getAllBackupRanges (h : o.Settled s) (hholds : o.Holds s t)
    (hn : o.node? id = some n) (node : NodeId) :
    Leads o id (Protocol.getAllBackupRanges node)
      (.ok (((t.trees node).map (·.ranges)).getD [])) o := by
  have hasked := h.leads_question .getAllBackupRanges (.tree node) (.getBackupRanges node)
    (fun tree? => .backupRanges (tree?.map (·.ranges))) hholds hn rfl h.backupRanges_of_owns rfl
  exact hasked.bind (Leads.pure hn)

theorem leads_getChunkId (h : o.Settled s) (hholds : o.Holds s t) (hn : o.node? id = some n)
    (app : ApplicationId) :
    Leads o id (Protocol.getChunkId app) (.ok (t.chunks app)) o := by
  have hasked := h.leads_question .getChunkId (.mapping app) (.getChunkId app) .chunkIdResult
    hholds hn rfl h.chunkOf_of_owns rfl
  exact hasked.bind (Leads.pure hn)

/-! ## Operations -/

/-- What the result of an operation is wrapped in makes no difference to how the operation goes. -/
theorem leads_changed {delay : Nat} {task : Task (Except LookupError Unit)}
    (result : Table × Except LookupError Unit) (hn : o.node? id = some n)
    (h : ∃ o', Leads o id task result.2 o' ∧ o.Follows s result.1 delay o') :
    ∃ o', Leads o id (task >>= fun r => return DirectoryAnswer.changed r) (.changed result.2) o' ∧
      o.Follows s result.1 delay o' := by
  obtain ⟨o', hleads, hfollows⟩ := h
  obtain ⟨n', hn', -⟩ := hfollows.views.exists_node? hn
  exact ⟨o', hleads.map hn', hfollows⟩

/-- Every operation, made by any node, returns what the table returns and leaves an overlay that
stores the changed table. -/
theorem leads_call {limit : Nat} (h : o.Settled s) (hholds : o.Holds s t) (hn : o.node? id = some n)
    (hlimit : n.config.retry.maxAttempts = some limit)
    (c : DirectoryCall)
    (hquiet : o.QuietUntil
      (o.clock + (t.call n.config.retry.tries c).2.time n.config.retry)) :
    ∃ o', Leads o id c.task (t.call n.config.retry.tries c).2 o' ∧
      o.Follows s (t.call n.config.retry.tries c).1
        ((t.call n.config.retry.tries c).2.time n.config.retry) o' := by
  cases c with
  | initRange start owner backups =>
    have hrequest := leads_requestMutation .initRange (.initRange start owner backups) h hholds hn
      (fun _ => rfl) rfl hlimit hquiet
    rw [Table.request_initRange] at hrequest
    exact leads_changed _ hn hrequest
  | migrate chunk node =>
    have hrequest := leads_requestMutation .migrate (.migrate chunk node) h hholds hn
      (fun _ => rfl) rfl hlimit
    rw [Table.request_of_needsTree (f := (·.migrate chunk node)) rfl (fun _ _ => rfl)
      fun _ _ => rfl] at hrequest
    exact leads_changed _ hn (hrequest hquiet)
  | migrateRange start stop node =>
    simp only [DirectoryCall.task, Protocol.migrateRange, Table.call] at hquiet ⊢
    by_cases hsame : start.creator = stop.creator
    · have hrequest := leads_requestMutation .migrateRange (.migrateRange start stop node) h hholds
        hn (fun _ => if_pos hsame) rfl hlimit
      rw [Table.request_of_needsTree (f := (·.migrateRange start stop node)) rfl (fun _ _ => rfl)
        fun _ _ => rfl] at hrequest
      simp only [if_pos hsame] at hquiet ⊢
      exact leads_changed _ hn (hrequest hquiet)
    · simp only [if_neg hsame]
      exact leads_changed (t, .error (.creatorMismatch start stop)) hn
        ⟨o, Leads.pure hn, .rfl h hholds⟩
  | remove chunks =>
    have hcreators : ∀ c ∈ Table.creatorsOf chunks, Table.chunksOf chunks c ≠ [] :=
      fun c hc => Table.mem_creatorsOf.mp hc
    have hgroups := h.leads_removeGroups hcreators hholds hn rfl hlimit hquiet
    rw [← Table.values_byCreator] at hgroups
    exact leads_changed _ hn hgroups
  | insertId app chunk =>
    have hrequest := leads_requestMutation .insertId (.insertId app chunk) h hholds hn
      (fun _ => rfl) rfl hlimit hquiet
    rw [Table.request_insertId] at hrequest
    exact leads_changed _ hn hrequest
  | get chunk => exact ⟨o, (h.leads_get hholds hn chunk).map hn, .rfl h hholds⟩
  | getAllBackupRanges node =>
    exact ⟨o, (h.leads_getAllBackupRanges hholds hn node).map hn, .rfl h hholds⟩
  | getChunkId app => exact ⟨o, (h.leads_getChunkId hholds hn app).map hn, .rfl h hholds⟩

end Settled

/-! ## Sequences of operations -/

/-- The retry policy of a running node. -/
def policy (o : Overlay ρ) (id : NodeId) : RetryPolicy :=
  ((o.node? id).map (·.config.retry)).getD .default

theorem policy_of_node? (hn : o.node? id = some n) : o.policy id = n.config.retry := by
  rw [policy, hn]
  rfl

theorem SameViews.policy (h : o.SameViews o₁) : o₁.policy = o.policy := by
  funext id
  have hview := congrArg (Option.map (·.1.retry)) (h id)
  rw [Option.map_map, Option.map_map] at hview
  exact congrArg (·.getD .default) hview

/-- How long the operations take that return so, in nanoseconds. -/
def time (o : Overlay ρ) (calls : List (NodeId × DirectoryCall)) (answers : List DirectoryAnswer) :
    Nat :=
  (calls.zipWith (fun c answer => answer.time (o.policy c.1)) answers).sum

theorem time_cons (o : Overlay ρ) (c : NodeId × DirectoryCall)
    (rest : List (NodeId × DirectoryCall)) (answer : DirectoryAnswer)
    (answers : List DirectoryAnswer) :
    o.time (c :: rest) (answer :: answers) = answer.time (o.policy c.1) + o.time rest answers :=
  List.sum_cons

theorem SameViews.time (h : o.SameViews o₁) : o₁.time = o.time := by
  funext calls answers
  rw [Overlay.time, Overlay.time, h.policy]

namespace Settled

variable {o o₁ : Overlay DirectoryAnswer}

/-- A sequence of operations on an overlay that stores a table. -/
theorem takes_calls {calls : List (NodeId × DirectoryCall)} (h : o.Settled s)
    (hholds : o.Holds s t)
    (hcallers : ∀ c ∈ calls, ∃ n limit,
      o.node? c.1 = some n ∧ n.config.retry.maxAttempts = some limit)
    (hquiet : o.QuietUntil
      (o.clock + o.time calls (t.calls (fun id => (o.policy id).tries) calls).2)) :
    ∃ rs o', o.Takes (calls.map fun c => .run c.1 c.2.task) rs o' ∧
      rs.map (·.1) = (t.calls (fun id => (o.policy id).tries) calls).2.map .value ∧
      o.Follows s (t.calls (fun id => (o.policy id).tries) calls).1
        (o.time calls (t.calls (fun id => (o.policy id).tries) calls).2) o' := by
  induction calls generalizing o t with
  | nil => exact ⟨[], o, .nil, rfl, .rfl h hholds⟩
  | cons first rest ih =>
    obtain ⟨id, c⟩ := first
    obtain ⟨n, limit, hn, hlimit⟩ := hcallers (id, c) List.mem_cons_self
    let tries (id : NodeId) : Nat := (o.policy id).tries
    let changed := (t.call (tries id) c).1
    let answer := (t.call (tries id) c).2
    have hquietAll : o.QuietUntil
        (o.clock + answer.time (o.policy id) + o.time rest (changed.calls tries rest).2) := by
      rw [Nat.add_assoc, ← o.time_cons (id, c)]
      exact hquiet
    have hquietFirst := hquietAll.mono (Nat.le_add_right _ _)
    obtain ⟨o₁, hleads, hfollows⟩ := h.leads_call hholds hn hlimit c
      (by rw [← policy_of_node? hn]; exact hquietFirst)
    rw [← policy_of_node? hn] at hleads hfollows
    have hpolicy := hfollows.views.policy
    have hcallers₁ : ∀ c ∈ rest, ∃ n limit,
        o₁.node? c.1 = some n ∧ n.config.retry.maxAttempts = some limit := by
      intro c' hc'
      obtain ⟨n', limit', hn', hlimit'⟩ := hcallers c' (List.mem_cons_of_mem _ hc')
      obtain ⟨n'', hn'', hview⟩ := hfollows.views.exists_node? hn'
      exact ⟨n'', limit', hn'', (congrArg (·.1.retry.maxAttempts) hview).trans hlimit'⟩
    have hquiet₁ : o₁.QuietUntil (o₁.clock +
        o₁.time rest (changed.calls (fun id => (o₁.policy id).tries) rest).2) := by
      rw [hfollows.views.time, hpolicy, hfollows.clock]
      exact hfollows.quiet hquietAll
    obtain ⟨rs, o₂, htakes, hresults, hfollows₂⟩ :=
      ih hfollows.settled hfollows.holds hcallers₁ hquiet₁
    obtain ⟨events, hrun⟩ := hleads.run
    rw [hpolicy] at hresults
    rw [hfollows.views.time, hpolicy] at hfollows₂
    refine ⟨_, o₂, .cons hrun hfollows.settled.queue htakes, ?_, ?_⟩
    · rw [List.map_cons, hresults]
      rfl
    · exact hfollows.trans hfollows₂

/-- A settled overlay whose directories start empty behaves as one table. Operations made one after
the other, each by any node with a bounded retry policy, return what the table returns, and the
overlay stores the table at the end. An operation that meets a creator without a tree gives up and
leaves the creator without one.

Only retries take time. No round of upkeep is to begin before the last operation has ended: a round
may promote a peer, whose objects are then recorded at another. -/
theorem calls_refine_table (calls : List (NodeId × DirectoryCall)) (h : o.Settled s)
    (hempty : ∀ id slot, o.read id slot = none)
    (hcallers : ∀ c ∈ calls, ∃ n limit,
      o.node? c.1 = some n ∧ n.config.retry.maxAttempts = some limit)
    (hquiet : o.QuietUntil
      (o.clock + o.time calls (Table.empty.calls (fun id => (o.policy id).tries) calls).2)) :
    (∃ rs o', o.Takes (calls.map fun c => .run c.1 c.2.task) rs o' ∧
      rs.map (·.1) = (Table.empty.calls (fun id => (o.policy id).tries) calls).2.map .value ∧
      o'.Settled s ∧ o'.Holds s (Table.empty.calls (fun id => (o.policy id).tries) calls).1 ∧
      o'.clock =
        o.clock + o.time calls (Table.empty.calls (fun id => (o.policy id).tries) calls).2) ∧
    ∀ (t : Table) (tries : Nat) (c : DirectoryCall) (creator : NodeId),
      creator ∈ Table.needs c → t.trees creator = none →
        (t.call tries c).2 = .changed (.error (.retriesExhausted c.operation tries)) ∧
        (t.call tries c).1.trees creator = none := by
  have hholds : o.Holds s Table.empty := by
    intro slot owner n _ _ id
    rw [hempty, Table.read_empty, ite_self]
  obtain ⟨rs, o', htakes, hresults, hfollows⟩ := h.takes_calls hholds hcallers hquiet
  exact ⟨⟨rs, o', htakes, hresults, hfollows.settled, hfollows.holds, hfollows.clock⟩,
    fun _ _ _ _ => Table.call_of_missing⟩

/-- The small overlay, where a superpeer begins a round of upkeep after one and a half seconds. -/
def tendedOverlay : Overlay DirectoryAnswer :=
  { smallOverlay with workers := [⟨1, some 1500000000, .start⟩] }

theorem settled_tendedOverlay : tendedOverlay.Settled smallRing :=
  have h : (smallOverlay : Overlay DirectoryAnswer).Settled smallRing := settled_smallOverlay
  ⟨⟨h.rules, h.queue, h.up, h.numbered⟩, h.inhabited, h.valid, h.running, h.superpeer_iff, h.exact,
    h.lists⟩

/-- On the small ring a peer registers a range and a superpeer moves one of its objects. Another
creator has no tree, so forgetting one of its objects is given up after two attempts, a second
apart. Nothing else takes time, and all three operations end before the round of upkeep begins. -/
theorem calls_refine_table_smallOverlay :
    ∃ rs o', tendedOverlay.Takes
      [.run ⟨500⟩ (DirectoryCall.initRange (.created (.make ⟨500⟩ 0)) ⟨500⟩ .empty).task,
        .run ⟨0⟩ (DirectoryCall.migrate (.make ⟨500⟩ 7) ⟨1000⟩).task,
        .run ⟨1000⟩ (DirectoryCall.remove [.make ⟨30⟩ 1]).task] rs o' ∧
      rs.map (·.1) = [.value (.changed (.ok ())), .value (.changed (.ok ())),
        .value (.changed (.error (.retriesExhausted .remove 2)))] ∧
      o'.clock = 1000000000 := by
  have hcaller : ∀ (id : NodeId) (n : Node),
      tendedOverlay.node? id = some n → n.config.retry.maxAttempts = some 2 →
      ∃ n limit, tendedOverlay.node? id = some n ∧ n.config.retry.maxAttempts = some limit :=
    fun _ n hn hlimit => ⟨n, 2, hn, hlimit⟩
  have hquiet : tendedOverlay.QuietUntil 1000000000 := by
    intro w hw due hdue
    obtain rfl := List.mem_singleton.mp hw
    cases hdue
    decide
  obtain ⟨⟨rs, o', htakes, hresults, -, -, hclock⟩, -⟩ := calls_refine_table
    [(⟨500⟩, .initRange (.created (.make ⟨500⟩ 0)) ⟨500⟩ .empty),
      (⟨0⟩, .migrate (.make ⟨500⟩ 7) ⟨1000⟩), (⟨1000⟩, .remove [.make ⟨30⟩ 1])]
    settled_tendedOverlay (fun _ _ => read_complete (ρ := DirectoryAnswer))
    (by
      intro c hc
      simp only [List.mem_cons, List.not_mem_nil, or_false] at hc
      rcases hc with rfl | rfl | rfl
      · exact hcaller _ _ rfl rfl
      · exact hcaller _ _ rfl rfl
      · exact hcaller _ _ rfl rfl)
    hquiet
  exact ⟨rs, o', htakes, hresults.trans rfl, hclock⟩

end Settled

end Overlay

end ChunkDirectory
