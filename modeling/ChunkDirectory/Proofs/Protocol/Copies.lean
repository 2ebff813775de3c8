import ChunkDirectory.Proofs.Concurrency.Tame
import ChunkDirectory.Proofs.Overlay.Idle
import ChunkDirectory.Proofs.Protocol.Undisturbed

/-!
# Copies in a direct overlay

What a mutation that a superpeer applies comes to where every message reaches a running node. Each
of the nodes it sends copies to does what `Node.mutate` says, which is nothing on a peer; one that
is not running is taken note of as failed, which concerns neither its view of the ring nor what is
stored (`leads_copyTo`, `leads_mutate`).
-/

namespace ChunkDirectory

namespace Node

variable {n n' : Node} {m : Mutation}

theorem role_mutate (h : n'.role = n.role) : (n'.mutate m).role = (n.mutate m).role := by
  unfold mutate mapDirectory
  rw [h]
  cases hrole : n.role with
  | peer attached => exact h
  | superpeer d => rfl

theorem core_mutate (h : n'.core = n.core) : (n'.mutate m).core = (n.mutate m).core := by
  have hrole : n'.role = n.role := congrArg (·.2.2) h
  have hkept (k : Node) : (k.mutate m).core = (k.core.1, k.core.2.1, (k.mutate m).role) := by
    rw [core, core, config_mutate, ring_mutate]
  rw [hkept, hkept, h, role_mutate hrole]

/-- A peer has nothing that a mutation could change. -/
theorem mutate_of_not_superpeer (h : n.isSuperpeer = false) : n.mutate m = n := by
  unfold mutate mapDirectory
  unfold isSuperpeer directory? at h
  cases hrole : n.role with
  | peer _ => rfl
  | superpeer d =>
    rw [hrole] at h
    cases h

end Node

namespace Overlay

open Protocol

variable {ρ : Type} {o o₁ : Overlay ρ} {id x sender : NodeId} {n : Node} {m : Mutation}

namespace Direct

/-- Applying a mutation somewhere keeps an overlay direct. -/
theorem mutateAt (h : o.Direct) : (o.mutateAt m id).Direct := by
  cases hn : o.node? id with
  | none =>
    rw [Overlay.mutateAt, hn]
    exact h
  | some n =>
    rw [mutateAt_of_node? hn]
    exact h.put (by rw [Node.me_mutate]; exact h.me hn)

/-- Mutations concern neither roles nor views of the ring. -/
theorem alike_mutateEach {ids : List NodeId} (h : o.Direct) :
    Alike Node.outlook o (o.mutateEach m ids) := by
  induction ids generalizing o with
  | nil => exact .rfl h
  | cons id rest ih =>
    refine Alike.trans ?_ (ih h.mutateAt)
    cases hn : o.node? id with
    | none =>
      rw [Overlay.mutateAt, hn]
      exact .rfl h
    | some n =>
      rw [mutateAt_of_node? hn]
      exact .put h hn Node.me_mutate Node.outlook_mutate

theorem node?_mutateAt (h : o.Direct) :
    (o.mutateAt m id).node? x = if x = id then (o.node? x).map (·.mutate m) else o.node? x := by
  cases hn : o.node? id with
  | none =>
    have hskip : o.mutateAt m id = o := by rw [Overlay.mutateAt, hn]
    rw [hskip]
    by_cases hx : x = id
    · rw [if_pos hx, hx, hn, Option.map_none]
    · rw [if_neg hx]
  | some n =>
    rw [mutateAt_of_node? hn]
    by_cases hx : x = id
    · rw [if_pos hx, hx, hn, node?_put_self hn, Option.map_some]
    · rw [if_neg hx, h.node?_put_of_ne hx]

/-- Nodes that a mutation is applied at once each are changed by it, and no others. -/
theorem node?_mutateEach {ids : List NodeId} (h : o.Direct) (hnodup : ids.Nodup) :
    (o.mutateEach m ids).node? x =
      if x ∈ ids then (o.node? x).map (·.mutate m) else o.node? x := by
  induction ids generalizing o with
  | nil => rfl
  | cons id rest ih =>
    obtain ⟨hid, hnodup⟩ := List.nodup_cons.mp hnodup
    have hstep : o.mutateEach m (id :: rest) = (o.mutateAt m id).mutateEach m rest := rfl
    rw [hstep, ih h.mutateAt hnodup, h.node?_mutateAt]
    by_cases hx : x = id
    · subst hx
      rw [if_neg hid, if_pos rfl, if_pos List.mem_cons_self]
    · simp only [List.mem_cons, hx, false_or, if_false]

end Direct

namespace Alike

/-- Overlays that look alike still do when the same node is given states that look alike. -/
theorem put_both {γ : Type} {view : Node → γ} {k k₁ : Node} (h : Alike view o o₁) (ho : o.Direct)
    (hn : o.node? id = some n) (hk : k.me = id) (hk₁ : k₁.me = id) (hview : view k₁ = view k) :
    Alike view (o.put id k) (o₁.put id k₁) := by
  obtain ⟨n₁, hn₁, -⟩ := h.exists_node? hn
  have hconditions (o : Overlay ρ) (k : Node) : (o.put id k).conditions = o.conditions := by
    unfold Overlay.put
    split <;> exact Eq.refl _
  refine ⟨by rw [members_put, members_put, h.members], ?_, h.direct.put hk₁, fun x => ?_⟩
  · rw [hconditions, hconditions, h.conditions]
  · by_cases hx : x = id
    · subst hx
      rw [node?_put_self hn, node?_put_self hn₁, Option.map_some, Option.map_some, hview]
    · rw [ho.node?_put_of_ne hx, h.direct.node?_put_of_ne hx, h.nodes x]

theorem mutateAt (h : Alike Node.core o o₁) (ho : o.Direct) :
    Alike Node.core (o.mutateAt m id) (o₁.mutateAt m id) := by
  cases hn : o.node? id with
  | none =>
    rw [Overlay.mutateAt, Overlay.mutateAt, hn, h.node?_eq_none hn]
    exact h
  | some n =>
    obtain ⟨n₁, hn₁, hcore⟩ := h.exists_node? hn
    rw [mutateAt_of_node? hn, mutateAt_of_node? hn₁]
    refine h.put_both ho hn ?_ ?_ (Node.core_mutate hcore)
    · rw [Node.me_mutate, ho.me hn]
    · rw [Node.me_mutate, h.direct.me hn₁]

theorem mutateEach {ids : List NodeId} (h : Alike Node.core o o₁) (ho : o.Direct) :
    Alike Node.core (o.mutateEach m ids) (o₁.mutateEach m ids) := by
  induction ids generalizing o o₁ with
  | nil => exact h
  | cons id rest ih => exact ih (h.mutateAt ho) ho.mutateAt

end Alike

/-- Whoever gets a copy applies it. -/
theorem leads_copy (h : o.Direct) (hn : o.node? id = some n) (hm : m.Requestable)
    (sender : NodeId) :
    ∃ status, Leads o id (handleMessage sender (m.message true)) (.status status)
      (o.mutateAt m id) := by
  have hmutate : ∃ status, Leads o id (mutate m true) status (o.mutateAt m id) := by
    rw [mutateAt_of_node? hn]
    cases hd : n.directory? with
    | none =>
      have hpeer : n.isSuperpeer = false := by rw [Node.isSuperpeer, hd]; rfl
      rw [Node.mutate_of_not_superpeer hpeer, put_of_node? hn]
      exact ⟨.notSuperpeer, (Leads.pure hn).congr hn (mutate_of_peer m true hpeer).symm⟩
    | some d =>
      have htask : Leads o id (do
          Task.modify (·.mutate m)
          return .applied : Task RequestStatus) .applied (o.put id (n.mutate m)) :=
        Leads.modify_bind hn (Leads.pure (node?_put_self hn))
      exact ⟨.applied, htask.congr hn (mutate_of_superpeer m true hd).symm⟩
  obtain ⟨status, hmutate⟩ := hmutate
  have hn₁ : (o.mutateAt m id).node? id = some (n.mutate m) := by
    rw [h.node?_mutateAt, if_pos rfl, hn, Option.map_some]
  rw [handleMessage_of_mutation (hm true)]
  exact ⟨status, hmutate.map hn₁⟩

/-- Copies are sent one after the other. -/
theorem leads_copyTo (h : o.Direct) (hn : o.node? id = some n) (hm : m.Requestable)
    (backups : List NodeId) :
    ∃ o₁, Leads o id (copyTo (m.message true) backups) () o₁ ∧
      Alike Node.core (o.mutateEach m backups) o₁ := by
  induction backups generalizing o n with
  | nil => exact ⟨o, Leads.pure hn, .rfl h⟩
  | cons b rest ih =>
    cases hb : o.node? b with
    | none =>
      have hnoted : Idle Node.core o id (Task.spawnFailureHandling b) :=
        Idle.spawnFailureHandling hn b fun n => n.core_enqueue b
      obtain ⟨⟨⟩, o₁, hnote, hsame⟩ := hnoted o (.rfl h)
      obtain ⟨n₁, hn₁, -⟩ := hsame.exists_node? hn
      obtain ⟨o₂, hrest, halike⟩ := ih hsame.direct hn₁
      have hskip : o.mutateEach m (b :: rest) = o.mutateEach m rest := by
        show (o.mutateAt m b).mutateEach m rest = _
        rw [Overlay.mutateAt, hb]
      refine ⟨o₂, (h.leads_call_absent hn hb).bind (hnote.bind hrest), ?_⟩
      rw [hskip]
      exact (hsame.mutateEach h).trans halike
    | some k =>
      obtain ⟨status, hcopy⟩ := leads_copy h hb hm id
      obtain ⟨n₁, hn₁⟩ : ∃ n₁, (o.mutateAt m b).node? id = some n₁ := by
        rw [h.node?_mutateAt, hn]
        split <;> exact ⟨_, rfl⟩
      obtain ⟨o₂, hrest, halike⟩ := ih h.mutateAt hn₁
      exact ⟨o₂, (h.leads_call hn hcopy hn₁).bind hrest, halike⟩

/-- A superpeer that takes itself for the primary applies a mutation and has it applied by its
backups. -/
theorem leads_mutate {d : Directory} (h : o.Direct) (hn : o.node? id = some n)
    (hd : n.directory? = some d) (hprimary : n.isPrimaryFor m.key = true)
    (happlied : (m.apply d).2 = .applied) (hm : m.Requestable) :
    ∃ o₁, Leads o id (mutate m false) .applied o₁ ∧
      Alike Node.core (o.mutateEach m (id :: n.ring.backups id)) o₁ := by
  have hn₁ : (o.put id (n.mutate m)).node? id = some (n.mutate m) := node?_put_self hn
  have hdirect : (o.put id (n.mutate m)).Direct :=
    h.put (by rw [Node.me_mutate]; exact h.me hn)
  obtain ⟨o₁, hcopies, halike⟩ := leads_copyTo hdirect hn₁ hm (n.ring.backups id)
  have hstep : o.mutateEach m (id :: n.ring.backups id) =
      (o.put id (n.mutate m)).mutateEach m (n.ring.backups id) := by
    rw [← mutateAt_of_node? hn]
    rfl
  rw [hstep]
  obtain ⟨k, hk⟩ : ∃ k,
      ((o.put id (n.mutate m)).mutateEach m (n.ring.backups id)).node? id = some k := by
    rw [hdirect.node?_mutateEach (Ring.backups_nodup _ _), hn₁]
    split <;> exact ⟨_, rfl⟩
  obtain ⟨n₂, hn₂, -⟩ := halike.exists_node? hk
  have hreplicate : Leads (o.put id (n.mutate m)) id (replicate m) () o₁ := by
    refine Leads.node_bind hn₁ ?_
    rw [Node.ring_mutate, Node.me_mutate, h.me hn]
    exact hcopies
  have htask : Leads o id (do
      Task.modify (·.mutate m)
      replicate m
      return .applied : Task RequestStatus) .applied o₁ :=
    Leads.modify_bind hn (hreplicate.bind (Leads.pure hn₂))
  refine ⟨o₁, htask.congr hn ?_, halike⟩
  rw [mutate_of_superpeer m false hd, if_neg Bool.false_ne_true, if_pos hprimary, if_pos happlied]
  rfl

end Overlay

end ChunkDirectory
