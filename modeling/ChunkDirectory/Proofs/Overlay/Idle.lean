import ChunkDirectory.Proofs.Overlay.Direct
import ChunkDirectory.Proofs.Overlay.Settled

/-!
# Idle tasks

Much of what a node does concerns neither its place on the ring nor what it stores: it draws
numbers, takes note of failures, asks others for a peer. Such a task is idle as to the aspect `view`
of nodes that matters (`Overlay.Idle`): it comes to an end, and no running node looks different
afterwards (`Overlay.Alike`). Idle tasks compose, whatever their results are, and a message is idle
if its handling is.
-/

namespace ChunkDirectory

namespace Overlay

variable {ρ α β γ : Type} {view : Node → γ} {o o₁ o₂ : Overlay ρ} {id other : NodeId} {n m : Node}

/-- The same nodes are running, each with the same `view`, and every message still reaches them. -/
structure Alike (view : Node → γ) (o o₁ : Overlay ρ) : Prop where
  members : o₁.members = o.members
  conditions : o₁.conditions = o.conditions
  direct : o₁.Direct
  nodes : ∀ id, (o₁.node? id).map view = (o.node? id).map view

namespace Alike

theorem rfl (h : o.Direct) : Alike view o o := ⟨Eq.refl _, Eq.refl _, h, fun _ => Eq.refl _⟩

theorem trans (h : Alike view o o₁) (h₁ : Alike view o₁ o₂) : Alike view o o₂ :=
  ⟨h₁.members.trans h.members, h₁.conditions.trans h.conditions, h₁.direct,
    fun id => (h₁.nodes id).trans (h.nodes id)⟩

theorem of_sameNodes (h : o.Direct) (hsame : o.SameNodes o₁) : Alike view o o₁ :=
  ⟨hsame.members, hsame.conditions, h.of_sameNodes hsame, fun id => by rw [hsame.node?_eq]⟩

/-- Who runs in the one overlay runs in the other. -/
theorem exists_node? (h : Alike view o o₁) (hn : o.node? id = some n) :
    ∃ n₁, o₁.node? id = some n₁ ∧ view n₁ = view n := by
  have hview := h.nodes id
  rw [hn, Option.map_some] at hview
  exact Option.map_eq_some_iff.mp hview

theorem exists_node?_back (h : Alike view o o₁) (hn₁ : o₁.node? id = some n) :
    ∃ m, o.node? id = some m ∧ view m = view n := by
  have hview := h.nodes id
  rw [hn₁, Option.map_some] at hview
  exact Option.map_eq_some_iff.mp hview.symm

theorem node?_eq_none (h : Alike view o o₁) (hn : o.node? id = none) : o₁.node? id = none := by
  have hview := h.nodes id
  rw [hn, Option.map_none] at hview
  exact Option.map_eq_none_iff.mp hview

theorem holds_eq (h : Alike view o o₁) (condition : Condition) (id : NodeId) :
    o₁.holds condition id = o.holds condition id := by
  unfold holds
  rw [h.conditions]

/-- A coarser view. -/
theorem weaken {δ : Type} {coarse : Node → δ} (h : Alike view o o₁)
    (hcoarse : ∀ {n m : Node}, view m = view n → coarse m = coarse n) : Alike coarse o o₁ := by
  refine ⟨h.members, h.conditions, h.direct, fun id => ?_⟩
  cases hn : o.node? id with
  | none => rw [h.node?_eq_none hn, Option.map_none]
  | some n =>
    obtain ⟨n₁, hn₁, hview⟩ := h.exists_node? hn
    rw [hn₁, Option.map_some, Option.map_some, hcoarse hview]

/-- A node that is given a state with the same view. -/
theorem put (h : o.Direct) (hn : o.node? id = some n) (hme : m.me = n.me)
    (hview : view m = view n) : Alike view o (o.put id m) := by
  have hid := h.me hn
  refine ⟨members_put, ?_, h.put (hme.trans hid), fun other => ?_⟩
  · unfold Overlay.put
    split <;> exact Eq.refl _
  · by_cases heq : other = id
    · subst heq
      rw [node?_put_self hn, hn, Option.map_some, Option.map_some, hview]
    · rw [h.node?_put_of_ne heq]

end Alike

/-- What a task comes to depends on what it does at the state in which it begins. -/
theorem Leads.congr {task other : Task α} {a : α} (h : Leads o id task a o₁)
    (hn : o.node? id = some n) (heq : task n = other n) : Leads o id other a o₁ := by
  obtain ⟨events, member, n', hmember, hnode, hpath, hmembers⟩ := h
  obtain ⟨member', hmember', hnode'⟩ := node?_eq_some_iff.mp hn
  rw [hmember] at hmember'
  cases hmember'
  rw [hnode] at hnode'
  cases hnode'
  exact ⟨events, member, n, hmember, hnode, heq ▸ hpath, hmembers⟩

/-- Wherever nodes look as they do in `o`, the task of the node `id` comes to an end, and nodes look
the same afterwards. -/
def Idle (view : Node → γ) (o : Overlay ρ) (id : NodeId) (task : Task α) : Prop :=
  ∀ o₁, Alike view o o₁ → ∃ a o₂, Leads o₁ id task a o₂ ∧ Alike view o₁ o₂

namespace Idle

variable {task : Task α} {f : α → Task β} {message : Message}

theorem pure (hn : o.node? id = some n) (a : α) : Idle view o id (Pure.pure a) := by
  intro o₁ h
  obtain ⟨n₁, hn₁, -⟩ := h.exists_node? hn
  exact ⟨a, o₁, Leads.pure hn₁, .rfl h.direct⟩

theorem bind (h : Idle view o id task) (hrest : ∀ a, Idle view o id (f a)) :
    Idle view o id (task >>= f) := by
  intro o₁ halike
  obtain ⟨a, o₂, hfirst, hsame⟩ := h o₁ halike
  obtain ⟨b, o₃, hlast, hsame'⟩ := hrest a o₂ (halike.trans hsame)
  exact ⟨b, o₃, hfirst.bind hlast, hsame.trans hsame'⟩

theorem node_bind {f : Node → Task β} (hn : o.node? id = some n)
    (hrest : ∀ n₁, view n₁ = view n → Idle view o id (f n₁)) :
    Idle view o id (Task.node >>= f) := by
  intro o₁ halike
  obtain ⟨n₁, hn₁, hview⟩ := halike.exists_node? hn
  obtain ⟨b, o₂, hrest, hsame⟩ := hrest n₁ hview o₁ halike
  exact ⟨b, o₂, Leads.node_bind hn₁ hrest, hsame⟩

theorem modify (hn : o.node? id = some n) {change : Node → Node} (hme : ∀ n, (change n).me = n.me)
    (hview : ∀ n, view (change n) = view n) : Idle view o id (Task.modify change) := by
  intro o₁ halike
  obtain ⟨n₁, hn₁, -⟩ := halike.exists_node? hn
  exact ⟨(), _, .of_does (.modify hn₁ change), .put halike.direct hn₁ (hme n₁) (hview n₁)⟩

theorem enqueue (hn : o.node? id = some n) (failed : NodeId)
    (hview : ∀ n, view (n.enqueue failed) = view n) : Idle view o id (Task.enqueue failed) := by
  refine modify hn (fun n => ?_) hview
  unfold Node.enqueue
  split <;> rfl

theorem ask (hn : o.node? id = some n) {r : Request} (hr : r.isLocal = true) :
    Idle view o id (Task.ask r) := by
  intro o₁ halike
  obtain ⟨n₁, hn₁, -⟩ := halike.exists_node? hn
  obtain ⟨x, o₂, hleads, hsame⟩ := exists_leads_local hn₁ hr
  exact ⟨x, o₂, hleads, .of_sameNodes halike.direct hsame⟩

/-- A call is idle if the receiver, when it is running, handles the message idly. -/
theorem call (hn : o.node? id = some n)
    (hhandle : ∀ m, o.node? other = some m →
      Idle view o other (Protocol.handleMessage id message)) :
    Idle view o id (Task.call other message) := by
  intro o₁ halike
  obtain ⟨n₁, hn₁, -⟩ := halike.exists_node? hn
  cases hother : o.node? other with
  | none =>
    have habsent := halike.node?_eq_none hother
    exact ⟨_, o₁, halike.direct.leads_call_absent hn₁ habsent, .rfl halike.direct⟩
  | some m =>
    obtain ⟨reply, o₂, hleads, hsame⟩ := hhandle m hother o₁ halike
    obtain ⟨n₂, hn₂, -⟩ := hsame.exists_node? hn₁
    exact ⟨_, o₂, halike.direct.leads_call hn₁ hleads hn₂, hsame⟩

theorem send (hn : o.node? id = some n)
    (hhandle : ∀ m, o.node? other = some m →
      Idle view o other (Protocol.handleMessage id message)) :
    Idle view o id (Task.send other message) := by
  intro o₁ halike
  obtain ⟨n₁, hn₁, -⟩ := halike.exists_node? hn
  cases hother : o.node? other with
  | none =>
    have habsent := halike.node?_eq_none hother
    exact ⟨_, o₁, halike.direct.leads_send_absent hn₁ habsent, .rfl halike.direct⟩
  | some m =>
    obtain ⟨reply, o₂, hleads, hsame⟩ := hhandle m hother o₁ halike
    obtain ⟨n₂, hn₂, -⟩ := hsame.exists_node? hn₁
    exact ⟨_, o₂, halike.direct.leads_send hn₁ hleads hn₂, hsame⟩

theorem choose (hn : o.node? id = some n) {δ : Type} (l : List δ) :
    Idle view o id (Task.choose l) := by
  cases l with
  | nil => exact pure hn none
  | cons a rest => exact (ask hn rfl).bind fun _ => pure hn _

theorem spawnFailureHandling (hn : o.node? id = some n) (failed : NodeId)
    (hview : ∀ n, view (n.enqueue failed) = view n) :
    Idle view o id (Task.spawnFailureHandling failed) :=
  (enqueue hn failed hview).bind fun _ => ask hn rfl

end Idle

end Overlay

end ChunkDirectory
