import ChunkDirectory.Proofs.Protocol.Denied
import ChunkDirectory.Proofs.Protocol.Restoration
import ChunkDirectory.Proofs.Protocol.Tending

/-!
# A superpeer that survives another

A superpeer handles the failure of another one. It may need a new contact, and it may take over
peers; neither changes its place on the ring or what it stores (`Node.standing`). Then it makes the
copies anew that it is the one to pass on, strikes the failed superpeer from its view of the ring,
and, where no promotion goes through, that is all (`Overlay.leads_handleFailure`). Others are
concerned by the copies only: their places are what they were (`Overlay.Handled`).
-/

namespace ChunkDirectory

open Protocol

namespace Node

variable {n m : Node} {s : NodeSet} {slot : Slot}

/-- A superpeer's place and what it stores. -/
def standing (n : Node) : NodeId × NodeSet × Option NodeId × Option NodeId × Option Directory :=
  (n.ring.me, n.ring.superpeers, n.ring.predecessor, n.ring.successor, n.directory?)

theorem place_of_standing (h : m.standing = n.standing) : m.place = n.place := by
  have hdirectory : m.directory? = n.directory? := congrArg (·.2.2.2.2) h
  rw [place, place, isSuperpeer, isSuperpeer, hdirectory]
  exact congrArg (fun c => (c.1, c.2.1, c.2.2.1, c.2.2.2.1, n.directory?.isSome)) h

theorem standing_of_core (h : m.core = n.core) : m.standing = n.standing := by
  have hring : m.ring = n.ring := congrArg (·.2.1) h
  have hrole : m.role = n.role := congrArg (·.2.2) h
  rw [standing, standing, directory?, directory?, hring, hrole]

theorem keyed_of_standing (h : m.standing = n.standing) (hkeyed : n.Keyed) : m.Keyed :=
  hkeyed.congr (congrArg (·.2.2.2.2) h)

theorem read_of_standing (h : m.standing = n.standing) : m.read slot = n.read slot := by
  rw [read, read, show m.directory? = n.directory? from congrArg (·.2.2.2.2) h]

/-- To take over peers concerns the list of peers only. -/
theorem standing_takeOverPeers (n : Node) (failed : NodeId) :
    (n.takeOverPeers failed).standing = n.standing := by
  obtain ⟨ids, -, htake⟩ := n.takeOverPeers_eq failed
  obtain ⟨peers, hpeers, -⟩ := Ring.insertPeers_eq ids n.ring
  rw [htake, mapRing, hpeers]
  rfl

end Node

namespace Overlay

variable {ρ : Type} {o o₁ o₂ : Overlay ρ} {s : NodeSet} {failed x y : NodeId} {n m : Node}

/-! ## Places and contents -/

namespace Alike

theorem read_eq (h : Alike Node.standing o o₁) (y : NodeId) (slot : Slot) :
    o₁.read y slot = o.read y slot := by
  cases hn : o.node? y with
  | none => rw [read, read, hn, h.node?_eq_none hn]
  | some n =>
    obtain ⟨n₁, hn₁, hview⟩ := h.exists_node? hn
    rw [read_of_node? hn₁, read_of_node? hn, Node.read_of_standing hview]

theorem keyed (h : Alike Node.standing o o₁) (hkeyed : o.Keyed) : o₁.Keyed := by
  intro y m hm
  obtain ⟨m₁, hm₁, hview⟩ := h.exists_node?_back hm
  exact Node.keyed_of_standing hview.symm (hkeyed y m₁ hm₁)

end Alike

theorem Denying.of_place (h : o.Denying) (hsame : Alike Node.place o o₁) : o₁.Denying :=
  h.of_alike hsame Node.isSuperpeer_of_place

/-! ## The failure of another superpeer -/

/-- A superpeer replaces its contact if it is the failed one. -/
theorem idle_replaceBootstrap (hn : o.node? x = some n) (failed : NodeId) :
    Idle Node.standing o x (replaceBootstrap failed) := by
  refine Idle.node_bind hn fun n₁ _ => ?_
  split
  case isFalse => exact .pure hn ()
  case isTrue =>
    have hset (next : NodeId) :
        Idle Node.standing o x (Task.modifyRing (·.setBootstrap next)) :=
      .modify hn (fun _ => rfl) fun _ => rfl
    refine (hset _).bind fun _ => ?_
    split
    case isFalse => exact .pure hn ()
    case isTrue =>
      refine (Idle.call hn fun m hm => ?_).bind fun reply => ?_
      · exact Idle.node_bind hm fun _ _ => .pure hm _
      · cases reply with
        | ok => exact .pure hn ()
        | error e => exact .enqueue hn _ fun n => Node.standing_of_core (n.core_enqueue _)

/-- What has become of an overlay when `x` has handled the failure. -/
structure Handled (s : NodeSet) (failed x : NodeId) (o o₁ : Overlay ρ) : Prop where
  direct : o₁.Direct
  denying : o₁.Denying
  keyed : o₁.Keyed
  self : ∃ n, o₁.node? x = some n ∧ n.isSuperpeer = true ∧ n.ring.Exact (s.erase failed)
  others : ∀ y m, y ≠ x → o.node? y = some m → ∃ m₁, o₁.node? y = some m₁ ∧ m₁.place = m.place
  /-- Only a holder passes on what it holds. -/
  reads : ∀ y slot, o₁.read y slot = o.read y slot ∨
    x ∈ s.holders slot.position ∧ o₁.read y slot = (o.read x slot).or (o.read y slot)
  passed : ∀ y slot, s.Passes failed slot.position x y →
    o₁.read y slot = (o.read x slot).or (o.read y slot)

/-- What comes before and leaves places and contents alone makes no difference. -/
theorem Handled.of_alike (h : Handled s failed x o₁ o₂) (hsame : Alike Node.standing o o₁) :
    Handled s failed x o o₂ := by
  refine ⟨h.direct, h.denying, h.keyed, h.self, fun y m hy hm => ?_, fun y slot => ?_,
    fun y slot hpasses => ?_⟩
  · obtain ⟨m₁, hm₁, hview⟩ := hsame.exists_node? hm
    obtain ⟨m₂, hm₂, hplace⟩ := h.others y m₁ hy hm₁
    exact ⟨m₂, hm₂, hplace.trans (Node.place_of_standing hview)⟩
  · rw [← hsame.read_eq, ← hsame.read_eq]
    exact h.reads y slot
  · rw [← hsame.read_eq, ← hsame.read_eq]
    exact h.passed y slot hpasses

section

variable (h : o.Direct) (hdenying : o.Denying) (hkeyed : o.Keyed)
    (hn : o.node? x = some n) (hrole : n.isSuperpeer = true) (hexact : n.ring.Exact s)
    (hx : x ∈ s) (hfailed : failed ∈ s) (hne : failed ≠ x)
    (hothers : ∀ y ∈ s, y ≠ failed → y ≠ x → o.Other x y)

include h hdenying hkeyed hn hrole hexact hx hfailed hne hothers

/-- What a superpeer does once it has a new contact and the peers of the failed one. -/
theorem leads_repairRing (promotes : Bool) :
    ∃ o₁, Leads o x (do
        restoreCopies failed
        Task.modifyRing (·.removeSuperpeer failed)
        if promotes then promoteOnePeer failed
        Task.ask (.reportFailure failed true)) () o₁ ∧
      Handled s failed x o o₁ := by
  obtain ⟨o₁, hcopies, hrestored⟩ :=
    leads_restoreCopies h hn hexact hothers hkeyed hrole hx hfailed hne
  have hdirect := hrestored.alike.direct
  obtain ⟨n₁, hn₁, hview₁⟩ := hrestored.alike.exists_node? hn
  have hring₁ : n₁.ring = n.ring := congrArg (·.2.1) hview₁
  let n₂ := n₁.mapRing (·.removeSuperpeer failed)
  have hexact₂ : n₂.ring.Exact (s.erase failed) := by
    show (n₁.ring.removeSuperpeer failed).Exact (s.erase failed)
    rw [hring₁]
    exact hexact.removeSuperpeer hfailed fun heq => hne (heq.trans (h.me hn))
  have hme₂ : n₂.me = x := (Ring.me_removeSuperpeer n₁.ring failed).trans (hdirect.me hn₁)
  have hrole₂ : n₂.isSuperpeer = true := (congrArg (·.2.2) hview₁).trans hrole
  have hn₂ : (o₁.put x n₂).node? x = some n₂ := node?_put_self hn₁
  have hdenying₂ : (o₁.put x n₂).Denying :=
    (hdenying.of_place (hrestored.alike.weaken Node.place_of_outlook)).put hdirect hn₁ hrole₂
  have hkeyed₂ : (o₁.put x n₂).Keyed := hrestored.keyed.put hdirect hn₁ (hrestored.keyed x n₁ hn₁)
  have hread₂ := hdirect.read_put hn₁ (m := n₂) rfl
  -- What comes afterwards is idle.
  have hidle : Idle Node.core (o₁.put x n₂) x (do
      if promotes then promoteOnePeer failed
      Task.ask (.reportFailure failed true)) := by
    cases promotes with
    | true => exact (hdenying₂.idle_promoteOnePeer hn₂ failed).bind fun _ => .ask hn₂ rfl
    | false => exact .ask hn₂ rfl
  obtain ⟨⟨⟩, o₃, hrest, hcore⟩ := hidle _ (.rfl (hdirect.put hme₂))
  have hsame : Alike Node.standing (o₁.put x n₂) o₃ := hcore.weaken Node.standing_of_core
  have hread (y : NodeId) (slot : Slot) : o₃.read y slot = o₁.read y slot :=
    (hsame.read_eq y slot).trans (hread₂ y slot)
  refine ⟨o₃, hcopies.bind (Leads.modify_bind hn₁ hrest), hsame.direct,
    hdenying₂.of_place (hsame.weaken Node.place_of_standing), hsame.keyed hkeyed₂, ?_, ?_,
    fun y slot => ?_, fun y slot hpasses => ?_⟩
  · obtain ⟨n₃, hn₃, hview₃⟩ := hsame.exists_node? hn₂
    have hplace := Node.place_of_standing hview₃
    exact ⟨n₃, hn₃, (Node.isSuperpeer_of_place hplace).trans hrole₂,
      Node.exact_of_place hplace hexact₂⟩
  · intro y m hy hm
    obtain ⟨m₁, hm₁, hmview⟩ := hrestored.alike.exists_node? hm
    obtain ⟨m₃, hm₃, hmview₃⟩ := hsame.exists_node? ((hdirect.node?_put_of_ne hy).trans hm₁)
    exact ⟨m₃, hm₃, (Node.place_of_standing hmview₃).trans (Node.place_of_outlook hmview)⟩
  · rw [hread]
    exact hrestored.reads y slot
  · rw [hread]
    exact hrestored.passed y slot hpasses

/-- A superpeer that knows the ring handles the failure of another one. -/
theorem leads_superpeerFailed :
    ∃ o₁, Leads o x (superpeerFailed failed) () o₁ ∧ Handled s failed x o o₁ := by
  obtain ⟨⟨⟩, o₁, hreplace, hsame₁⟩ := idle_replaceBootstrap hn failed o (.rfl h)
  obtain ⟨n₁, hn₁, hview₁⟩ := hsame₁.exists_node? hn
  obtain ⟨o₂, hadopt, hsame₂⟩ : ∃ o₂, Leads o₁ x (if n₁.ring.predecessor = some failed then
      Task.modify (·.takeOverPeers failed) else pure ()) () o₂ ∧ Alike Node.standing o₁ o₂ := by
    split
    · exact ⟨_, .of_does (.modify hn₁ _), .put hsame₁.direct hn₁
        (congrArg (·.1) (n₁.standing_takeOverPeers failed)) (n₁.standing_takeOverPeers failed)⟩
    · exact ⟨o₁, Leads.pure hn₁, .rfl hsame₁.direct⟩
  have hbefore : Alike Node.standing o o₂ := hsame₁.trans hsame₂
  obtain ⟨n₂, hn₂, hview₂⟩ := hbefore.exists_node? hn
  have hplace := Node.place_of_standing hview₂
  have hothers₂ : ∀ y ∈ s, y ≠ failed → y ≠ x → o₂.Other x y := by
    intro y hy hyfailed hyx
    obtain ⟨-, m, hm, hsuper⟩ := hothers y hy hyfailed hyx
    obtain ⟨m₂, hm₂, hmview⟩ := hbefore.exists_node? hm
    exact ⟨hyx, m₂, hm₂,
      (Node.isSuperpeer_of_place (Node.place_of_standing hmview)).trans hsuper⟩
  obtain ⟨o₃, hrepair, hhandled⟩ := leads_repairRing hbefore.direct
    (hdenying.of_place (hbefore.weaken Node.place_of_standing)) (hbefore.keyed hkeyed) hn₂
    ((Node.isSuperpeer_of_place hplace).trans hrole) (Node.exact_of_place hplace hexact) hx hfailed
    hne hothers₂ (n₁.ring.predecessor = some failed)
  refine ⟨o₃, hreplace.bind (Leads.node_bind hn₁ ?_), hhandled.of_alike hbefore⟩
  by_cases hpredecessor : n₁.ring.predecessor = some failed
  · simp only [hpredecessor, decide_true, if_true] at hadopt hrepair ⊢
    exact hadopt.bind hrepair
  · simp only [hpredecessor, decide_false, if_false] at hadopt hrepair ⊢
    have hboth : Leads o₁ x (pure () >>= fun _ => do
        restoreCopies failed
        Task.modifyRing (·.removeSuperpeer failed)
        if false then promoteOnePeer failed
        Task.ask (.reportFailure failed true)) () o₃ := hadopt.bind hrepair
    exact hboth

theorem leads_handleFailure :
    ∃ o₁, Leads o x (handleFailure failed) () o₁ ∧ Handled s failed x o o₁ := by
  obtain ⟨o₁, hleads, hhandled⟩ :=
    leads_superpeerFailed h hdenying hkeyed hn hrole hexact hx hfailed hne hothers
  have hme : failed ≠ n.me := fun heq => hne (heq.trans (h.me hn))
  have hlisted : n.ring.superpeers.contains failed = true := by
    rw [hexact.superpeers]
    exact decide_eq_true (NodeSet.mem_erase.mpr ⟨hfailed, hme⟩)
  refine ⟨o₁, Leads.node_bind hn ?_, hhandled⟩
  rw [if_neg hme, if_pos hlisted, if_pos hrole]
  exact hleads

end

end Overlay

end ChunkDirectory
