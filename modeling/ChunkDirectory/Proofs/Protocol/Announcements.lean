import ChunkDirectory.Proofs.Protocol.Notices
import ChunkDirectory.Proofs.Ring.Sides
import ChunkDirectory.Protocol.Dispatch

/-!
# Announcements of neighbours

A superpeer that has both neighbours is told of others, on either side, in some order and perhaps
several times. Each time it keeps the nearer one of the neighbour it has and the one it is told of
(`Node.closest_hear`), so that in the end it has the nearest of all of them
(`Node.closest_hearAll`). Since no two nodes are equally near on a side, this does not depend on the
order.
-/

namespace ChunkDirectory

open NodeId

namespace Arc

variable {s e x : NodeId}

/-- An open arc holds what is nearer to its upper end than its lower end is. -/
theorem mem_strict_iff_to :
    Arc.contains ⟨s, e, .strict⟩ x = true ↔ x ≠ e ∧ clockwise x e < clockwise s e := by
  by_cases h : s = e
  · subst h
    rw [clockwise_self]
    exact iff_of_false (by simp [Arc.contains]) fun h => Nat.not_lt_zero _ h.2
  · exact mem_strict_iff h

/-- An open arc holds what is nearer to its lower end than its upper end is. -/
theorem mem_strict_iff_from :
    Arc.contains ⟨s, e, .strict⟩ x = true ↔ x ≠ s ∧ clockwise s x < clockwise s e := by
  by_cases h : s = e
  · subst h
    rw [clockwise_self]
    exact iff_of_false (by simp [Arc.contains]) fun h => Nat.not_lt_zero _ h.2
  · have hne : x ≠ s ↔ clockwise s x ≠ 0 :=
      not_congr (eq_comm.trans clockwise_eq_zero_iff.symm)
    rw [hne]
    simp only [Arc.contains, if_neg h, Bool.and_eq_true, decide_eq_true_eq]

end Arc

/-! ## Notices -/

/-- Word of a neighbour on a side. -/
structure Notice where
  side : Side
  node : NodeId
deriving DecidableEq

/-- The message by which a neighbour makes itself known. -/
def Notice.message : Notice → Message
  | ⟨.before, x⟩ => .notifyAboutNewPredecessor x
  | ⟨.after, x⟩ => .notifyAboutNewSuccessor x

namespace Node

variable {n : Node} {notice : Notice} {side : Side} {x : NodeId}

/-- The node after it is told of a neighbour. -/
def hear (n : Node) : Notice → Node
  | ⟨.before, x⟩ => n.noticePredecessor x
  | ⟨.after, x⟩ => n.noticeSuccessor x

/-- The node after it is told of several, one after the other. -/
def hearAll (n : Node) (notices : List Notice) : Node := notices.foldl hear n

theorem handleMessage_notice (sender : NodeId) (notice : Notice) (n : Node) :
    Protocol.handleMessage sender notice.message n = .done .ack (n.hear notice) := by
  obtain ⟨side, x⟩ := notice
  cases side <;> rfl

/-- Whether the node takes whom it is told of for its neighbour. -/
def Takes (n : Node) (notice : Notice) : Prop :=
  n.isSuperpeer = true ∧ notice.node ≠ n.me ∧ ∀ x, n.ring.neighbour notice.side = some x →
    notice.side.dist n.me notice.node < notice.side.dist n.me x

/-- A superpeer with both neighbours. -/
structure Flanked (n : Node) : Prop where
  role : n.isSuperpeer = true
  neighbours : ∀ side, ∃ x, n.ring.neighbour side = some x

/-- A superpeer with both neighbours that takes another one changes the pointer on that side. -/
theorem hear_of_takes (h : n.Flanked) (htakes : n.Takes notice) :
    (n.hear notice).me = n.me ∧ (n.hear notice).isSuperpeer = n.isSuperpeer ∧ ∀ side,
      (n.hear notice).ring.neighbour side =
        if side = notice.side then some notice.node else n.ring.neighbour side := by
  obtain ⟨side, x⟩ := notice
  obtain ⟨hrole, hne, hnearer⟩ := htakes
  cases side with
  | before =>
    obtain ⟨q, hq⟩ := h.neighbours .after
    have hpredecessor : n.TakesPredecessor x :=
      ⟨hrole, hne, fun p hp => Arc.mem_strict_iff_to.mpr ⟨hne, hnearer p hp⟩⟩
    obtain ⟨t, ht, -⟩ := noticePredecessor_of_takes hpredecessor
    rw [hear, ht]
    refine ⟨rfl, rfl, fun side => ?_⟩
    cases side with
    | before => rfl
    | after =>
      rw [Ring.neighbour] at hq
      simp [Ring.neighbour, hq]
  | after =>
    obtain ⟨p, hp⟩ := h.neighbours .before
    have hsuccessor : n.TakesSuccessor x :=
      ⟨hrole, hne, fun q hq => Arc.mem_strict_iff_from.mpr ⟨hne, hnearer q hq⟩⟩
    obtain ⟨t, ht, -⟩ := noticeSuccessor_of_takes hsuccessor
    rw [hear, ht]
    refine ⟨rfl, rfl, fun side => ?_⟩
    cases side with
    | before =>
      rw [Ring.neighbour] at hp
      simp [Ring.neighbour, hp]
    | after => rfl

theorem hear_of_not_takes (hnot : ¬ n.Takes notice) : n.hear notice = n := by
  obtain ⟨side, x⟩ := notice
  cases side with
  | before =>
    refine noticePredecessor_of_not_takes fun h => hnot ⟨h.1, h.2.1, fun p hp => ?_⟩
    exact (Arc.mem_strict_iff_to.mp (h.2.2 p hp)).2
  | after =>
    refine noticeSuccessor_of_not_takes fun h => hnot ⟨h.1, h.2.1, fun q hq => ?_⟩
    exact (Arc.mem_strict_iff_from.mp (h.2.2 q hq)).2

/-! ## One notice -/

/-- Of the neighbour it has and the one it is told of, the node keeps the nearer one. -/
theorem closest_hear (h : n.Flanked) (notice : Notice) (hx : n.ring.neighbour side = some x) :
    ∃ y, (n.hear notice).ring.neighbour side = some y ∧
      Closest side n.me (fun z => z = x ∨ notice = ⟨side, z⟩ ∧ z ≠ n.me) y := by
  by_cases htakes : n.Takes notice
  · obtain ⟨-, -, hneighbour⟩ := hear_of_takes h htakes
    rw [hneighbour]
    by_cases hside : side = notice.side
    · subst hside
      refine ⟨notice.node, if_pos rfl, .inr ⟨rfl, htakes.2.1⟩, fun z hz => ?_⟩
      rcases hz with rfl | ⟨heq, -⟩
      · exact Nat.le_of_lt (htakes.2.2 z hx)
      · exact Nat.le_of_eq (congrArg (fun w : Notice => notice.side.dist n.me w.node) heq)
    · refine ⟨x, (if_neg hside).trans hx, .inl rfl, fun z hz => ?_⟩
      rcases hz with rfl | ⟨rfl, -⟩
      · exact Nat.le_refl _
      · exact absurd rfl hside
  · rw [hear_of_not_takes htakes]
    refine ⟨x, hx, .inl rfl, fun z hz => ?_⟩
    rcases hz with rfl | ⟨rfl, hne⟩
    · exact Nat.le_refl _
    · refine Nat.le_of_not_lt fun hlt => htakes ⟨h.role, hne, fun y hy => ?_⟩
      obtain rfl : x = y := Option.some.inj (hx.symm.trans hy)
      exact hlt

/-- It stays a superpeer with both neighbours. -/
theorem Flanked.hear (h : n.Flanked) (notice : Notice) :
    (n.hear notice).Flanked ∧ (n.hear notice).me = n.me := by
  have hkept : (n.hear notice).me = n.me ∧ (n.hear notice).isSuperpeer = n.isSuperpeer := by
    by_cases htakes : n.Takes notice
    · obtain ⟨hme, hrole, -⟩ := hear_of_takes h htakes
      exact ⟨hme, hrole⟩
    · rw [hear_of_not_takes htakes]
      exact ⟨rfl, rfl⟩
  refine ⟨⟨hkept.2.trans h.role, fun side => ?_⟩, hkept.1⟩
  obtain ⟨x, hx⟩ := h.neighbours side
  obtain ⟨y, hy, -⟩ := closest_hear h notice hx
  exact ⟨y, hy⟩

/-! ## All notices -/

/-- Of the neighbour it had and all it was told of, the node has the nearest one in the end. -/
theorem closest_hearAll (h : n.Flanked) (side : Side) (hx : n.ring.neighbour side = some x)
    (notices : List Notice) :
    ∃ y, (n.hearAll notices).ring.neighbour side = some y ∧
      Closest side n.me (fun z => z = x ∨ ⟨side, z⟩ ∈ notices ∧ z ≠ n.me) y := by
  induction notices generalizing n x with
  | nil =>
    refine ⟨x, hx, .inl rfl, fun z hz => ?_⟩
    rcases hz with rfl | ⟨hmem, -⟩
    · exact Nat.le_refl _
    · cases hmem
  | cons notice rest ih =>
    obtain ⟨hflanked, hme⟩ := h.hear notice
    obtain ⟨x', hx', hfirst⟩ := closest_hear h notice hx
    obtain ⟨y, hy, hrest⟩ := ih hflanked hx'
    rw [hme] at hrest
    refine ⟨y, hy, (hfirst.next hrest).congr fun z => ?_⟩
    rw [List.mem_cons, or_and_right, or_assoc, eq_comm (a := notice)]

/-- A superpeer that has both neighbours acknowledges all notices, and in the end has the nearest
predecessor and the nearest successor of those it had and those it was told of, itself left out.
The order of the notices and how often each of them came make no difference. -/
theorem notices_commute {n : Node} {p q : NodeId} (hrole : n.isSuperpeer = true)
    (hp : n.ring.predecessor = some p) (hq : n.ring.successor = some q) :
    (∀ (sender : NodeId) (notice : Notice) (m : Node),
      Protocol.handleMessage sender notice.message m = .done .ack (m.hear notice)) ∧
    (∀ notices, ∃ p' q', (n.hearAll notices).ring.predecessor = some p' ∧
      (n.hearAll notices).ring.successor = some q' ∧
      Closest .before n.me (fun x => x = p ∨ ⟨.before, x⟩ ∈ notices ∧ x ≠ n.me) p' ∧
      Closest .after n.me (fun x => x = q ∨ ⟨.after, x⟩ ∈ notices ∧ x ≠ n.me) q') ∧
    ∀ notices notices' : List Notice, (∀ x, x ∈ notices ↔ x ∈ notices') →
      (n.hearAll notices).ring.predecessor = (n.hearAll notices').ring.predecessor ∧
        (n.hearAll notices).ring.successor = (n.hearAll notices').ring.successor := by
  have hflanked : n.Flanked := ⟨hrole, fun side => by
    cases side with
    | before => exact ⟨p, hp⟩
    | after => exact ⟨q, hq⟩⟩
  refine ⟨handleMessage_notice, fun notices => ?_, fun notices notices' hsame => ?_⟩
  · obtain ⟨p', hp', hbefore⟩ := closest_hearAll hflanked .before hp notices
    obtain ⟨q', hq', hafter⟩ := closest_hearAll hflanked .after hq notices
    exact ⟨p', q', hp', hq', hbefore, hafter⟩
  · have hside (side : Side) : (n.hearAll notices).ring.neighbour side =
        (n.hearAll notices').ring.neighbour side := by
      obtain ⟨x, hx⟩ := hflanked.neighbours side
      obtain ⟨y, hy, hclosest⟩ := closest_hearAll hflanked side hx notices
      obtain ⟨y', hy', hclosest'⟩ := closest_hearAll hflanked side hx notices'
      have hcongr := hclosest'.congr fun z =>
        or_congr_right (and_congr_left fun _ => (hsame ⟨side, z⟩).symm)
      rw [hy, hy', hclosest.unique hcongr]
    exact ⟨hside .before, hside .after⟩

/-- A superpeer at 200 between 100 and 300. -/
def midway : Node :=
  (Node.new { Config.default with nodeId := ⟨200⟩, role := .superpeer }).mapRing fun r =>
    (r.setPredecessor (some ⟨100⟩)).setSuccessor (some ⟨300⟩)

/-- It is told of 120 and 150 in either order, and of itself. -/
theorem notices_commute_midway :
    (midway.hearAll [⟨.before, ⟨120⟩⟩, ⟨.after, ⟨250⟩⟩, ⟨.before, ⟨150⟩⟩]).ring.predecessor =
        (midway.hearAll [⟨.before, ⟨150⟩⟩, ⟨.before, ⟨120⟩⟩, ⟨.after, ⟨250⟩⟩,
          ⟨.before, ⟨150⟩⟩]).ring.predecessor ∧
      ∃ p', (midway.hearAll [⟨.after, ⟨200⟩⟩, ⟨.before, ⟨150⟩⟩]).ring.predecessor = some p' ∧
        clockwise p' ⟨200⟩ ≤ clockwise ⟨150⟩ ⟨200⟩ := by
  obtain ⟨-, hclosest, hsame⟩ := notices_commute (n := midway) (p := ⟨100⟩) (q := ⟨300⟩) rfl rfl rfl
  obtain ⟨p', -, hp', -, hbefore, -⟩ := hclosest [⟨.after, ⟨200⟩⟩, ⟨.before, ⟨150⟩⟩]
  refine ⟨(hsame _ _ fun x => ?_).1, p', hp', hbefore.2 ⟨150⟩ (.inr ⟨by decide, by decide⟩)⟩
  simp only [List.mem_cons, List.not_mem_nil, or_false]
  grind

end Node

end ChunkDirectory
