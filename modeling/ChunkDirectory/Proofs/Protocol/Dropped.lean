import ChunkDirectory.Proofs.Draining
import ChunkDirectory.Proofs.Protocol.Errands

/-!
# Failed superpeers are dropped

Who handles the failure of a superpeer has dropped it from the list in the end, unless it was
promoted on the way. This holds while other tasks run on the node, as long as they leave the
superpeer out (`Node.LeavesOut`): they may change anything else, but they do not list it, do not
take its failure off the queue, and do not drain the queue themselves.

Until its failure is handled the superpeer is queued, and from then on it is not listed. One of the
two is the case at any time (`Node.Owes`), and when the queue is empty it is the latter
(`Protocol.without_of_drainQueue`).
-/

namespace ChunkDirectory

open Protocol

variable {x failed : NodeId} {n n' m : Node} {log : List Occurrence}

namespace Node

/-- Another task does not list the node `x`, leaves the failure of `x` in the queue, and neither
begins nor ends to drain the queue. -/
structure LeavesOut (x : NodeId) (n m : Node) : Prop where
  config : m.config = n.config
  me : m.me = n.me
  draining : m.draining = n.draining
  failures : x ∈ n.failures → x ∈ m.failures
  superpeers : x ∈ m.ring.superpeers → x ∈ n.ring.superpeers

theorem Onward.leavesOut (h : n.Onward m) : n.LeavesOut x m :=
  ⟨h.config, h.me, h.draining, h.failures x, h.superpeers x⟩

/-- The node does not list `x`. -/
def Without (x : NodeId) (n : Node) : Prop := x ∉ n.ring.superpeers

/-- The node does not list `x` if that is the node itself. -/
def OmitsSelf (x : NodeId) (n : Node) : Prop := x = n.me → n.Without x

/-- A node that lists `x` is another one, and still has the failure of `x` to handle. -/
structure Owes (x : NodeId) (n : Node) : Prop where
  own : n.OmitsSelf x
  owed : x ∈ n.failures ∨ n.Without x

theorem Without.owes (h : n.Without x) : n.Owes x := ⟨fun _ => h, .inr h⟩

namespace LeavesOut

theorem refl (n : Node) : n.LeavesOut x n := (Onward.refl n).leavesOut

theorem without (h : n.LeavesOut x m) (hn : n.Without x) : m.Without x :=
  fun hlisted => hn (h.superpeers hlisted)

theorem omitsSelf (h : n.LeavesOut x m) (hn : n.OmitsSelf x) : m.OmitsSelf x :=
  fun hself => h.without (hn (hself.trans h.me))

theorem owes (h : n.LeavesOut x m) (hn : n.Owes x) : m.Owes x :=
  ⟨h.omitsSelf hn.own, hn.owed.imp h.failures h.without⟩

end LeavesOut

/-- Nobody is listed by a split but the candidate, and not the node itself either. -/
theorem OmitsSelf.split (h : n.OmitsSelf x) (moved : List NodeId) (candidate : NodeId)
    (alone : Bool) : (n.mapRing (splitRing · moved candidate alone)).OmitsSelf x := by
  obtain ⟨t, u, hsplit, ht, -⟩ := Ring.splitRing_shape n.ring moved candidate alone
  show x = (splitRing n.ring moved candidate alone).me →
    x ∉ (splitRing n.ring moved candidate alone).superpeers
  rw [hsplit]
  intro hself hlisted
  rcases (ht x).mp hlisted with hlisted | ⟨-, hadmits⟩
  · exact h hself hlisted
  · exact (Ring.admits_iff.mp hadmits).1 hself

theorem Without.split {moved : List NodeId} {candidate : NodeId} {alone : Bool} (h : n.Without x)
    (hne : candidate ≠ x) : (n.mapRing (splitRing · moved candidate alone)).Without x := by
  obtain ⟨t, u, hsplit, ht, -⟩ := Ring.splitRing_shape n.ring moved candidate alone
  show x ∉ (splitRing n.ring moved candidate alone).superpeers
  rw [hsplit]
  intro hlisted
  rcases (ht x).mp hlisted with hlisted | ⟨hnew, -⟩
  · exact h hlisted
  · exact hne hnew.symm

theorem OmitsSelf.insertSuperpeer (h : n.OmitsSelf x) (id : NodeId) :
    (n.mapRing (·.insertSuperpeer id)).OmitsSelf x := by
  obtain ⟨t, ht, hmem⟩ := Ring.insertSuperpeer_eq n.ring id
  show x = (n.ring.insertSuperpeer id).me → x ∉ (n.ring.insertSuperpeer id).superpeers
  rw [ht]
  intro hself hlisted
  rcases (hmem x).mp hlisted with hlisted | ⟨-, hadmits⟩
  · exact h hself hlisted
  · exact (Ring.admits_iff.mp hadmits).1 hself

end Node

/-! ## Runs in which nobody promotes the superpeer -/

/-- Anything but that the node accepts its promotion. -/
def Unpromoted (x : NodeId) (r : Request) (answer : r.Answer) : Prop :=
  ∀ snapshot replacement, Occurrence.asked r answer ≠
    .asked (.call x (.promotePeer snapshot replacement)) (.ok (.promotionResult true))

theorem unpromoted_of_mem (h : ¬ PromotedIn log x) {r : Request} {answer : r.Answer}
    (hmem : .asked r answer ∈ log) : Unpromoted x r answer :=
  fun snapshot replacement heq => h ⟨snapshot, replacement, heq ▸ hmem⟩

theorem ne_of_unpromoted {candidate : NodeId} (h : ∃ snapshot replacement, Unpromoted x
    (.call candidate (.promotePeer snapshot replacement)) (.ok (.promotionResult true))) :
    candidate ≠ x := by
  obtain ⟨snapshot, replacement, hother⟩ := h
  rintro rfl
  exact hother snapshot replacement rfl

namespace Protocol

variable {α : Type} {t : Task α} {a : α} {P : Node → Prop} {first rest : List Occurrence}

/-- What a task without routines keeps, if others that leave the superpeer out keep it. -/
theorem keeps_leavingOut (ht : t.Within Request.IsErrand (Unpromoted x) (fun _ => False) P)
    (hmay : ∀ n m, n.LeavesOut x m → P n → P m) (hn : P n)
    (h : (t n).Interleaves (Node.LeavesOut x) log a n') (hnot : ¬ PromotedIn log x) : P n' :=
  (h.within (ht n hn) hmay (fun _ hr => hr.elim) fun _ _ => unpromoted_of_mem hnot).1

theorem split_without (n : Node) (candidate : NodeId) (moved : List NodeId) (alone : Bool)
    (hother : ∃ snapshot replacement, Unpromoted x
      (.call candidate (.promotePeer snapshot replacement)) (.ok (.promotionResult true)))
    (hn : n.Without x) : (n.mapRing (Node.splitRing · moved candidate alone)).Without x :=
  hn.split (ne_of_unpromoted hother)

theorem split_owes (n : Node) (candidate : NodeId) (moved : List NodeId) (alone : Bool)
    (hother : ∃ snapshot replacement, Unpromoted x
      (.call candidate (.promotePeer snapshot replacement)) (.ok (.promotionResult true)))
    (hn : n.Owes x) : (n.mapRing (Node.splitRing · moved candidate alone)).Owes x :=
  ⟨hn.own.split moved candidate alone, hn.owed.imp_right (·.split (ne_of_unpromoted hother))⟩

theorem onward_without (n m : Node) (h : n.Onward m) (hn : n.Without x) : m.Without x :=
  h.leavesOut.without hn

theorem onward_owes (n m : Node) (h : n.Onward m) (hn : n.Owes x) : m.Owes x :=
  h.leavesOut.owes hn

theorem onward_omitsSelf (n m : Node) (h : n.Onward m) (hn : n.OmitsSelf x) : m.OmitsSelf x :=
  h.leavesOut.omitsSelf hn

/-! ## The failure itself -/

theorem without_of_superpeerFailed
    (h : (superpeerFailed x n).Interleaves (Node.LeavesOut x) log () n')
    (hnot : ¬ PromotedIn log x) : n'.Without x := by
  obtain ⟨⟨⟩, k, first, rest, rfl, -, hrest⟩ := Task.interleaves_bind.mp h
  have hrest' : ¬ PromotedIn rest x := fun hp => hnot (hp.mono fun y hy => by simp [hy])
  -- Whether or not peers were taken over, the rest is the same.
  have hlose (k' : Node) (hrest : ((do
      restoreCopies x
      Task.modifyRing (·.removeSuperpeer x)
      if k.ring.predecessor = some x then promoteOnePeer x
      Task.ask (.reportFailure x true) : Task Unit) k').Interleaves (Node.LeavesOut x) rest () n') :
      n'.Without x := by
    obtain ⟨⟨⟩, m, copies, last, rfl, -, hlast⟩ := Task.interleaves_bind.mp hrest
    have hdropped : (m.mapRing (·.removeSuperpeer x)).Without x := fun hlisted =>
      (((Ring.removeSuperpeer_shape m.ring x).1 x).mp hlisted).2 rfl
    have hreport : Task.Within Request.IsErrand (Unpromoted x) (fun _ => False) (Node.Without x) (do
        if k.ring.predecessor = some x then promoteOnePeer x
        Task.ask (.reportFailure x true)) := by
      split
      · exact (within_promoteOnePeer onward_without split_without x).bind fun _ => .ask trivial
      · exact .ask trivial
    exact keeps_leavingOut hreport (fun n m h => h.without) hdropped hlast
      fun hp => hrest' (hp.mono fun y hy => by simp [hy])
  change ((if k.ring.predecessor = some x then _ else _ : Task Unit) k).Interleaves _ _ _ _ at hrest
  by_cases hpredecessor : k.ring.predecessor = some x
  · rw [if_pos hpredecessor] at hrest
    exact hlose _ hrest
  · rw [if_neg hpredecessor] at hrest
    exact hlose _ hrest

theorem without_of_handleFailure (hn : n.OmitsSelf x)
    (h : (handleFailure x n).Interleaves (Node.LeavesOut x) log () n')
    (hnot : ¬ PromotedIn log x) : n'.Without x := by
  by_cases hlisted : x ∈ n.ring.superpeers
  case neg =>
    exact keeps_leavingOut (within_handleFailure onward_without split_without x)
      (fun n m h => h.without) hlisted h hnot
  case pos =>
    have hne : x ≠ n.me := fun hself => hn hself hlisted
    have hcontains : n.ring.superpeers.contains x = true := decide_eq_true hlisted
    change ((if x = n.me then _ else if n.ring.superpeers.contains x then
      (if n.isSuperpeer then _ else _) else _ : Task Unit) n).Interleaves _ _ _ _ at h
    rw [if_neg hne, if_pos hcontains] at h
    split at h
    case isTrue => exact without_of_superpeerFailed h hnot
    case isFalse =>
      obtain ⟨rfl, -, rfl⟩ := Progress.interleaves_done.mp h
      intro hlisted
      obtain ⟨bootstrap, hring⟩ := n.ring_loseSuperpeer x
      rw [hring] at hlisted
      exact (((Ring.removeSuperpeer_shape _ x).1 x).mp hlisted).2 rfl

/-! ## All failures -/

/-- When the queue is drained nothing is owed any more. The induction is on the length of the
record, which is that of the first round and of the others. -/
theorem without_of_drainQueue (hn : n.Owes x)
    (h : (drainQueue n).Interleaves (Node.LeavesOut x) log () n') (hnot : ¬ PromotedIn log x) :
    n'.Without x := by
  induction hlength : log.length using Nat.strong_induction_on generalizing n log with
  | h length ih =>
    cases hqueue : n.failures with
    | nil =>
      rw [drainQueue_of_nil hqueue] at h
      obtain ⟨-, -, rfl⟩ := Progress.interleaves_done.mp h
      refine hn.owed.resolve_left ?_
      rw [hqueue]
      exact List.not_mem_nil
    | cons failed rest =>
      rw [drainQueue_of_cons hqueue] at h
      obtain ⟨⟨⟩, m, first, rounds, rfl, hhandle, hroutine⟩ := Task.interleaves_bind.mp h
      obtain ⟨k, ⟨⟩, m', inner, last, rfl, hmay, hrounds, hdone⟩ :=
        Progress.interleaves_enter.mp hroutine
      obtain ⟨rfl, -, rfl⟩ := Progress.interleaves_done.mp hdone
      have hfirst : ¬ PromotedIn first x := fun hp => hnot (hp.mono fun y hy => by simp [hy])
      have hm : m.Owes x := by
        by_cases hfailed : failed = x
        · subst hfailed
          exact (without_of_handleFailure (n := { n with failures := rest }) hn.own hhandle
            hfirst).owes
        · have howed : Node.Owes x { n with failures := rest } := by
            refine ⟨hn.own, hn.owed.imp_left fun hmem => ?_⟩
            rw [hqueue] at hmem
            exact (List.mem_cons.mp hmem).resolve_left (Ne.symm hfailed)
          exact keeps_leavingOut (within_handleFailure onward_owes split_owes failed)
            (fun n m h => h.owes) howed hhandle hfirst
      refine ih _ ?_ (hmay.owes hm) hrounds (fun hp => hnot (hp.mono fun y hy => by simp [hy])) rfl
      rw [← hlength]
      simp only [List.length_append, List.length_cons, List.length_nil]
      omega

/-- Who has drained the queue leaves it to others again. -/
theorem without_of_processFailures (hfree : n.draining = false)
    (h : (processFailures n).Interleaves (Node.LeavesOut x) log () n') :
    n'.draining = false ∧ (n.Owes x → ¬ PromotedIn log x → n'.Without x) := by
  induction hlength : log.length using Nat.strong_induction_on generalizing n log with
  | h length ih =>
    rw [processFailures_of_free hfree] at h
    obtain ⟨k, ⟨⟩, m, inner, last, rfl, hmay, hdrain, hrest⟩ := Progress.interleaves_enter.mp h
    have hdrained (hn : n.Owes x) (hnot : ¬ PromotedIn inner x) : m.Without x :=
      without_of_drainQueue (hmay.owes ⟨hn.own, hn.owed⟩) hdrain hnot
    split at hrest
    case isTrue =>
      obtain ⟨rfl, -, rfl⟩ := Task.interleaves_pure.mp hrest
      refine ⟨rfl, fun hn hnot => ?_⟩
      exact hdrained hn fun hp => hnot (hp.mono fun y hy => by simp [hy])
    case isFalse =>
      obtain ⟨k', ⟨⟩, m', again, done, rfl, hmay', hagain, hdone⟩ :=
        Progress.interleaves_enter.mp hrest
      obtain ⟨rfl, -, rfl⟩ := Progress.interleaves_done.mp hdone
      have hless : again.length < length := by
        rw [← hlength]
        simp only [List.length_append, List.length_cons, List.length_nil]
        omega
      obtain ⟨hend, hwithout⟩ := ih _ hless hmay'.draining hagain rfl
      refine ⟨hend, fun hn hnot => hwithout ?_ fun hp => hnot (hp.mono fun y hy => by simp [hy])⟩
      have hm : m.Without x := hdrained hn fun hp => hnot (hp.mono fun y hy => by simp [hy])
      exact hmay'.owes ⟨fun _ => hm, .inr hm⟩

/-- Who handles a failure does not list the failed superpeer any more, unless it was promoted. -/
theorem without_of_failureHandling (hfree : n.draining = false)
    (h : (Task.failureHandling failed n).Interleaves (Node.LeavesOut x) log () n') :
    n'.draining = false ∧
      (n.OmitsSelf x → (x = failed ∨ n.Without x) → ¬ PromotedIn log x → n'.Without x) := by
  obtain ⟨k, ⟨⟩, m, inner, last, rfl, hmay, hprocess, hdone⟩ := Progress.interleaves_enter.mp h
  obtain ⟨rfl, -, rfl⟩ := Progress.interleaves_done.mp hdone
  have henqueue := Node.Onward.enqueue n failed
  obtain ⟨hend, hwithout⟩ :=
    without_of_processFailures ((hmay.draining.trans henqueue.draining).trans hfree) hprocess
  refine ⟨hend, fun hown hcase hnot => hwithout (hmay.owes ?_)
    fun hp => hnot (hp.mono fun y hy => by simp [hy])⟩
  refine ⟨onward_omitsSelf _ _ henqueue hown, hcase.imp ?_ fun hunlisted hlisted => ?_⟩
  · rintro rfl
    exact Node.mem_failures_enqueue.mpr (.inr rfl)
  · exact hunlisted (henqueue.superpeers x hlisted)

end Protocol

end ChunkDirectory
