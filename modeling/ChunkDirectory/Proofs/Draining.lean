import ChunkDirectory.Proofs.Protocol.Failing

/-!
# Draining failures

Failures that are found while failures are handled are queued behind them. Each round of
`Protocol.drainQueue` takes one off and repairs the view of the ring, so that it gets lighter, or
leaves everything else as it is (`Node.Ahead`). That is why the draining ends, whatever other nodes
and the storage answer (`Protocol.terminates_drainQueue`).

When it ends, the queue is empty, and a superpeer that failed is listed only if it was promoted after
its failure was handled (`Protocol.Drained`, `Protocol.processFailures_drains`).
-/

namespace ChunkDirectory

open Protocol

namespace Node

/-- The view of the ring is lighter, or it is the same and fewer failures are queued. -/
def Ahead (n' n : Node) : Prop :=
  n'.ring.Lighter n.ring ∨ n'.ring = n.ring ∧ n'.failures.length < n.failures.length

/-- Nobody gets ahead forever. -/
theorem wellFounded_ahead : WellFounded Ahead := by
  let toDo (n : Node) : Nat × Nat × Nat :=
    (n.ring.superpeers.size, n.ring.burden, n.failures.length)
  have hlex : WellFounded (Prod.Lex (· < · : Nat → Nat → Prop)
      (Prod.Lex (· < · : Nat → Nat → Prop) (· < · : Nat → Nat → Prop))) :=
    (Prod.lex Nat.lt_wfRel (Prod.lex Nat.lt_wfRel Nat.lt_wfRel)).wf
  refine Subrelation.wf (fun {n' n} h => ?_) (InvImage.wf toDo hlex)
  show Prod.Lex _ _ (toDo n') (toDo n)
  rw [Prod.lex_def, Prod.lex_def]
  rcases h with (hsize | ⟨hsize, hburden⟩) | ⟨hring, hqueue⟩
  · exact .inl hsize
  · exact .inr ⟨hsize, .inl hburden⟩
  · have hsame : n'.ring.superpeers.size = n.ring.superpeers.size ∧
        n'.ring.burden = n.ring.burden := by rw [hring]; exact ⟨rfl, rfl⟩
    exact .inr ⟨hsame.1, .inr ⟨hsame.2, hqueue⟩⟩

end Node

namespace Protocol

variable {n n' m : Node} {log first : List Occurrence} {failed x : NodeId} {rest : List NodeId}

/-! ## One round -/

theorem drainQueue_of_nil (h : n.failures = []) : drainQueue n = .done () n := by
  simp only [drainQueue, bind, Task.node, Progress.bind, h]
  rfl

theorem drainQueue_of_cons (h : n.failures = failed :: rest) :
    drainQueue n = (handleFailure failed >>= fun _ => Task.routine .drainQueue)
      { n with failures := rest } := by
  simp only [drainQueue, bind, Task.node, Progress.bind, h]
  rfl

/-- Who handles a failure is then ahead of where it was. -/
theorem ahead_of_handleFailure (h : n.failures = failed :: rest)
    (hhandle : (handleFailure failed { n with failures := rest }).Follows log () m) :
    m.Ahead n := by
  rcases repaired_of_handleFailure hhandle with ⟨rfl, -⟩ | hrepaired
  · refine .inr ⟨rfl, ?_⟩
    rw [h]
    exact Nat.lt_succ_self _
  · exact .inl hrepaired.lighter

/-! ## All rounds -/

/-- The draining ends whatever is answered on the way. -/
theorem terminates_drainQueue (n : Node) : (drainQueue n).Terminates := by
  induction n using Node.wellFounded_ahead.induction with
  | h n ih =>
    cases hqueue : n.failures with
    | nil =>
      rw [drainQueue_of_nil hqueue]
      exact .done
    | cons failed rest =>
      rw [drainQueue_of_cons hqueue]
      refine ((keeps_handleFailure failed).terminates (.refl _)).bind fun _ m hm => ?_
      obtain ⟨log, hlog⟩ := Progress.yields_iff.mp hm
      exact .enter (ih m (ahead_of_handleFailure hqueue hlog)) fun _ _ _ => .done

/-- What draining in state `n` comes to: no failure is queued any more, superpeers are only added by
promotions, and a superpeer whose failure was handled in some round is listed only if it was promoted
after that. -/
structure Drained (n n' : Node) (log : List Occurrence) : Prop where
  empty : n'.failures = []
  listed : ∀ x ∈ n'.ring.superpeers, x ∈ n.ring.superpeers ∨ PromotedIn log x
  handled : ∀ before m after x, log = before ++ .entered .drainQueue m :: after →
    m.failures.head? = some x → x ∈ m.ring.superpeers → x ≠ m.me →
    x ∈ n'.ring.superpeers → PromotedIn after x

theorem drained_of_nil (h : n.failures = []) : Drained n n [.entered .drainQueue n] := by
  refine ⟨h, fun x hx => .inl hx, fun before m after x hlog hhead => ?_⟩
  cases before with
  | nil =>
    obtain ⟨heq, -⟩ := List.cons.inj hlog
    cases heq
    rw [h] at hhead
    cases hhead
  | cons e before => exact absurd (List.cons.inj hlog).2 (by simp)

/-- Superpeers that are listed after a round were promoted in it, or were listed before and are not
the one whose failure was handled. -/
theorem listed_of_handleFailure
    (hhandle : (handleFailure failed { n with failures := rest }).Follows log () m)
    (hx : x ∈ m.ring.superpeers) : PromotedIn log x ∨
      x ∈ n.ring.superpeers ∧ (failed ∈ n.ring.superpeers → failed ≠ n.me → x ≠ failed) := by
  rcases repaired_of_handleFailure hhandle with ⟨rfl, hme⟩ | hrepaired
  · exact .inr ⟨hx, fun hlisted hne => absurd (hme hlisted) hne⟩
  · exact (hrepaired.listed hx).imp_right fun ⟨hlisted, hother⟩ =>
      ⟨hlisted, fun hfailed _ => hother hfailed⟩

/-- One more round before the others. -/
theorem Drained.round (hqueue : n.failures = failed :: rest)
    (hhandle : (handleFailure failed { n with failures := rest }).Follows first () m)
    (h : Drained m n' (.entered .drainQueue m :: log)) :
    Drained n n' (.entered .drainQueue n :: (first ++ .entered .drainQueue m :: log)) := by
  have hfirst : ∀ r m, .entered r m ∉ first :=
    (keeps_handleFailure failed).not_entered (.refl _) hhandle
  refine ⟨h.empty, fun x hx => ?_, fun before m' after x hlog hhead hlisted hne hx => ?_⟩
  · rcases h.listed x hx with hx | hpromoted
    · rcases listed_of_handleFailure hhandle hx with hpromoted | ⟨hlisted, -⟩
      · exact .inr (hpromoted.mono fun y hy => by simp [hy])
      · exact .inl hlisted
    · exact .inr (hpromoted.mono fun y hy => List.mem_cons_of_mem _ (List.mem_append_right _ hy))
  · cases before with
    | nil =>
      -- The round in question is this one.
      obtain ⟨heq, rfl⟩ := List.cons.inj hlog
      cases heq
      rw [hqueue] at hhead
      cases hhead
      rcases h.listed failed hx with hx | hpromoted
      · rcases listed_of_handleFailure hhandle hx with hpromoted | ⟨-, hother⟩
        · exact hpromoted.mono fun y hy => List.mem_append_left _ hy
        · exact absurd rfl (hother hlisted hne)
      · exact hpromoted.mono fun y hy => List.mem_append_right _ hy
    | cons e before =>
      obtain ⟨before', hrest⟩ := Occurrence.exists_rest hfirst (List.cons.inj hlog).2
      exact h.handled before' m' after x hrest hhead hlisted hne hx

theorem drained_of_drainQueue (h : (drainQueue n).Follows log () n') :
    Drained n n' (.entered .drainQueue n :: log) := by
  induction n using Node.wellFounded_ahead.induction generalizing log with
  | h n ih =>
    cases hqueue : n.failures with
    | nil =>
      rw [drainQueue_of_nil hqueue] at h
      obtain ⟨rfl, -, rfl⟩ := Progress.follows_done.mp h
      exact drained_of_nil hqueue
    | cons failed rest =>
      rw [drainQueue_of_cons hqueue] at h
      obtain ⟨⟨⟩, m, first, rounds, rfl, hhandle, hroutine⟩ := Task.follows_bind.mp h
      obtain ⟨⟨⟩, m', inner, last, rfl, hrest, hdone⟩ := Progress.follows_enter.mp hroutine
      obtain ⟨rfl, -, rfl⟩ := Progress.follows_done.mp hdone
      have hdrained := ih m (ahead_of_handleFailure hqueue hhandle) hrest
      rw [List.append_nil]
      exact hdrained.round hqueue hhandle

/-! ## Processing failures -/

theorem processFailures_of_busy (h : n.draining = true) : processFailures n = .done () n := by
  show ((if n.draining then _ else _ : Task Unit) n) = _
  rw [h]
  rfl

/-- The queue is drained by one task at a time, and once more if failures are queued after that. -/
theorem processFailures_of_free (h : n.draining = false) :
    processFailures n = .enter { n with draining := true } .drainQueue fun _ m =>
      (if m.failures.isEmpty then pure () else Task.routine .processFailures : Task Unit)
        { m with draining := false } := by
  show ((if n.draining then _ else _ : Task Unit) n) = _
  rw [h]
  rfl

/-- To handle queued failures comes to an end, whatever other nodes and the storage answer. Unless
another task does it already, no failure is queued then, and each superpeer that failed in a round is
listed only if it was promoted after that round began. -/
theorem processFailures_drains (n : Node) :
    (processFailures n).Terminates ∧
      ∀ log n', (processFailures n).Follows log () n' →
        (n.draining = true → n' = n) ∧
        (n.draining = false → n'.failures = [] ∧
          ∀ before m after x, log = before ++ .entered .drainQueue m :: after →
            m.failures.head? = some x → x ∈ m.ring.superpeers → x ≠ m.me →
            x ∈ n'.ring.superpeers → PromotedIn after x) := by
  cases hfree : n.draining with
  | true =>
    rw [processFailures_of_busy hfree]
    refine ⟨.done, fun log n' h => ⟨fun _ => (Progress.follows_done.mp h).2.2, fun hbusy => ?_⟩⟩
    cases hbusy
  | false =>
    rw [processFailures_of_free hfree]
    constructor
    · refine .enter (terminates_drainQueue _) fun _ m hm => ?_
      obtain ⟨log, hlog⟩ := Progress.yields_iff.mp hm
      rw [(drained_of_drainQueue hlog).empty]
      exact .done
    · intro log n' h
      obtain ⟨⟨⟩, m, inner, last, rfl, hdrain, hrest⟩ := Progress.follows_enter.mp h
      have hdrained := drained_of_drainQueue hdrain
      rw [hdrained.empty] at hrest
      obtain ⟨rfl, -, rfl⟩ := Progress.follows_done.mp hrest
      rw [List.append_nil]
      exact ⟨(fun hbusy => by cases hbusy), fun _ => ⟨rfl, hdrained.handled⟩⟩

/-- A superpeer of the small ring with two peers, which has queued the other superpeer. -/
def ownerOfTwo : Node :=
  { (Node.complete Overlay.smallRing (Overlay.twoAttempts ⟨1000⟩ .superpeer)).mapRing
      (·.insertPeers [⟨500⟩, ⟨700⟩]) with failures := [⟨0⟩] }

/-- The other superpeer precedes it, so one of the peers is promoted in its place. -/
theorem processFailures_drains_ofTwo :
    ∃ after n', ownerOfTwo.draining = false ∧
      (processFailures ownerOfTwo).Follows
        (.entered .drainQueue { ownerOfTwo with draining := true } :: after) () n' ∧
      n'.failures = [] ∧ n'.ring.superpeers = .ofList [⟨500⟩] ∧
      ((⟨0⟩ : NodeId) ∈ n'.ring.superpeers → PromotedIn after ⟨0⟩) := by
  obtain ⟨log, m, hround, hempty, hlisted⟩ : ∃ log m,
      (handleFailure ⟨0⟩ { ownerOfTwo with failures := [], draining := true }).Follows log () m ∧
        m.failures = [] ∧ m.ring.superpeers = .ofList [⟨500⟩] := by
    refine ⟨[.asked .draw (0 : Nat),
      .asked (.call ⟨500⟩ (.promotePeer _ ⟨700⟩)) (.ok (.promotionResult true)),
      .asked (.reportFailure ⟨0⟩ true) ()], _, .wait _ (.wait _ (.wait _ .done)), ?_, ?_⟩ <;> rfl
  have hlast : (Routine.drainQueue.task m).Follows [] () m := by
    show (drainQueue m).Follows _ _ _
    rw [drainQueue_of_nil hempty]
    exact .done
  have hdrain : (drainQueue { ownerOfTwo with draining := true }).Follows
      (log ++ [.entered .drainQueue m]) () m := by
    rw [drainQueue_of_cons rfl]
    exact Task.follows_bind.mpr ⟨(), m, log, _, rfl, hround, .enter hlast .done⟩
  have hrun : (processFailures ownerOfTwo).Follows (.entered .drainQueue
      { ownerOfTwo with draining := true } :: (log ++ [.entered .drainQueue m] ++ [])) ()
      { m with draining := false } := by
    rw [processFailures_of_free rfl]
    refine .enter hdrain ?_
    rw [hempty]
    exact .done
  obtain ⟨hqueue, hhandled⟩ := ((processFailures_drains ownerOfTwo).2 _ _ hrun).2 rfl
  exact ⟨_, _, rfl, hrun, hqueue, hlisted, hhandled [] _ _ ⟨0⟩ rfl rfl (by decide) (by decide)⟩

end Protocol

end ChunkDirectory
