import ChunkDirectory.Proofs.Concurrency.Share

/-!
# A newcomer among requests

A newcomer asks superpeers for admission until one admits it, and begins again from time to time.
Until it is admitted it changes nothing (`Progress.Seeks`), and once it has taken its place nothing
is left to do.
-/

namespace ChunkDirectory

namespace Protocol

/-- Joining as an operation of its own. -/
def joining : Task Message := do
  let _ ← joinOverlay
  return .ack

end Protocol

/-- The rest of the task of a newcomer to the ring `s`, begun in state `n`: it asks members of the
ring, and installs what it is given when it is admitted. -/
inductive Progress.Seeks (s : NodeSet) : Node → Progress Message → Prop
  | ended {n : Node} {p : Progress Message} : Replies (fun _ => True) n p → Seeks s n p
  | asks {n n' : Node} {contact : NodeId} {k : Except NetError Message → Node → Progress Message} :
      n'.core = n.core → contact ∈ s →
      (∀ y ∈ s, ∀ next, Seeks s next (k (.ok (.joinRedirect y)) next)) →
      (∀ snapshot next, ∃ k', k (.ok (.joinAccepted snapshot)) next =
        .wait (next.install snapshot) .startWorker k' ∧
          ∀ next', Replies (fun _ => True) next' (k' () next')) →
      Seeks s n (.wait n' (.call contact (.join n'.me true)) k)
  | pauses {n n' : Node} {r : Request} {k : r.Answer → Node → Progress Message} :
      n'.core = n.core → r.isHarmless = true → (∀ x next, Seeks s next (k x next)) →
      Seeks s n (.wait n' r k)
  | enters {n n' : Node} {attempt : JoinAttempt}
      {k : Except LookupError Unit → Node → Progress Message} :
      n'.core = n.core → attempt.bootstrap ∈ s → attempt.isSuperpeer = true →
      (∀ result next, Replies (fun _ => True) next (k result next)) →
      Seeks s n (.enter n' (.join attempt) k)

namespace Protocol

variable {s : NodeSet} {attempt : JoinAttempt} {contact : NodeId}

theorem seeks_askAdmission {rest : JoinStep → Task Message} (hrole : attempt.isSuperpeer = true)
    (hcontact : contact ∈ s) (hredirected : ∀ y ∈ s, ∀ n, (rest (.redirected y) n).Seeks s n)
    (hjoined : ∀ n, Replies (fun _ => True) n (rest (.ended .joined) n)) (n : Node) :
    ((askAdmission attempt contact >>= rest) n).Seeks s n := by
  obtain ⟨bootstrap, isSuperpeer, attempts⟩ := attempt
  subst hrole
  refine .asks rfl hcontact (fun y hy next => hredirected y hy next) fun snapshot next => ?_
  exact ⟨fun _ => rest (.ended .joined), rfl, fun next' => hjoined next'⟩

theorem seeks_followRedirects {rest : JoinOutcome → Task Message}
    (hrole : attempt.isSuperpeer = true) (hcontact : contact ∈ s)
    (hjoined : ∀ n, Replies (fun _ => True) n (rest .joined n))
    (hfailed : ∀ n, (rest .failed n).Seeks s n) (redirects : Nat) (n : Node) :
    ((followRedirects attempt contact redirects >>= rest) n).Seeks s n := by
  induction redirects generalizing contact n with
  | zero =>
    show ((((askAdmission attempt contact) n).bind _).bind rest).Seeks s n
    rw [Progress.bind_bind]
    exact seeks_askAdmission hrole hcontact (fun y _ next => hfailed next) hjoined n
  | succ redirects ih =>
    show ((((askAdmission attempt contact) n).bind _).bind rest).Seeks s n
    rw [Progress.bind_bind]
    refine seeks_askAdmission hrole hcontact (fun y hy next => ?_) hjoined n
    show (((if y = contact then return .failed else followRedirects attempt y redirects :
      Task JoinOutcome) next).bind rest).Seeks s next
    by_cases hsame : y = contact
    · rw [if_pos hsame]
      exact hfailed next
    · rw [if_neg hsame]
      exact ih hy next

theorem seeks_attemptJoin {rest : Except LookupError Unit → Task Message}
    (hrole : attempt.isSuperpeer = true) (hbootstrap : attempt.bootstrap ∈ s)
    (hends : ∀ result n, Replies (fun _ => True) n (rest result n)) (n : Node) :
    ((attemptJoin attempt >>= rest) n).Seeks s n := by
  show ((((followRedirects attempt attempt.bootstrap _) n).bind _).bind rest).Seeks s n
  rw [Progress.bind_bind]
  refine seeks_followRedirects hrole hbootstrap (fun next => hends _ next) (fun next => ?_) _ n
  show (((if n.config.retry.allows (attempt.attempts + 1) then _ else _ :
    Task (Except LookupError Unit)) next).bind rest).Seeks s next
  by_cases hallowed : n.config.retry.allows (attempt.attempts + 1) = true
  · rw [if_pos hallowed]
    refine .pauses rfl rfl fun _ next => ?_
    exact .enters rfl hbootstrap hrole hends
  · rw [if_neg hallowed]
    exact .ended (hends _ next)

/-- A newcomer with a contact in the ring seeks admission. -/
theorem seeks_joining {n : Node} (hrole : n.isSuperpeer = true) (hbootstrap : n.ring.bootstrap ∈ s)
    (hother : n.ring.bootstrap ≠ n.me) : (joining n).Seeks s n := by
  have hjoin : joining n = .enter n
      (.join { bootstrap := n.ring.bootstrap, isSuperpeer := n.isSuperpeer, attempts := 0 })
      fun _ => (return .ack : Task Message) := by
    show ((if n.ring.bootstrap = n.me then _ else _ : Task (Except LookupError Unit)) n).bind _ = _
    rw [if_neg hother]
    rfl
  rw [hjoin]
  exact .enters rfl hbootstrap hrole fun _ next => .done trivial

end Protocol

end ChunkDirectory
