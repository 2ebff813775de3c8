import ChunkDirectory.Proofs.Overlay.Direct
import ChunkDirectory.Proofs.Overlay.Quiet
import ChunkDirectory.Proofs.Protocol.Lookup

/-!
# Requests in a settled overlay

A request goes to the owner of its key at the first attempt. A definite answer ends it
(`leads_request_answered`). The owner of a key without a tree refuses every attempt alike, so that
the request is repeated until the policy gives up, with a pause before each attempt but the first
(`leads_request_exhausted`).
-/

namespace ChunkDirectory

/-- Whether an answer ends a repeated request. The other answers say that the sender should look for
the owner again. -/
def Message.isDefinite : Message → Bool
  | .status .notResponsible => false
  | .status .uninitialized => false
  | .status .notSuperpeer => false
  | _ => true

/-- How often a request is made that is refused every time. The first attempt is always made. -/
def RetryPolicy.tries (policy : RetryPolicy) : Nat := max (policy.maxAttempts.getD 0) 1

/-- How long a request that is refused every time takes, in nanoseconds. -/
def RetryPolicy.patience (policy : RetryPolicy) : Nat := (policy.tries - 1) * policy.interval.nanos

/-- A bounded policy allows another attempt as long as its tries are not used up. -/
theorem RetryPolicy.allows_iff {policy : RetryPolicy} {limit attempts : Nat}
    (hlimit : policy.maxAttempts = some limit) (hattempts : 0 < attempts) :
    policy.allows attempts = true ↔ attempts < policy.tries := by
  rw [allows, tries, hlimit, Option.getD_some, decide_eq_true_iff]
  omega

namespace Overlay

open Protocol

variable {ρ : Type} {o o₁ o₂ : Overlay ρ} {id target key : NodeId} {n n₁ n₂ : Node} {q : Inquiry}
  {message reply : Message} {operation : Operation}

/-- An attempt that gets a definite answer. -/
theorem Direct.leads_inquireOnce_answered (h : o₁.Direct)
    (hresolve : Leads o id (resolve q.key q.verify) (some target) o₁) (hn₁ : o₁.node? id = some n₁)
    (hreply : Leads o₁ target (handleMessage id q.message) reply o₂)
    (hdefinite : reply.isDefinite = true) (hn₂ : o₂.node? id = some n₂) :
    Leads o id (inquireOnce q) (.ok reply) o₂ := by
  have hcall := h.leads_call hn₁ hreply hn₂
  unfold inquireOnce
  refine hresolve.bind ?_
  unfold inquireAt
  refine hcall.bind ?_
  cases reply with
  | status status =>
    cases status with
    | notResponsible => cases hdefinite
    | uninitialized => cases hdefinite
    | notSuperpeer => cases hdefinite
    | _ => exact Leads.pure hn₂
  | _ => exact Leads.pure hn₂

/-- A request that is answered definitely is answered so at the first attempt. -/
theorem Direct.leads_request_answered (h : o₁.Direct) (hn : o.node? id = some n)
    (hresolve : Leads o id (resolve key (!n.isStable)) (some target) o₁)
    (hn₁ : o₁.node? id = some n₁) (hreply : Leads o₁ target (handleMessage id message) reply o₂)
    (hdefinite : reply.isDefinite = true) (hn₂ : o₂.node? id = some n₂) :
    Leads o id (requestResponsible operation key message) (.ok reply) o₂ := by
  have honce : Leads o id
      (inquire { operation, key, message, verify := !n.isStable, attempts := 0 })
      (.ok reply) o₂ := by
    unfold inquire
    exact h.leads_inquireOnce_answered hresolve hn₁ hreply hdefinite hn₂
  unfold requestResponsible
  exact Leads.node_bind hn (Leads.routine (r := .inquire _) honce hn₂)

end Overlay

namespace Overlay.Settled

open Protocol

variable {ρ : Type} {s : NodeSet} {o o₁ : Overlay ρ} {id owner key : NodeId} {n n₁ : Node}
  {q : Inquiry} {message reply : Message} {operation : Operation}

/-- An attempt that is refused is followed by the next one. -/
theorem leads_inquireOnce_refused {r : Except LookupError Message} (h : o.Settled s)
    (hn : o.node? id = some n) (hown : s.Owns q.key owner)
    (hreply : Leads o owner (handleMessage id q.message) (.status .uninitialized) o)
    (hrest : Leads o id (inquire { q with verify := true, attempts := q.attempts + 1 }) r o₁)
    (hn₁ : o₁.node? id = some n₁) : Leads o id (inquireOnce q) r o₁ := by
  have hcall := Leads.call h.toCalm hn hreply hn
  unfold inquireOnce
  refine (h.leads_resolve hn hown q.verify).bind ?_
  unfold inquireAt
  refine hcall.bind ?_
  exact Leads.routine (r := .inquire _) hrest hn₁

/-- The attempts after the first, all refused, until the policy gives up. -/
theorem leads_inquire_exhausted {limit : Nat} (h : o.Settled s) (hn : o.node? id = some n)
    (hown : s.Owns q.key owner) (hlimit : n.config.retry.maxAttempts = some limit)
    (hreply : ∀ t, Leads (o.later t) owner (handleMessage id q.message) (.status .uninitialized)
      (o.later t))
    (hattempts : 0 < q.attempts) (hle : q.attempts ≤ n.config.retry.tries)
    (hquiet : o.QuietUntil
      (o.clock + (n.config.retry.tries - q.attempts) * n.config.retry.interval.nanos)) :
    Leads o id (inquire q) (.error (.retriesExhausted q.operation n.config.retry.tries))
      (o.later ((n.config.retry.tries - q.attempts) * n.config.retry.interval.nanos)) := by
  induction hleft : n.config.retry.tries - q.attempts generalizing o q with
  | zero =>
    have hfirst : q.attempts ≠ 0 := Nat.ne_of_gt hattempts
    have hlast : q.attempts = n.config.retry.tries := by omega
    have hrefuses : n.config.retry.allows q.attempts = false := by
      rw [← Bool.not_eq_true, RetryPolicy.allows_iff hlimit hattempts]
      omega
    unfold inquire
    rw [if_neg hfirst]
    apply Leads.node_bind hn
    rw [hrefuses, Nat.zero_mul, later_zero, hlast]
    exact Leads.pure hn
  | succ left ih =>
    have hfirst : q.attempts ≠ 0 := Nat.ne_of_gt hattempts
    have hmore : n.config.retry.allows q.attempts = true :=
      (RetryPolicy.allows_iff hlimit hattempts).mpr (by omega)
    let pause := n.config.retry.interval.nanos
    let q' : Inquiry := { q with verify := true, attempts := q.attempts + 1 }
    have htime : (left + 1) * pause = pause + left * pause := by
      rw [Nat.succ_mul, Nat.add_comm]
    rw [hleft, htime] at hquiet
    have hpause := Does.pause h.toCalm hn
      (hquiet.mono (Nat.add_le_add_left (Nat.le_add_right pause _) o.clock))
    have hreply' : ∀ t, Leads ((o.later pause).later t) owner (handleMessage id q'.message)
        (.status .uninitialized) ((o.later pause).later t) := by
      intro t
      rw [later_later]
      exact hreply _
    have hleft' : n.config.retry.tries - (q.attempts + 1) = left := by omega
    have hquiet' : (o.later pause).QuietUntil
        ((o.later pause).clock + (n.config.retry.tries - (q.attempts + 1)) * pause) := by
      rw [hleft', clock_later, Nat.add_assoc]
      exact hquiet.later pause
    have hle' : q.attempts + 1 ≤ n.config.retry.tries := by omega
    have hrest := ih (q := q') (h.later pause) hn hown hreply' (Nat.succ_pos _) hle' hquiet' hleft'
    rw [later_later, ← htime] at hrest
    unfold inquire
    rw [if_neg hfirst]
    apply Leads.node_bind hn
    rw [hmore]
    refine (Leads.of_does hpause).bind ?_
    exact (h.later pause).leads_inquireOnce_refused hn hown (hreply pause) hrest hn

/-- A request that its owner answers definitely is answered so at the first attempt. -/
theorem leads_request_answered (h : o.Settled s) (hn : o.node? id = some n)
    (hown : s.Owns key owner) (hreply : Leads o owner (handleMessage id message) reply o₁)
    (hdefinite : reply.isDefinite = true) (hn₁ : o₁.node? id = some n₁) :
    Leads o id (requestResponsible operation key message) (.ok reply) o₁ :=
  h.toCalm.direct.leads_request_answered hn (h.leads_resolve hn hown _) hn hreply hdefinite hn₁

/-- A request that is refused every time ends with the retries exhausted. -/
theorem leads_request_exhausted {limit : Nat} (h : o.Settled s) (hn : o.node? id = some n)
    (hown : s.Owns key owner) (hlimit : n.config.retry.maxAttempts = some limit)
    (hreply : ∀ t, Leads (o.later t) owner (handleMessage id message) (.status .uninitialized)
      (o.later t))
    (hquiet : o.QuietUntil (o.clock + n.config.retry.patience)) :
    Leads o id (requestResponsible operation key message)
      (.error (.retriesExhausted operation n.config.retry.tries))
      (o.later n.config.retry.patience) := by
  have hrest := h.leads_inquire_exhausted
    (q := { operation, key, message, verify := true, attempts := 1 })
    hn hown hlimit hreply Nat.one_pos (Nat.le_max_right _ _) hquiet
  have hone : Leads o id
      (inquire { operation, key, message, verify := !n.isStable, attempts := 0 })
      (.error (.retriesExhausted operation n.config.retry.tries))
      (o.later n.config.retry.patience) := by
    unfold inquire
    exact h.leads_inquireOnce_refused hn hown (hreply 0) hrest hn
  unfold requestResponsible
  exact Leads.node_bind hn (Leads.routine (r := .inquire _) hone hn)

/-- A mutation that its owner accepts is applied by the owner and by those it sends copies to. -/
theorem leads_requestMutation_of_applied {m : Mutation} {no : Node} (operation : Operation)
    (h : o.Settled s) (hn : o.node? id = some n) (hm : m.Requestable) (hown : s.Owns m.key owner)
    (hno : o.node? owner = some no) (happlied : m.outcome (o.read owner (.tree m.key)) = .applied) :
    Leads o id (requestMutation operation m) (.ok ())
      (o.mutateEach m (owner :: no.ring.backups owner)) := by
  have hmutate := h.does_mutate_applied hno hown hm happlied
  obtain ⟨no₁, hno₁, -⟩ := h.sameViews_mutateEach.exists_node? hno
  obtain ⟨n₁, hn₁, -⟩ := h.sameViews_mutateEach.exists_node? hn
  have hreply : Leads o owner (handleMessage id (m.message false)) (.status .applied) _ :=
    Leads.of_does (hmutate.handle_mutation (hm false) hno₁)
  unfold requestMutation
  refine (h.leads_request_answered hn hown hreply rfl hn₁).bind ?_
  exact Leads.pure hn₁

end Overlay.Settled

end ChunkDirectory
