import ChunkDirectory.Proofs.Protocol.Dropped
import ChunkDirectory.Proofs.Protocol.Request

/-!
# Repeated requests

An attempt to get a request answered comes to nothing in three ways: nobody is found who could be
responsible, the one that is asked sends the node on, or it cannot be reached and its failure is
handled (`Protocol.Unsettled`). Each of them leads to the next attempt, and each counts as one; a
definite answer ends the request (`Protocol.Tried`).

So the answers to a request are refusals, as many as there were attempts at most, and then a
definite one, unless the policy gives up (`Protocol.Concluded`). A superpeer that could not be
reached in some attempt is not listed when the next one begins (`Protocol.Heeds`).
-/

namespace ChunkDirectory

/-- What was answered to the message. -/
def Occurrence.answer? (message : Message) : Occurrence → Option (Except NetError Message)
  | .asked (.call _ m) answer => if m = message then some answer else none
  | _ => none

/-- The attempt that follows one that came to nothing. -/
def Inquiry.next (q : Inquiry) : Inquiry := { q with verify := true, attempts := q.attempts + 1 }

namespace Protocol

/-- What was answered to the message in the course of a run, the earliest first. -/
def answersTo (message : Message) (log : List Occurrence) : List (Except NetError Message) :=
  log.filterMap (Occurrence.answer? message)

/-- An answer that ends a repeated request. -/
def Definite : Except NetError Message → Prop
  | .ok reply => reply.isDefinite = true
  | .error _ => False

/-- An attempt that came to nothing. -/
inductive Unsettled (may : Node → Node → Prop) (q : Inquiry) (n : Node) :
    List Occurrence → Node → Prop
  | unresolved {log : List Occurrence} {n' : Node}
      (resolved : (resolve q.key q.verify n).Interleaves may log none n') : Unsettled may q n log n'
  | refused {first : List Occurrence} {target : NodeId} {m n' : Node} {reply : Message}
      (resolved : (resolve q.key q.verify n).Interleaves may first (some target) m)
      (change : may m n') (indefinite : reply.isDefinite = false) :
      Unsettled may q n (first ++ [.asked (.call target q.message) (.ok reply)]) n'
  | failed {first rest : List Occurrence} {target : NodeId} {m k n' : Node} {e : NetError}
      (resolved : (resolve q.key q.verify n).Interleaves may first (some target) m)
      (change : may m k) (handled : (Task.failureHandling target k).Interleaves may rest () n') :
      Unsettled may q n (first ++ .asked (.call target q.message) (.error e) :: rest) n'

/-- An attempt: it is answered, or the next one follows. -/
inductive Tried (may : Node → Node → Prop) (q : Inquiry) (n : Node) :
    List Occurrence → Except LookupError Message → Node → Prop
  | answered {first : List Occurrence} {target : NodeId} {m n' : Node} {reply : Message}
      (resolved : (resolve q.key q.verify n).Interleaves may first (some target) m)
      (change : may m n') (definite : reply.isDefinite = true) :
      Tried may q n (first ++ [.asked (.call target q.message) (.ok reply)]) (.ok reply) n'
  | again {first rest : List Occurrence} {m k n' : Node} {result : Except LookupError Message}
      (unsettled : Unsettled may q n first m) (change : may m k)
      (next : (inquire q.next k).Interleaves may rest result n') :
      Tried may q n (first ++ .entered (.inquire q.next) k :: rest) result n'

variable {may : Node → Node → Prop} {q : Inquiry} {n n' m : Node} {log first rest : List Occurrence}
  {result : Except LookupError Message} {x target failed : NodeId}

/-! ## Attempts -/

theorem interleaves_routine {r : Routine} {a : r.Result} :
    (Task.routine r n).Interleaves may log a n' ↔
      ∃ k inner, log = .entered r k :: inner ∧ may n k ∧ (r.task k).Interleaves may inner a n' := by
  constructor
  · intro h
    obtain ⟨k, a', m, inner, last, rfl, change, hroutine, hdone⟩ := Progress.interleaves_enter.mp h
    obtain ⟨rfl, rfl, rfl⟩ := Progress.interleaves_done.mp hdone
    exact ⟨k, inner, by rw [List.append_nil], change, hroutine⟩
  · rintro ⟨k, inner, rfl, change, hroutine⟩
    rw [← List.append_nil inner]
    exact .enter change hroutine .done

theorem tried_of_inquireOnce (h : (inquireOnce q n).Interleaves may log result n') :
    Tried may q n log result n' := by
  obtain ⟨found, m, first, rest, rfl, hresolve, hrest⟩ := Task.interleaves_bind.mp h
  change (resolve q.key q.verify n).Interleaves may first found m at hresolve
  cases found with
  | none =>
    obtain ⟨k, inner, rfl, change, hnext⟩ := interleaves_routine.mp hrest
    exact .again (.unresolved hresolve) change hnext
  | some target =>
    obtain ⟨answer, m', rest, rfl, change, hrest⟩ := Task.interleaves_ask_bind.mp hrest
    cases answer with
    | error e =>
      obtain ⟨⟨⟩, m'', inner, last, rfl, hhandle, hlast⟩ := Task.interleaves_bind.mp hrest
      obtain ⟨k, rest, rfl, change', hnext⟩ := interleaves_routine.mp hlast
      have htried := Tried.again (.failed (e := e) hresolve change hhandle) change' hnext
      rw [List.append_assoc] at htried
      exact htried
    | ok reply =>
      have hagain (hindefinite : reply.isDefinite = false)
          (hrest : (Task.routine (.inquire q.next) m').Interleaves may rest result n') :
          Tried may q n (first ++ .asked (.call target q.message) (.ok reply) :: rest) result
            n' := by
        obtain ⟨k, inner, rfl, change', hnext⟩ := interleaves_routine.mp hrest
        have htried := Tried.again (.refused hresolve change hindefinite) change' hnext
        rw [List.append_assoc] at htried
        exact htried
      have hdone (hdefinite : reply.isDefinite = true)
          (hrest : ((pure (.ok reply) : Task _) m').Interleaves may rest result n') :
          Tried may q n (first ++ .asked (.call target q.message) (.ok reply) :: rest) result
            n' := by
        obtain ⟨rfl, rfl, rfl⟩ := Task.interleaves_pure.mp hrest
        exact .answered hresolve change hdefinite
      cases reply with
      | status status =>
        cases status with
        | notResponsible => exact hagain rfl hrest
        | uninitialized => exact hagain rfl hrest
        | notSuperpeer => exact hagain rfl hrest
        | _ => exact hdone rfl hrest
      | _ => exact hdone rfl hrest

/-- What a request does next: the first attempt, another one after a pause, or nothing. -/
inductive Inquired (may : Node → Node → Prop) (q : Inquiry) (n : Node) :
    List Occurrence → Except LookupError Message → Node → Prop
  | first {log : List Occurrence} {result : Except LookupError Message} {n' : Node}
      (attempts : q.attempts = 0) (tried : Tried may q n log result n') :
      Inquired may q n log result n'
  | paused {rest : List Occurrence} {result : Except LookupError Message} {m n' : Node}
      (attempts : q.attempts ≠ 0) (allowed : n.config.retry.allows q.attempts = true)
      (change : may n m) (tried : Tried may q m rest result n') :
      Inquired may q n (.asked (.pause n.config.retry.interval) () :: rest) result n'
  | exhausted (attempts : q.attempts ≠ 0) (refused : n.config.retry.allows q.attempts = false) :
      Inquired may q n [] (.error (.retriesExhausted q.operation q.attempts)) n

theorem inquired_of_inquire (h : (inquire q n).Interleaves may log result n') :
    Inquired may q n log result n' := by
  unfold inquire at h
  split at h
  case isTrue hfirst => exact .first hfirst (tried_of_inquireOnce h)
  case isFalse hfirst =>
    change ((if n.config.retry.allows q.attempts then _ else _ : Task _) n).Interleaves _ _ _ _ at h
    split at h
    case isTrue hmore =>
      obtain ⟨⟨⟩, m, rest, rfl, change, hrest⟩ := Task.interleaves_ask_bind.mp h
      exact .paused hfirst hmore change (tried_of_inquireOnce hrest)
    case isFalse hmore =>
      obtain ⟨rfl, rfl, rfl⟩ := Task.interleaves_pure.mp h
      exact .exhausted hfirst (Bool.eq_false_of_not_eq_true hmore)

/-! ## Answers -/

section

variable (hmessage : ∀ target, ¬ (Request.call target q.message).IsSearch)
include hmessage

theorem answersTo_eq_nil (h : ∀ r answer, .asked r answer ∈ log → r.IsSearch) :
    answersTo q.message log = [] := by
  refine List.filterMap_eq_nil_iff.mpr fun e he => ?_
  cases e with
  | entered => rfl
  | asked r answer =>
    cases r with
    | call target m =>
      refine if_neg ?_
      rintro rfl
      exact hmessage target (h _ _ he)
    | _ => rfl

omit hmessage in
theorem answersTo_append (message : Message) (first rest : List Occurrence) :
    answersTo message (first ++ rest) = answersTo message first ++ answersTo message rest :=
  List.filterMap_append

omit hmessage in
theorem answersTo_cons_call (message : Message) (target : NodeId)
    (answer : Except NetError Message) (rest : List Occurrence) :
    answersTo message (.asked (.call target message) answer :: rest) =
      answer :: answersTo message rest :=
  List.filterMap_cons_some (if_pos rfl)

section

variable {c : Config} (hmay : ∀ n m, may n m → m.config = n.config)
include hmay

omit hmessage in
theorem search_of_resolve {found : Option NodeId}
    (h : (resolve q.key q.verify n).Interleaves may log found n') :
    n'.config = n.config ∧ (∀ r answer, .asked r answer ∈ log → r.IsSearch) ∧
      ∀ r k, .entered r k ∈ log → HandlesFailures r :=
  h.errands_config (within_resolve (fun _ _ h => h.config.trans) (fun _ _ h => h) _ _ n rfl)
    (fun _ => .inl) hmay

omit hmessage in
theorem errands_of_failureHandling
    (h : (Task.failureHandling failed n).Interleaves may log () n') :
    n'.config = n.config ∧ (∀ r answer, .asked r answer ∈ log → r.IsErrand) ∧
      ∀ r k, .entered r k ∈ log → HandlesFailures r :=
  h.errands_config (within_failureHandling (fun _ _ h => h.config.trans) _ n rfl) (fun _ => id) hmay

/-- An attempt that came to nothing was answered once at most, and not definitely. -/
theorem Unsettled.answers (h : Unsettled may q n log n') :
    n'.config = n.config ∧ (answersTo q.message log).length ≤ 1 ∧
      ∀ answer ∈ answersTo q.message log, ¬ Definite answer := by
  cases h with
  | unresolved resolved =>
    obtain ⟨hconfig, hasked, -⟩ := search_of_resolve hmay resolved
    rw [answersTo_eq_nil hmessage hasked]
    exact ⟨hconfig, Nat.zero_le 1, fun _ h => absurd h List.not_mem_nil⟩
  | refused resolved change indefinite =>
    obtain ⟨hconfig, hasked, -⟩ := search_of_resolve hmay resolved
    rw [answersTo_append, answersTo_eq_nil hmessage hasked, answersTo_cons_call]
    refine ⟨(hmay _ _ change).trans hconfig, Nat.le_refl 1, fun answer hanswer hdefinite => ?_⟩
    rw [List.mem_singleton.mp hanswer] at hdefinite
    rw [Definite, indefinite] at hdefinite
    cases hdefinite
  | failed resolved change handled =>
    obtain ⟨hconfig, hasked, -⟩ := search_of_resolve hmay resolved
    obtain ⟨hconfig', hasked', -⟩ := errands_of_failureHandling hmay handled
    rw [answersTo_append, answersTo_eq_nil hmessage hasked, answersTo_cons_call,
      answersTo_eq_nil hmessage fun r answer hmem => .inl (hasked' r answer hmem)]
    refine ⟨hconfig'.trans ((hmay _ _ change).trans hconfig), Nat.le_refl 1,
      fun answer hanswer hdefinite => ?_⟩
    rw [List.mem_singleton.mp hanswer] at hdefinite
    exact hdefinite

end

end

/-- What a request that is made at most so many times results in: the first definite answer, or the
number of attempts if there is none. -/
inductive Concluded (operation : Operation) (tries : Nat)
    (answers : List (Except NetError Message)) : Except LookupError Message → Prop
  | answered {refusals : List (Except NetError Message)} {reply : Message}
      (heard : answers = refusals ++ [.ok reply])
      (refused : ∀ answer ∈ refusals, ¬ Definite answer) (definite : reply.isDefinite = true) :
      Concluded operation tries answers (.ok reply)
  | exhausted (refused : ∀ answer ∈ answers, ¬ Definite answer) :
      Concluded operation tries answers (.error (.retriesExhausted operation tries))

theorem Concluded.prepend {operation : Operation} {tries : Nat}
    {refusals answers : List (Except NetError Message)}
    (h : Concluded operation tries answers result) (hrefused : ∀ y ∈ refusals, ¬ Definite y) :
    Concluded operation tries (refusals ++ answers) result := by
  cases h with
  | @answered more reply heq hmore hdefinite =>
    have hboth : refusals ++ answers = (refusals ++ more) ++ [.ok reply] := by
      rw [heq, List.append_assoc]
    refine .answered hboth (fun y hy => ?_) hdefinite
    exact (List.mem_append.mp hy).elim (hrefused y) (hmore y)
  | exhausted hmore =>
    exact .exhausted fun y hy => (List.mem_append.mp hy).elim (hrefused y) (hmore y)

section

variable (hmessage : ∀ target, ¬ (Request.call target q.message).IsSearch)
  (hmay : ∀ n m, may n m → m.config = n.config) {limit left : Nat}
  (hpolicy : n.config.retry.maxAttempts = some limit)
include hmessage hmay hpolicy

/-- The answers to a request with so many attempts left, and what it results in. -/
theorem concluded_of_inquire (hleft : q.attempts + left = n.config.retry.tries)
    (h : (inquire q n).Interleaves may log result n') :
    n'.config = n.config ∧ (answersTo q.message log).length ≤ left ∧
      Concluded q.operation n.config.retry.tries (answersTo q.message log) result := by
  induction left using Nat.strong_induction_on generalizing q n log with
  | h left ih =>
    -- An attempt, if there is one left, and those after it.
    have htried {m : Node} {log : List Occurrence} (hconfig : m.config = n.config) (hpos : 0 < left)
        (h : Tried may q m log result n') :
        n'.config = n.config ∧ (answersTo q.message log).length ≤ left ∧
          Concluded q.operation n.config.retry.tries (answersTo q.message log) result := by
      cases h with
      | answered resolved change definite =>
        obtain ⟨hkept, hasked, -⟩ := search_of_resolve hmay resolved
        have hend : n'.config = n.config := (hmay _ _ change).trans (hkept.trans hconfig)
        rw [answersTo_append, answersTo_eq_nil hmessage hasked, answersTo_cons_call]
        exact ⟨hend, hpos, .answered (List.nil_append _).symm
          (fun _ h => absurd h List.not_mem_nil) definite⟩
      | @again first rest k k' _ _ unsettled change next =>
        obtain ⟨hkept, hone, hrefused⟩ := unsettled.answers hmessage hmay
        have hconfig' : k'.config = n.config := ((hmay _ _ change).trans hkept).trans hconfig
        have hleft' : q.next.attempts + (left - 1) = k'.config.retry.tries := by
          rw [hconfig', ← hleft]
          show q.attempts + 1 + (left - 1) = q.attempts + left
          omega
        obtain ⟨hend, hcount, hconcluded⟩ :=
          ih (left - 1) (by omega) (q := q.next) hmessage (hconfig' ▸ hpolicy) hleft' next
        rw [hconfig'] at hconcluded
        have hsplit : answersTo q.message (first ++ .entered (.inquire q.next) k' :: rest) =
            answersTo q.message first ++ answersTo q.next.message rest := List.filterMap_append
        rw [hsplit, List.length_append]
        exact ⟨hend.trans hconfig', by omega, hconcluded.prepend hrefused⟩
    cases inquired_of_inquire h with
    | first attempts tried =>
      have hpos : 0 < n.config.retry.tries := Nat.lt_of_lt_of_le Nat.one_pos (Nat.le_max_right _ 1)
      exact htried rfl (by omega) tried
    | paused attempts allowed change tried =>
      have hmore := (RetryPolicy.allows_iff hpolicy (Nat.pos_of_ne_zero attempts)).mp allowed
      -- The pause before it is no answer.
      have hrest := htried (hmay _ _ change) (by omega) tried
      exact hrest
    | exhausted attempts refused =>
      have hover := RetryPolicy.allows_iff hpolicy (Nat.pos_of_ne_zero attempts)
      simp only [refused, Bool.false_eq_true, false_iff] at hover
      obtain rfl : left = 0 := by omega
      rw [Nat.add_zero] at hleft
      rw [hleft]
      exact ⟨rfl, Nat.le_refl 0, .exhausted fun _ h => absurd h List.not_mem_nil⟩

end

/-! ## Requests come to an end -/

theorem terminates_processFailures (n : Node) : (processFailures n).Terminates := by
  cases hfree : n.draining with
  | true =>
    rw [processFailures_of_busy hfree]
    exact .done
  | false =>
    rw [processFailures_of_free hfree]
    refine .enter (terminates_drainQueue _) fun _ m hm => ?_
    obtain ⟨log, hlog⟩ := Progress.yields_iff.mp hm
    rw [(drained_of_drainQueue hlog).empty]
    exact .done

theorem terminates_failureHandling (failed : NodeId) (n : Node) :
    (Task.failureHandling failed n).Terminates :=
  .enter (terminates_processFailures _) fun _ _ _ => .done

theorem terminates_verifyOwner (id found predecessor : NodeId) (rounds : Nat) (n : Node) :
    (verifyOwner id found predecessor rounds n).Terminates := by
  induction rounds generalizing predecessor n with
  | zero => exact .done
  | succ rounds ih =>
    refine .wait fun reply => ?_
    cases reply with
    | error e => exact (terminates_failureHandling predecessor n).bind fun _ _ _ => .done
    | ok reply =>
      cases reply with
      | successorIs successor =>
        cases successor with
        | none => exact .done
        | some successor =>
          have hgo (alive : Bool) :
              (verifyPast id found predecessor successor rounds alive n).Terminates := by
            cases alive with
            | false => exact .done
            | true =>
              show Progress.Terminates ((if Arc.contains _ id then _ else _ : Task NodeId) _)
              split
              · exact .done
              · exact ih successor _
          show Progress.Terminates ((if successor = found then _ else _ : Task NodeId) n)
          split
          · exact .done
          show Progress.Terminates
            ((if n.ring.superpeers.contains successor then _ else _ : Task NodeId) n)
          split
          · exact hgo true
          · exact .wait fun answer => hgo _
      | _ => exact .done

theorem terminates_resolve (id : NodeId) (verify : Bool) (n : Node) :
    (resolve id verify n).Terminates := by
  rcases resolve_cases id verify n with ⟨found, hresolve⟩ | ⟨found, predecessor, hresolve⟩
  · rw [hresolve]
    exact .done
  · rw [hresolve]
    exact (terminates_verifyOwner id found predecessor _ n).bind fun _ _ _ => .done

/-- An attempt ends if whatever it hands over to ends. -/
theorem terminates_inquireOnce
    (hagain : ∀ {k : Node}, k.config = n.config →
      (Task.routine (.inquire q.next) k).Terminates) : (inquireOnce q n).Terminates := by
  have hsame : ∀ n m : Node, n = m → m.config = n.config := fun n m h => congrArg _ h.symm
  refine (terminates_resolve q.key q.verify n).bind fun found m hyields => ?_
  obtain ⟨log, hlog⟩ := Progress.yields_iff.mp hyields
  have hresolve : (resolve q.key q.verify n).Interleaves Eq log found m :=
    hlog.interleaves fun _ => rfl
  obtain ⟨hm, -, -⟩ := search_of_resolve hsame hresolve
  cases found with
  | none => exact hagain hm
  | some target =>
    refine .wait fun answer => ?_
    cases answer with
    | error e =>
      refine (terminates_failureHandling target m).bind fun _ k hyields' => ?_
      obtain ⟨log', hlog'⟩ := Progress.yields_iff.mp hyields'
      have hhandle : (Task.failureHandling target m).Interleaves Eq log' () k :=
        hlog'.interleaves fun _ => rfl
      obtain ⟨hk, -, -⟩ := errands_of_failureHandling hsame hhandle
      exact hagain (hk.trans hm)
    | ok reply =>
      cases reply with
      | status status =>
        cases status with
        | notResponsible => exact hagain hm
        | uninitialized => exact hagain hm
        | notSuperpeer => exact hagain hm
        | _ => exact .done
      | _ => exact .done

/-- A bounded policy ends every request, whatever is answered. The induction is on the attempts that
are left. -/
theorem terminates_inquire {limit left : Nat} (hpolicy : n.config.retry.maxAttempts = some limit)
    (hleft : q.attempts + left = n.config.retry.tries) : (inquire q n).Terminates := by
  induction left using Nat.strong_induction_on generalizing q n with
  | h left ih =>
    have honce (hpos : 0 < left) : (inquireOnce q n).Terminates := by
      refine terminates_inquireOnce fun {k} hconfig => ?_
      have hleft' : q.next.attempts + (left - 1) = k.config.retry.tries := by
        rw [hconfig, ← hleft]
        show q.attempts + 1 + (left - 1) = q.attempts + left
        omega
      exact .enter (ih (left - 1) (by omega) (hconfig ▸ hpolicy) hleft') fun _ _ _ => .done
    unfold inquire
    split
    case isTrue hfirst =>
      have hpos : 0 < n.config.retry.tries := Nat.lt_of_lt_of_le Nat.one_pos (Nat.le_max_right _ 1)
      exact honce (by omega)
    case isFalse hfirst =>
      show Progress.Terminates ((if n.config.retry.allows q.attempts then _ else _ : Task _) n)
      split
      case isTrue hmore =>
        have hless := (RetryPolicy.allows_iff hpolicy (Nat.pos_of_ne_zero hfirst)).mp hmore
        exact .wait fun _ => honce (by omega)
      case isFalse => exact .done

end Protocol

end ChunkDirectory
