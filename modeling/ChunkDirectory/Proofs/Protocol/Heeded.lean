import ChunkDirectory.Proofs.Protocol.Inquiry

/-!
# Failures that are heeded

A request is not sent again to a superpeer that could not be reached before: its failure has been
handled when the next attempt begins, and so has that of a superpeer that could not be asked for its
successor (`Protocol.Heeds`). Within one attempt `Protocol.Heeded` says so of the calls made up to
some point. It is carried along by whatever lists the superpeer only if it was promoted.

Nothing of the kind holds beyond the next attempt, in which the superpeer may be found again.
-/

namespace ChunkDirectory

/-- An attempt of a repeated request begins. -/
def Occurrence.BeginsAttempt : Occurrence → Prop
  | .entered (.inquire _) _ => True
  | _ => False

namespace Protocol

/-- What is called for in the attempts of a request, the handling of failures apart: an answer to
the request, and who comes after a superpeer. -/
def Calls (request : Message) (message : Message) : Prop :=
  message = request ∨ message = .askAboutSuccessor

/-- A superpeer for which such a call failed is not listed when the next attempt begins, unless it
was promoted in between. -/
def Heeds (x : NodeId) (calls : Message → Prop) (log : List Occurrence) : Prop :=
  ∀ before message e between next k after, calls message →
    log = before ++ .asked (.call x message) (.error e) ::
      (between ++ .entered (.inquire next) k :: after) →
    (∀ o ∈ between, ¬ o.BeginsAttempt) → x ∈ k.ring.superpeers → PromotedIn between x

/-- None of these calls failed for the superpeer. -/
def Spared (x : NodeId) (calls : Message → Prop) (log : List Occurrence) : Prop :=
  ∀ message e, calls message → .asked (.call x message) (.error e) ∉ log

/-- If such a call failed for the superpeer, it is not listed any more, unless it was promoted after
that. -/
structure Heeded (x : NodeId) (calls : Message → Prop) (log : List Occurrence) (n : Node) :
    Prop where
  own : n.OmitsSelf x
  free : n.draining = false
  dropped : ∀ before message e after, calls message →
    log = before ++ .asked (.call x message) (.error e) :: after →
    x ∈ n.ring.superpeers → PromotedIn after x

variable {x target : NodeId} {calls : Message → Prop} {log first rest : List Occurrence}
  {n n' m : Node} {q : Inquiry}

/-- An element of two lists in a row is one of the first or one of the second. -/
theorem append_eq_append_cons {α : Type} {first rest before after : List α} {e : α}
    (h : first ++ rest = before ++ e :: after) :
    (∃ between, first = before ++ e :: between ∧ after = between ++ rest) ∨
      ∃ between, before = first ++ between ∧ rest = between ++ e :: after := by
  rcases List.append_eq_append_iff.mp h with ⟨between, hbefore, hrest⟩ | ⟨between, hfirst, hafter⟩
  · exact .inr ⟨between, hbefore, hrest⟩
  · cases between with
    | nil => exact .inr ⟨[], by simpa using hfirst.symm, by simpa using hafter.symm⟩
    | cons e' between =>
      obtain ⟨rfl, rfl⟩ := List.cons.inj hafter
      exact .inl ⟨between, hfirst, rfl⟩

/-- Who answers is spared. -/
theorem spared_of_answered {message : Message} (reply : Message) :
    Spared x calls [.asked (.call target message) (.ok reply)] := by
  intro _ _ _ hmem
  cases List.mem_singleton.mp hmem

namespace Heeded

theorem of_spared (hown : n.OmitsSelf x) (hfree : n.draining = false) (h : Spared x calls log) :
    Heeded x calls log n := by
  refine ⟨hown, hfree, fun before message e after hcall hlog => ?_⟩
  subst hlog
  exact absurd (List.mem_append_right _ List.mem_cons_self) (h message e hcall)

theorem prepend (h : Heeded x calls rest n) (hfirst : Spared x calls first) :
    Heeded x calls (first ++ rest) n := by
  refine ⟨h.own, h.free, fun before message e after hcall hlog hlisted => ?_⟩
  rcases append_eq_append_cons hlog with ⟨between, hsplit, -⟩ | ⟨between, -, hsplit⟩
  · subst hsplit
    exact absurd (List.mem_append_right _ List.mem_cons_self) (hfirst message e hcall)
  · exact h.dropped between message e after hcall hsplit hlisted

/-- Nothing more is called for, or with success. -/
theorem append (h : Heeded x calls first n) (hrest : Spared x calls rest) :
    Heeded x calls (first ++ rest) n := by
  refine ⟨h.own, h.free, fun before message e after hcall hlog hlisted => ?_⟩
  rcases append_eq_append_cons hlog with ⟨between, hsplit, rfl⟩ | ⟨between, -, hsplit⟩
  · have hpromoted := h.dropped before message e between hcall hsplit hlisted
    exact hpromoted.mono fun y hy => List.mem_append_left _ hy
  · subst hsplit
    exact absurd (List.mem_append_right _ List.mem_cons_self) (hrest message e hcall)

/-- After the calls so far others change the node. -/
theorem change (h : Heeded x calls log n) (hchange : n.LeavesOut x m) : Heeded x calls log m :=
  ⟨hchange.omitsSelf h.own, hchange.draining.trans h.free,
    fun before message e after hcall hlog hlisted =>
      h.dropped before message e after hcall hlog (hchange.superpeers hlisted)⟩

/-- One more call fails, and the failure is handled. -/
theorem failed {message₀ : Message} {e₀ : NetError} (h : Heeded x calls first n)
    (hrest : Spared x calls rest) (hown : n'.OmitsSelf x) (hfree : n'.draining = false)
    (hdropped : (x = target ∨ n.Without x) → ¬ PromotedIn rest x → n'.Without x) :
    Heeded x calls (first ++ .asked (.call target message₀) (.error e₀) :: rest) n' := by
  refine ⟨hown, hfree, fun before message e after hcall hlog hlisted => ?_⟩
  rcases append_eq_append_cons hlog with ⟨between, hsplit, rfl⟩ | ⟨between, -, hsplit⟩
  · -- The call is one of those before.
    by_contra hnot
    have hbetween : ¬ PromotedIn between x := fun hp => hnot (hp.mono fun y hy => by simp [hy])
    have hunlisted : n.Without x :=
      fun hx => hbetween (h.dropped before message e between hcall hsplit hx)
    exact hdropped (.inr hunlisted) (fun hp => hnot (hp.mono fun y hy => by simp [hy])) hlisted
  · cases between with
    | nil =>
      obtain ⟨heq, rfl⟩ := List.cons.inj hsplit
      cases heq
      exact by_contra fun hnot => hdropped (.inl rfl) hnot hlisted
    | cons o between =>
      obtain ⟨-, rfl⟩ := List.cons.inj hsplit
      exact absurd (List.mem_append_right _ List.mem_cons_self) (hrest message e hcall)

end Heeded

/-- Nothing is called for by a node that does nothing. -/
theorem heeded_of_pure {α : Type} {a result : α} (hown : n.OmitsSelf x) (hfree : n.draining = false)
    (h : ((pure a : Task α) n).Interleaves (Node.LeavesOut x) log result n') :
    Heeded x calls log n' := by
  obtain ⟨rfl, -, rfl⟩ := Task.interleaves_pure.mp h
  exact .of_spared hown hfree fun _ _ _ => List.not_mem_nil

/-- The search for the owner goes past a superpeer that answers, or ends. -/
theorem heeded_of_verifyPast {id found predecessor successor owner : NodeId} {rounds : Nat}
    {alive : Bool} (hown : n.OmitsSelf x) (hfree : n.draining = false)
    (hbeyond : ∀ {m : Node}, m.OmitsSelf x → m.draining = false →
      (verifyOwner id found successor rounds m).Interleaves (Node.LeavesOut x) log owner n' →
        Heeded x calls log n')
    (h : (verifyPast id found predecessor successor rounds alive n).Interleaves (Node.LeavesOut x)
      log owner n') : Heeded x calls log n' := by
  cases alive with
  | false => exact heeded_of_pure hown hfree h
  | true =>
    have hown' := hown.insertSuperpeer successor
    change ((if Arc.contains _ id then _ else _ : Task NodeId)
      (n.mapRing (·.insertSuperpeer successor))).Interleaves _ _ _ _ at h
    split at h
    · exact heeded_of_pure hown' hfree h
    · exact hbeyond hown' hfree h

/-! ## Attempts -/

section

variable (hmessage : ∀ target, ¬ (Request.call target q.message).IsSearch)
include hmessage

theorem not_errand_of_calls {message : Message} (hcall : Calls q.message message) :
    ¬ (Request.call x message).IsErrand := by
  rcases hcall with rfl | rfl
  · exact fun herrand => hmessage x (.inl herrand)
  · rintro (h | h | ⟨_, _, h⟩) <;> cases h

theorem spared_of_errands (h : ∀ r answer, .asked r answer ∈ log → r.IsErrand) :
    Spared x (Calls q.message) log :=
  fun _ _ hcall hmem => not_errand_of_calls hmessage hcall (h _ _ hmem)

theorem heeded_of_failureHandling {message : Message} {e : NetError}
    (h : Heeded x (Calls q.message) first n)
    (hhandle : (Task.failureHandling target n).Interleaves (Node.LeavesOut x) rest () n') :
    Heeded x (Calls q.message) (first ++ .asked (.call target message) (.error e) :: rest) n' := by
  obtain ⟨hown, herrands, -⟩ := hhandle.errands
    (within_failureHandling onward_omitsSelf target n h.own) (fun _ => id) onward_omitsSelf
    (fun n candidate moved alone hn => hn.split moved candidate alone) (fun _ _ _ hn => hn)
    fun n m hm => hm.omitsSelf
  obtain ⟨hfree, hwithout⟩ := without_of_failureHandling h.free hhandle
  exact h.failed (spared_of_errands hmessage herrands) hown hfree
    (hwithout h.own)

theorem heeded_of_verifyOwner {id found predecessor owner : NodeId} {rounds : Nat}
    (hown : n.OmitsSelf x) (hfree : n.draining = false)
    (h : (verifyOwner id found predecessor rounds n).Interleaves (Node.LeavesOut x) log owner n') :
    Heeded x (Calls q.message) log n' := by
  induction rounds generalizing predecessor n log with
  | zero => exact heeded_of_pure hown hfree h
  | succ rounds ih =>
    obtain ⟨answer, m, rest, rfl, hmay, hrest⟩ := Task.interleaves_ask_bind.mp h
    have hown' := hmay.omitsSelf hown
    have hfree' : m.draining = false := hmay.draining.trans hfree
    cases answer with
    | error e =>
      obtain ⟨⟨⟩, m', inner, last, rfl, hhandle, hlast⟩ := Task.interleaves_bind.mp hrest
      obtain ⟨rfl, -, rfl⟩ := Task.interleaves_pure.mp hlast
      rw [List.append_nil]
      have hnone : Heeded x (Calls q.message) [] m :=
        .of_spared hown' hfree' fun _ _ _ => List.not_mem_nil
      exact heeded_of_failureHandling hmessage hnone hhandle
    | ok reply =>
      refine .prepend ?_ (spared_of_answered reply)
      cases reply with
      | successorIs successor =>
        cases successor with
        | none => exact heeded_of_pure hown' hfree' hrest
        | some successor =>
          change ((if successor = found then _ else _ : Task NodeId) m).Interleaves _ _ _ _ at hrest
          split at hrest
          case isTrue => exact heeded_of_pure hown' hfree' hrest
          change ((if m.ring.superpeers.contains successor then _ else _ :
            Task NodeId) m).Interleaves _ _ _ _ at hrest
          split at hrest
          case isTrue =>
            have hpast : (verifyPast id found predecessor successor rounds true m).Interleaves
              (Node.LeavesOut x) rest owner n' := hrest
            exact heeded_of_verifyPast hown' hfree' ih hpast
          case isFalse =>
            obtain ⟨alive, k, rest, rfl, hmay', hrest⟩ := Task.interleaves_ask_bind.mp hrest
            have hping : Spared x (Calls q.message)
                [.asked (.call successor .pingSuperpeer) alive] := by
              intro message e hcall hmem
              cases List.mem_singleton.mp hmem
              exact not_errand_of_calls (x := x) hmessage hcall (.inl rfl)
            have hpast : (verifyPast id found predecessor successor rounds alive.isOk k).Interleaves
              (Node.LeavesOut x) rest owner n' := hrest
            have hlast := heeded_of_verifyPast (hmay'.omitsSelf hown')
              (hmay'.draining.trans hfree') ih hpast
            exact hlast.prepend hping
      | _ => exact heeded_of_pure hown' hfree' hrest

theorem heeded_of_resolve {id : NodeId} {verify : Bool} {found : Option NodeId}
    (hown : n.OmitsSelf x) (hfree : n.draining = false)
    (h : (resolve id verify n).Interleaves (Node.LeavesOut x) log found n') :
    Heeded x (Calls q.message) log n' := by
  rcases resolve_cases id verify n with ⟨known, hresolve⟩ | ⟨owner, predecessor, hresolve⟩
  · rw [hresolve] at h
    exact heeded_of_pure hown hfree h
  · rw [hresolve] at h
    obtain ⟨a, m, first, rest, rfl, hverify, hrest⟩ := Task.interleaves_bind.mp h
    obtain ⟨rfl, -, rfl⟩ := Task.interleaves_pure.mp hrest
    rw [List.append_nil]
    exact heeded_of_verifyOwner hmessage hown hfree hverify

/-- Whatever an attempt came to nothing by, its failures are heeded. -/
theorem Unsettled.heeded (hown : n.OmitsSelf x) (hfree : n.draining = false)
    (h : Unsettled (Node.LeavesOut x) q n log n') : Heeded x (Calls q.message) log n' := by
  cases h with
  | unresolved resolved => exact heeded_of_resolve hmessage hown hfree resolved
  | @refused first target m _ reply resolved change indefinite =>
    have hresolved := heeded_of_resolve hmessage hown hfree resolved
    exact (hresolved.change change).append (spared_of_answered reply)
  | failed resolved change handled =>
    have hresolved := heeded_of_resolve hmessage hown hfree resolved
    exact heeded_of_failureHandling hmessage (hresolved.change change) handled

omit hmessage in
/-- An attempt that came to nothing has entered no other attempt. -/
theorem Unsettled.not_begins (h : Unsettled (Node.LeavesOut x) q n log n') :
    ∀ o ∈ log, ¬ o.BeginsAttempt := by
  have hmay : ∀ n m, Node.LeavesOut x n m → m.config = n.config := fun n m h => h.config
  have hnot {log : List Occurrence} (h : ∀ r k, .entered r k ∈ log → HandlesFailures r) :
      ∀ o ∈ log, ¬ o.BeginsAttempt := by
    intro o ho hbegins
    cases o with
    | asked => exact hbegins
    | entered r k =>
      cases r with
      | inquire next => exact h _ k ho
      | _ => exact hbegins
  cases h with
  | unresolved resolved => exact hnot (search_of_resolve hmay resolved).2.2
  | refused resolved change indefinite =>
    intro o ho
    rcases List.mem_append.mp ho with ho | ho
    · exact hnot (search_of_resolve hmay resolved).2.2 o ho
    · cases List.mem_singleton.mp ho
      exact id
  | failed resolved change handled =>
    intro o ho
    rcases List.mem_append.mp ho with ho | ho
    · exact hnot (search_of_resolve hmay resolved).2.2 o ho
    · rcases List.mem_cons.mp ho with rfl | ho
      · exact id
      · exact hnot (errands_of_failureHandling hmay handled).2.2 o ho

end

/-! ## Requests -/

/-- What comes before the first call does not matter. -/
theorem Heeds.prepend (h : Heeds x calls rest) (hfirst : Spared x calls first) :
    Heeds x calls (first ++ rest) := by
  intro before message e between next k after hcall hlog hbetween hlisted
  rcases append_eq_append_cons hlog with ⟨middle, hsplit, -⟩ | ⟨middle, -, hsplit⟩
  · subst hsplit
    exact absurd (List.mem_append_right _ List.mem_cons_self) (hfirst message e hcall)
  · exact h middle message e between next k after hcall hsplit hbetween hlisted

/-- One attempt before the others. -/
theorem Heeds.attempt {next : Inquiry} {k : Node} (h : Heeded x calls first k)
    (hfirst : ∀ o ∈ first, ¬ o.BeginsAttempt) (hrest : Heeds x calls rest) :
    Heeds x calls (first ++ .entered (.inquire next) k :: rest) := by
  intro before message e between next' k' after hcall hlog hbetween hlisted
  rcases append_eq_append_cons hlog with ⟨middle, hsplit, hmiddle⟩ | ⟨middle, -, hsplit⟩
  · -- The call failed in this attempt, so the next one is the one that follows it.
    rcases append_eq_append_cons hmiddle.symm with ⟨inner, hinner, -⟩ | ⟨inner, hinner, hrest'⟩
    · have hmem : Occurrence.entered (.inquire next') k' ∈ first := by
        rw [hsplit, hinner]
        simp
      exact absurd trivial (hfirst _ hmem)
    · cases inner with
      | nil =>
        obtain ⟨heq, -⟩ := List.cons.inj hrest'
        cases heq
        rw [List.append_nil] at hinner
        subst hinner
        exact h.dropped before message e between hcall hsplit hlisted
      | cons o inner =>
        obtain ⟨rfl, -⟩ := List.cons.inj hrest'
        have hmem : Occurrence.entered (.inquire next) k ∈ between := by
          rw [hinner]
          simp
        exact absurd trivial (hbetween _ hmem)
  · cases middle with
    | nil => cases (List.cons.inj hsplit).1
    | cons o middle =>
      exact hrest middle message e between next' k' after hcall (List.cons.inj hsplit).2 hbetween
        hlisted

/-- Whatever the policy, the failures of each attempt are heeded in the next one. The induction is
on the length of the record. -/
theorem heeds_of_inquire {result : Except LookupError Message}
    (hmessage : ∀ target, ¬ (Request.call target q.message).IsSearch) (hown : n.OmitsSelf x)
    (hfree : n.draining = false)
    (h : (inquire q n).Interleaves (Node.LeavesOut x) log result n') :
    n'.OmitsSelf x ∧ n'.draining = false ∧ Heeds x (Calls q.message) log := by
  have hmay : ∀ n m, Node.LeavesOut x n m → m.config = n.config := fun n m h => h.config
  induction hlength : log.length using Nat.strong_induction_on generalizing q n log with
  | h length ih =>
    have htried {m : Node} {log : List Occurrence} (hown : m.OmitsSelf x)
        (hfree : m.draining = false) (hle : log.length ≤ length)
        (h : Tried (Node.LeavesOut x) q m log result n') :
        n'.OmitsSelf x ∧ n'.draining = false ∧ Heeds x (Calls q.message) log := by
      cases h with
      | @answered first target m' _ reply resolved change definite =>
        have hheeded := (heeded_of_resolve hmessage hown hfree resolved).change change
        -- No attempt follows.
        refine ⟨hheeded.own, hheeded.free,
          fun before message e between next k after hcall hlog hbetween hlisted => ?_⟩
        have hmem : Occurrence.entered (.inquire next) k ∈
            first ++ [.asked (.call target q.message) (.ok reply)] := by
          rw [hlog]
          simp
        rcases List.mem_append.mp hmem with hmem | hmem
        · exact absurd ((search_of_resolve hmay resolved).2.2 _ _ hmem) id
        · cases List.mem_singleton.mp hmem
      | @again first rest m' k _ _ unsettled change next =>
        have hheeded := (unsettled.heeded hmessage hown hfree).change change
        have hless : rest.length < length := by
          rw [List.length_append, List.length_cons] at hle
          omega
        obtain ⟨hown', hfree', hrest⟩ :=
          ih rest.length hless (q := q.next) hmessage hheeded.own hheeded.free next rfl
        exact ⟨hown', hfree', .attempt hheeded unsettled.not_begins hrest⟩
    cases inquired_of_inquire h with
    | first attempts tried => exact htried hown hfree (Nat.le_of_eq hlength) tried
    | @paused rest _ m _ attempts allowed change tried =>
      have hpause : Spared x (Calls q.message) [.asked (.pause n.config.retry.interval) ()] := by
        intro _ _ _ hmem
        cases List.mem_singleton.mp hmem
      have hle : rest.length ≤ length := by
        rw [← hlength]
        exact Nat.le_succ _
      obtain ⟨hown', hfree', hrest⟩ :=
        htried (change.omitsSelf hown) (change.draining.trans hfree) hle tried
      exact ⟨hown', hfree', hrest.prepend hpause⟩
    | exhausted attempts refused =>
      refine ⟨hown, hfree, fun before message e between next k after hcall hlog => ?_⟩
      cases before <;> cases hlog

end Protocol

end ChunkDirectory
