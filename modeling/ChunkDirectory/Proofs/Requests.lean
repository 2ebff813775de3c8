import ChunkDirectory.Proofs.Pointers
import ChunkDirectory.Proofs.Protocol.Heeded
import ChunkDirectory.Proofs.Reference

/-!
# Directory operations as repeated requests

Each operation of the storage layer is one repeated request: it has a key and a message, and it
takes one kind of answer for a success (`Query`, `Query.IssuedBy`). To forget chunks takes one
request for each of their creators, up to the first that fails (`Protocol.remove_eq`).

Whatever is answered and whatever other tasks do meanwhile, a request is made as often as the policy
allows at most, and results in the first definite answer or in the number of attempts
(`Query.Settled`). If it has the node for itself it comes to an end. And as long as others leave a
superpeer out, the request is not sent to it again after it could not be reached
(`Protocol.requests_settled`).
-/

namespace ChunkDirectory

open Protocol

/-- A repeated request, and what an answer of its own kind says. -/
structure Query (α : Type) where
  operation : Operation
  key : NodeId
  message : Message
  read : Message → Option α

namespace Query

variable {α : Type}

/-- What a definite answer comes to. -/
def result (query : Query α) (reply : Message) : Except LookupError α :=
  match query.read reply with
  | some a => .ok a
  | none => .error (.unexpectedResponse query.operation reply)

/-- Makes the request. -/
def run (query : Query α) : Task (Except LookupError α) := do
  match ← requestResponsible query.operation query.key query.message with
  | .ok reply => return query.result reply
  | .error e => return .error e

def ofLookup (chunk : ChunkId) : Query (Option Locations) where
  operation := .get
  key := chunk.creator
  message := .lookup chunk
  read
    | .lookupResult locations => some locations
    | _ => none

def ofBackupRanges (node : NodeId) : Query (List BackupRange) where
  operation := .getAllBackupRanges
  key := node
  message := .getBackupRanges node
  read
    | .backupRanges ranges => some (ranges.getD [])
    | _ => none

def ofChunkId (id : ApplicationId) : Query (Option ChunkId) where
  operation := .getChunkId
  key := id.position
  message := .getChunkId id
  read
    | .chunkIdResult chunk => some chunk
    | _ => none

/-- Only a mutation that was applied has succeeded. -/
def ofMutation (operation : Operation) (m : Mutation) : Query Unit where
  operation
  key := m.key
  message := m.message false
  read
    | .status .applied => some ()
    | _ => none

/-- The request that forgets those of the chunks that have the creator. -/
def ofRemoval (chunks : List ChunkId) (creator : NodeId) : Query Unit where
  operation := .remove
  key := creator
  message := .remove (Table.chunksOf chunks creator) false
  read
    | .status .applied => some ()
    | _ => none

/-- The operations that a node makes with one request. The chunks between two are moved if these
have the same creator. -/
inductive IssuedBy (n : Node) : {α : Type} → Query α → Task (Except LookupError α) → Prop
  | get (chunk : ChunkId) : IssuedBy n (ofLookup chunk) (get chunk)
  | getAllBackupRanges (node : NodeId) : IssuedBy n (ofBackupRanges node) (getAllBackupRanges node)
  | getChunkId (id : ApplicationId) : IssuedBy n (ofChunkId id) (getChunkId id)
  | updateAllAfterRecovery (owner : NodeId) :
      IssuedBy n (ofMutation .updateAllAfterRecovery (.updateAll owner n.me))
        (updateAllAfterRecovery owner)
  | initRange (start : RangeStart) (owner : NodeId) (backups : BackupPeers) :
      IssuedBy n (ofMutation .initRange (.initRange start owner backups))
        (initRange start owner backups)
  | migrate (chunk : ChunkId) (node : NodeId) :
      IssuedBy n (ofMutation .migrate (.migrate chunk node)) (migrate chunk node)
  | migrateRange {start stop : ChunkId} (node : NodeId) (same : start.creator = stop.creator) :
      IssuedBy n (ofMutation .migrateRange (.migrateRange start stop node))
        (migrateRange start stop node)
  | insertId (id : ApplicationId) (chunk : ChunkId) :
      IssuedBy n (ofMutation .insertId (.insertId id chunk)) (insertId id chunk)

/-- What a request that is made at most so many times results in: what the first definite answer
comes to, or the number of attempts if there is none. -/
inductive Outcome (query : Query α) (tries : Nat) (answers : List (Except NetError Message)) :
    Except LookupError α → Prop
  | answered {refusals : List (Except NetError Message)} {reply : Message}
      (heard : answers = refusals ++ [.ok reply])
      (refused : ∀ answer ∈ refusals, ¬ Definite answer) (definite : reply.isDefinite = true) :
      Outcome query tries answers (query.result reply)
  | exhausted (refused : ∀ answer ∈ answers, ¬ Definite answer) :
      Outcome query tries answers (.error (.retriesExhausted query.operation tries))

/-- The request was made so many times at most, and settled. -/
structure Settled (query : Query α) (tries : Nat) (log : List Occurrence)
    (result : Except LookupError α) : Prop where
  count : (answersTo query.message log).length ≤ tries
  outcome : query.Outcome tries (answersTo query.message log) result

/-- Of a series of requests in turn up to the first that fails, such a thing can be said of each
that was made. -/
inductive Each (holds : Query Unit → List Occurrence → Except LookupError Unit → Prop) :
    List (Query Unit) → List Occurrence → Except LookupError Unit → Prop
  | done : Each holds [] [] (.ok ())
  | applied {query : Query Unit} {rest : List (Query Unit)} {first log : List Occurrence}
      {result : Except LookupError Unit} (made : holds query first (.ok ()))
      (later : Each holds rest log result) : Each holds (query :: rest) (first ++ log) result
  | failed {query : Query Unit} {rest : List (Query Unit)} {log : List Occurrence} {e : LookupError}
      (made : holds query log (.error e)) : Each holds (query :: rest) log (.error e)

/-- Makes requests in turn, up to the first that fails. -/
def runEach : List (Query Unit) → Task (Except LookupError Unit)
  | [] => return .ok ()
  | query :: rest => do
    match ← query.run with
    | .ok () => runEach rest
    | .error e => return .error e

end Query

namespace Protocol

variable {α : Type} {query : Query α} {n n' m : Node} {log : List Occurrence} {x : NodeId}
  {t : Task (Except LookupError α)} {may : Node → Node → Prop}

/-! ## Operations -/

/-- To request an answer and to read it as the request does is the request. -/
theorem run_eq (query : Query α) {f : Except LookupError Message → Task (Except LookupError α)}
    (herror : ∀ e, f (.error e) = pure (.error e))
    (hok : ∀ reply, f (.ok reply) = pure (query.result reply)) :
    (requestResponsible query.operation query.key query.message >>= f) = query.run := by
  unfold Query.run
  congr 1
  funext answer
  cases answer with
  | error e => exact herror e
  | ok reply => exact hok reply

theorem requestMutation_eq (operation : Operation) (m : Mutation) :
    requestMutation operation m = (Query.ofMutation operation m).run := by
  apply run_eq (Query.ofMutation operation m) fun _ => rfl
  intro reply
  cases reply with
  | status status => cases status <;> rfl
  | _ => rfl

theorem run_of_issuedBy (h : query.IssuedBy n t) : t n = query.run n := by
  cases h with
  | get chunk =>
    have heq : get chunk = (Query.ofLookup chunk).run :=
      run_eq (Query.ofLookup chunk) (fun _ => rfl) fun reply => by cases reply <;> rfl
    rw [heq]
  | getAllBackupRanges node =>
    have heq : getAllBackupRanges node = (Query.ofBackupRanges node).run :=
      run_eq (Query.ofBackupRanges node) (fun _ => rfl) fun reply => by cases reply <;> rfl
    rw [heq]
  | getChunkId id =>
    have heq : getChunkId id = (Query.ofChunkId id).run :=
      run_eq (Query.ofChunkId id) (fun _ => rfl) fun reply => by cases reply <;> rfl
    rw [heq]
  | updateAllAfterRecovery owner => exact congrFun (requestMutation_eq _ _) n
  | initRange start owner backups => exact congrFun (requestMutation_eq _ _) n
  | migrate chunk node => exact congrFun (requestMutation_eq _ _) n
  | migrateRange node same =>
    refine Eq.trans ?_ (congrFun (requestMutation_eq _ _) n)
    unfold migrateRange
    rw [if_pos same]
  | insertId id chunk => exact congrFun (requestMutation_eq _ _) n

/-- To forget chunks is a request for each of their creators, in ascending order. -/
theorem remove_eq (chunks : List ChunkId) :
    remove chunks = Query.runEach ((Table.creatorsOf chunks).map (Query.ofRemoval chunks)) := by
  have hgroups : ∀ creators : List NodeId, (∀ c ∈ creators, Table.chunksOf chunks c ≠ []) →
      removeGroups (creators.map (Table.chunksOf chunks)) =
        Query.runEach (creators.map (Query.ofRemoval chunks)) := by
    intro creators hcreators
    induction creators with
    | nil => rfl
    | cons creator rest ih =>
      have hrest := ih fun c hc => hcreators c (List.mem_cons_of_mem _ hc)
      obtain ⟨first, others, hgroup⟩ :=
        List.exists_cons_of_ne_nil (hcreators creator List.mem_cons_self)
      have hkey : first.creator = creator := by
        have hmem : first ∈ Table.chunksOf chunks creator := hgroup ▸ List.mem_cons_self
        exact of_decide_eq_true (List.mem_filter.mp hmem).2
      have hquery : Query.ofMutation .remove (.remove first others) =
          Query.ofRemoval chunks creator := by
        unfold Query.ofMutation Query.ofRemoval
        rw [hgroup, ← hkey]
        rfl
      rw [List.map_cons, List.map_cons, hgroup, removeGroups, hrest, requestMutation_eq, hquery]
      rfl
  unfold remove
  rw [Table.values_byCreator]
  exact hgroups _ fun c hc => Table.mem_creatorsOf.mp hc

/-! ## Single requests -/

theorem interleaves_requestResponsible {operation : Operation} {key : NodeId} {message : Message}
    {result : Except LookupError Message}
    (h : (requestResponsible operation key message n).Interleaves may log result n') :
    ∃ k inner, log = .entered (.inquire ⟨operation, key, message, !n.isStable, 0⟩) k :: inner ∧
      may n k ∧
      (inquire ⟨operation, key, message, !n.isStable, 0⟩ k).Interleaves may inner result n' :=
  interleaves_routine.mp h

/-- The answer to a request is read, which takes nothing more. -/
theorem interleaves_run {result : Except LookupError α}
    (h : (query.run n).Interleaves may log result n') :
    ∃ reply, (requestResponsible query.operation query.key query.message n).Interleaves may log
      reply n' ∧ result = reply.bind query.result := by
  obtain ⟨reply, m, first, rest, rfl, hrequest, hread⟩ := Task.interleaves_bind.mp h
  cases reply with
  | error e =>
    obtain ⟨rfl, rfl, rfl⟩ := Task.interleaves_pure.mp hread
    exact ⟨_, by rwa [List.append_nil], rfl⟩
  | ok reply =>
    obtain ⟨rfl, rfl, rfl⟩ := Task.interleaves_pure.mp hread
    exact ⟨_, by rwa [List.append_nil], rfl⟩

section

variable (hmessage : ∀ target, ¬ (Request.call target query.message).IsSearch)
include hmessage

theorem heeds_of_run {result : Except LookupError α} (hown : n.OmitsSelf x)
    (hfree : n.draining = false) (h : (query.run n).Interleaves (Node.LeavesOut x) log result n') :
    n'.OmitsSelf x ∧ n'.draining = false ∧ Heeds x (Calls query.message) log := by
  obtain ⟨reply, hrequest, -⟩ := interleaves_run h
  obtain ⟨k, inner, rfl, change, hinquire⟩ := interleaves_requestResponsible hrequest
  obtain ⟨hown', hfree', hheeds⟩ := heeds_of_inquire
    (q := ⟨query.operation, query.key, query.message, !n.isStable, 0⟩) hmessage
    (change.omitsSelf hown) (change.draining.trans hfree) hinquire
  have hentered : Spared x (Calls query.message)
      [.entered (.inquire ⟨query.operation, query.key, query.message, !n.isStable, 0⟩) k] := by
    intro _ _ _ hmem
    cases List.mem_singleton.mp hmem
  exact ⟨hown', hfree', hheeds.prepend hentered⟩

section

variable {limit : Nat} (hpolicy : n.config.retry.maxAttempts = some limit)
include hpolicy

theorem settled_of_run {result : Except LookupError α}
    (hmay : ∀ n m, may n m → m.config = n.config)
    (h : (query.run n).Interleaves may log result n') :
    n'.config = n.config ∧ query.Settled n.config.retry.tries log result := by
  obtain ⟨reply, hrequest, rfl⟩ := interleaves_run h
  obtain ⟨k, inner, rfl, change, hinquire⟩ := interleaves_requestResponsible hrequest
  have hconfig : k.config = n.config := hmay _ _ change
  obtain ⟨hend, hcount, hconcluded⟩ := concluded_of_inquire
    (q := ⟨query.operation, query.key, query.message, !n.isStable, 0⟩) hmessage hmay
    (hconfig ▸ hpolicy) (Nat.zero_add _) hinquire
  rw [hconfig] at hend hcount hconcluded
  refine ⟨hend, hcount, ?_⟩
  cases hconcluded with
  | answered heard refused definite => exact .answered heard refused definite
  | exhausted refused => exact .exhausted refused

omit hmessage in
theorem terminates_run : (query.run n).Terminates := by
  have hinquire := terminates_inquire
    (q := ⟨query.operation, query.key, query.message, !n.isStable, 0⟩) hpolicy (Nat.zero_add _)
  have hrequest : (requestResponsible query.operation query.key query.message n).Terminates :=
    .enter hinquire fun _ _ _ => .done
  refine hrequest.bind fun reply m _ => ?_
  cases reply with
  | error e => exact .done
  | ok reply => exact .done

end

end

/-! ## Requests in turn -/

section

variable {queries : List (Query Unit)} {result : Except LookupError Unit}
  {holds : Query Unit → List Occurrence → Except LookupError Unit → Prop} {P : Node → Prop}

/-- What holds of each request, given a property that each of them keeps, holds of those that are
made. -/
theorem each_of_runEach (hrun : ∀ query ∈ queries, ∀ n log result n', P n →
      (query.run n).Interleaves may log result n' → P n' ∧ holds query log result)
    (hn : P n) (h : (Query.runEach queries n).Interleaves may log result n') :
    Query.Each holds queries log result := by
  induction queries generalizing n log with
  | nil =>
    obtain ⟨rfl, rfl, -⟩ := Task.interleaves_pure.mp h
    exact .done
  | cons query rest ih =>
    obtain ⟨answer, m, first, last, rfl, hfirst, hlast⟩ := Task.interleaves_bind.mp h
    obtain ⟨hm, hholds⟩ := hrun query List.mem_cons_self _ _ _ _ hn hfirst
    cases answer with
    | ok =>
      exact .applied hholds (ih (fun q hq => hrun q (List.mem_cons_of_mem query hq)) hm hlast)
    | error e =>
      obtain ⟨rfl, rfl, -⟩ := Task.interleaves_pure.mp hlast
      rw [List.append_nil]
      exact .failed hholds

variable {limit : Nat} (hpolicy : n.config.retry.maxAttempts = some limit)
  (hmessages : ∀ query ∈ queries, ∀ target, ¬ (Request.call target query.message).IsSearch)
include hpolicy hmessages

theorem terminates_runEach : (Query.runEach queries n).Terminates := by
  induction queries generalizing n with
  | nil => exact .done
  | cons query rest ih =>
    refine (terminates_run hpolicy).bind fun answer m hm => ?_
    cases answer with
    | error e => exact .done
    | ok =>
      obtain ⟨log, hlog⟩ := Progress.yields_iff.mp hm
      have hrun : (query.run n).Interleaves Eq log (.ok ()) m := hlog.interleaves fun _ => rfl
      obtain ⟨hconfig, -⟩ := settled_of_run (hmessages query List.mem_cons_self) hpolicy
        (fun n m h => congrArg _ h.symm) hrun
      exact ih (hconfig ▸ hpolicy) fun q hq => hmessages q (List.mem_cons_of_mem query hq)

end

/-! ## All operations -/

theorem not_search_of_issuedBy (h : query.IssuedBy n t) (target : NodeId) :
    ¬ (Request.call target query.message).IsSearch := by
  cases h <;> rintro ((h | h | ⟨_, _, h⟩) | ⟨_, h⟩) <;> cases h

theorem not_search_of_removal {chunks : List ChunkId} {creators : List NodeId} :
    ∀ query ∈ creators.map (Query.ofRemoval chunks), ∀ target,
      ¬ (Request.call target query.message).IsSearch := by
  intro query hquery target
  obtain ⟨creator, -, rfl⟩ := List.mem_map.mp hquery
  rintro ((h | h | ⟨_, _, h⟩) | ⟨_, h⟩) <;> cases h

/-- No node that has come about lists itself. -/
theorem omitsSelf_of_arises (h : n.Arises fun _ _ => True) : n.OmitsSelf x := by
  have hconfined : n.Confined fun _ => True :=
    Node.Arises.confined (h.mono fun _ _ _ _ _ _ => trivial)
  rintro rfl hlisted
  exact (Ring.admits_iff.mp (hconfined.ring.superpeers _ hlisted)).1 rfl

/-- Every directory operation comes to an end. Whatever is answered and whatever other tasks do in
between, its request is made as often as the policy allows at most, and it results in the first
definite answer, which is a success if it is of the operation's own kind, or in the number of
attempts. If the request, or that for a successor on the way, fails for a superpeer, it is not
listed when the next attempt begins unless it was promoted after that; here no other task may handle
failures or list the superpeer, and the node must not have listed itself, as none does that has come
about (`omitsSelf_of_arises`). To forget chunks is a request for each of their creators, for which
all this holds. -/
theorem requests_settled (n : Node) (limit : Nat)
    (hpolicy : n.config.retry.maxAttempts = some limit) :
    (∀ (α : Type) (query : Query α) (t : Task (Except LookupError α)), query.IssuedBy n t →
      (t n).Terminates ∧
      (∀ may log result n', (∀ k m : Node, may k m → m.config = k.config) →
        (t n).Interleaves may log result n' → query.Settled (max limit 1) log result) ∧
      ∀ x log result n', n.draining = false → n.OmitsSelf x →
        (t n).Interleaves (Node.LeavesOut x) log result n' → Heeds x (Calls query.message) log) ∧
    ∀ chunks, (remove chunks n).Terminates ∧
      (∀ may log result n', (∀ k m : Node, may k m → m.config = k.config) →
        (remove chunks n).Interleaves may log result n' →
        Query.Each (fun query => query.Settled (max limit 1))
          ((Table.creatorsOf chunks).map (Query.ofRemoval chunks)) log result) ∧
      ∀ x log result n', n.draining = false → n.OmitsSelf x →
        (remove chunks n).Interleaves (Node.LeavesOut x) log result n' →
        Query.Each (fun query log _ => Heeds x (Calls query.message) log)
          ((Table.creatorsOf chunks).map (Query.ofRemoval chunks)) log result := by
  have htries {k : Node} (hconfig : k.config = n.config) : k.config.retry.tries = max limit 1 := by
    rw [hconfig, RetryPolicy.tries, hpolicy, Option.getD_some]
  constructor
  · intro α query t hissued
    have hmessage := not_search_of_issuedBy hissued
    rw [run_of_issuedBy hissued]
    refine ⟨terminates_run hpolicy, fun may log result n' hmay h => ?_,
      fun x log result n' hfree hown h => (heeds_of_run hmessage hown hfree h).2.2⟩
    have hsettled := (settled_of_run hmessage hpolicy hmay h).2
    rwa [htries rfl] at hsettled
  · intro chunks
    rw [remove_eq]
    refine ⟨terminates_runEach hpolicy not_search_of_removal, fun may log result n' hmay h => ?_,
      fun x log result n' hfree hown h => ?_⟩
    · refine each_of_runEach (P := (·.config = n.config))
        (fun query hquery k log result k' hk hrun => ?_) rfl h
      obtain ⟨hconfig, hsettled⟩ :=
        settled_of_run (not_search_of_removal query hquery) (hk ▸ hpolicy) hmay hrun
      rw [htries hk] at hsettled
      exact ⟨hconfig.trans hk, hsettled⟩
    · refine each_of_runEach (P := fun k => k.OmitsSelf x ∧ k.draining = false)
        (fun query hquery k log result k' hk hrun => ?_) ⟨hown, hfree⟩ h
      obtain ⟨hown', hfree', hheeds⟩ :=
        heeds_of_run (not_search_of_removal query hquery) hk.1 hk.2 hrun
      exact ⟨⟨hown', hfree'⟩, hheeds⟩

/-- A peer that knows one superpeer. -/
def caller : Node :=
  (Node.new (Overlay.twoAttempts ⟨50⟩ .peer)).mapRing (·.insertSuperpeer ⟨100⟩)

/-- A chunk of the superpeer's range. -/
def wantedChunk : ChunkId := .make ⟨80⟩ 1

/-- The peer after it has handled the failure of the superpeer. -/
def forsaken : Node := .new (Overlay.twoAttempts ⟨50⟩ .peer)

/-- The peer as it begins to handle the failure, and after each round. -/
def forsakenRounds : List Occurrence :=
  [.entered .processFailures { caller with failures := [⟨100⟩] },
    .entered .drainQueue { caller with failures := [⟨100⟩], draining := true },
    .entered .drainQueue { forsaken with draining := true }]

theorem follows_forsakenRounds :
    (Task.failureHandling ⟨100⟩ caller).Follows forsakenRounds () forsaken := by
  let n₀ : Node := { caller with failures := [⟨100⟩], draining := true }
  let n₁ : Node := { forsaken with draining := true }
  have hhandle : (handleFailure ⟨100⟩ { n₀ with failures := [] }).Follows [] () n₁ := .done
  have hempty : (drainQueue n₁).Follows [] () n₁ := by
    rw [drainQueue_of_nil rfl]
    exact .done
  have hqueue : n₀.failures = [⟨100⟩] := rfl
  have hdrain : (drainQueue n₀).Follows [.entered .drainQueue n₁] () n₁ := by
    rw [drainQueue_of_cons hqueue]
    exact Task.follows_bind.mpr
      ⟨(), n₁, [], _, rfl, hhandle, .enter (r := .drainQueue) hempty .done⟩
  have hprocess : (processFailures { caller with failures := [⟨100⟩] }).Follows
      [.entered .drainQueue n₀, .entered .drainQueue n₁] () forsaken := by
    rw [processFailures_of_free rfl]
    exact .enter (r := .drainQueue) hdrain .done
  exact .enter (r := .processFailures) hprocess .done

/-- The superpeer times out and is forsaken, so the second attempt finds nobody to ask. -/
theorem requests_settled_unreachable : ∃ log q rest,
    log = .entered (.inquire q) caller ::
      .asked (.call ⟨100⟩ (.lookup wantedChunk)) (.error (.timeout ⟨100⟩)) ::
        (forsakenRounds ++ .entered (.inquire q.next) forsaken :: rest) ∧
    (get wantedChunk caller).Follows log (.error (.retriesExhausted .get 2)) forsaken ∧
    (Query.ofLookup wantedChunk).Settled 2 log (.error (.retriesExhausted .get 2)) ∧
    ⟨100⟩ ∈ caller.ring.superpeers ∧
    (⟨100⟩ ∈ forsaken.ring.superpeers → PromotedIn forsakenRounds ⟨100⟩) := by
  let q : Inquiry := ⟨.get, ⟨80⟩, .lookup wantedChunk, false, 0⟩
  let rest : List Occurrence :=
    [.asked (.pause forsaken.config.retry.interval) (), .entered (.inquire q.next.next) forsaken]
  have hlast : (inquire q.next.next forsaken).Follows [] (.error (.retriesExhausted .get 2))
      forsaken := .done
  have hsecond : (inquire q.next forsaken).Follows rest (.error (.retriesExhausted .get 2))
      forsaken := by
    change (Progress.wait forsaken (.pause forsaken.config.retry.interval)
      fun _ m => inquireOnce q.next m).Follows _ _ _
    exact Progress.follows_wait.mpr ⟨(), _, rfl, .enter (r := .inquire q.next.next) hlast .done⟩
  have hhandled : ((Task.failureHandling ⟨100⟩ >>= fun _ => Task.routine (.inquire q.next))
      caller).Follows (forsakenRounds ++ .entered (.inquire q.next) forsaken :: rest)
      (.error (.retriesExhausted .get 2)) forsaken :=
    Task.follows_bind.mpr ⟨(), forsaken, _, _, rfl, follows_forsakenRounds,
      .enter (r := .inquire q.next) hsecond .done⟩
  have hfirst : (inquire q caller).Follows
      (.asked (.call ⟨100⟩ q.message) (.error (.timeout ⟨100⟩)) ::
        (forsakenRounds ++ .entered (.inquire q.next) forsaken :: rest))
      (.error (.retriesExhausted .get 2)) forsaken := by
    change (Progress.wait caller (.call ⟨100⟩ q.message) fun answer m => _).Follows _ _ _
    exact Progress.follows_wait.mpr ⟨.error (.timeout ⟨100⟩), _, rfl, hhandled⟩
  have hrun : (get wantedChunk caller).Follows (.entered (.inquire q) caller ::
      .asked (.call ⟨100⟩ q.message) (.error (.timeout ⟨100⟩)) ::
        (forsakenRounds ++ .entered (.inquire q.next) forsaken :: rest))
      (.error (.retriesExhausted .get 2)) forsaken := by
    change (Progress.enter caller (.inquire q) fun answer m => _).Follows _ _ _
    exact Progress.follows_enter.mpr ⟨_, _, _, [], by rw [List.append_nil], hfirst, .done⟩
  obtain ⟨-, hsettled, hheeds⟩ := (requests_settled caller 2 rfl).1 _ _ _ (.get wantedChunk)
  refine ⟨_, q, rest, rfl, hrun, hsettled Eq _ _ _ (fun _ _ h => h ▸ rfl)
    (hrun.interleaves fun _ => rfl), by decide, ?_⟩
  have hown : caller.OmitsSelf ⟨100⟩ := fun hself => absurd hself (by decide)
  refine hheeds ⟨100⟩ _ _ _ rfl hown (hrun.interleaves .refl) [_] q.message _ _ q.next _ rest
    (.inl rfl) rfl fun o ho => ?_
  rcases List.mem_cons.mp ho with rfl | ho
  · exact id
  · rcases List.mem_pair.mp ho with rfl | rfl <;> exact id
end Protocol

end ChunkDirectory
