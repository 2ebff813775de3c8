import ChunkDirectory.Proofs.Concurrency.Promotion
import ChunkDirectory.Proofs.Protocol.Undisturbed
import ChunkDirectory.Proofs.Protocol.Welcome

/-!
# What handling a message makes of a node

All that a node can make of itself when it handles a message, its bookkeeping of failures and
promotions left aside (`handled_of_handleMessage`). Whatever every message keeps is shown along
these cases, without another look at the handlers.
-/

namespace ChunkDirectory

open Protocol

/-- The node as it is after a message, beginning with `n`. -/
inductive Node.Handled (sender : NodeId) (n : Node) : Message → Node → Prop
  /-- A message that is only answered, or refused. -/
  | kept {message : Message} : Handled sender n message n
  | mutated {message : Message} {m : Mutation} {isBackup : Bool} :
      message.mutation? = some (.ok m, isBackup) → Handled sender n message (n.mutate m)
  | welcomed {newcomer : NodeId} {isSuperpeer : Bool} : n.isSuperpeer = true →
      Handled sender n (.join newcomer isSuperpeer) (n.welcome newcomer isSuperpeer).2
  | promoted {snapshot : Snapshot} {replacement : NodeId} : n.isSuperpeer = false →
      Handled sender n (.promotePeer snapshot replacement) (becomeSuperpeer n snapshot)
  /-- A peer that was promoted and owns itself. -/
  | settled {snapshot : Snapshot} {replacement : NodeId} : n.isSuperpeer = false →
      Handled sender n (.promotePeer snapshot replacement)
        ((becomeSuperpeer n snapshot).mutate (.updateAll n.me replacement))
  | predecessor {node : NodeId} :
      Handled sender n (.notifyAboutNewPredecessor node) (n.noticePredecessor node)
  | successor {node : NodeId} :
      Handled sender n (.notifyAboutNewSuccessor node) (n.noticeSuccessor node)
  | failedPeer {failed : NodeId} :
      Handled sender n (.notifyAboutFailedPeer failed) (n.noticeFailedPeer failed)
  | stored {trees : List LookupTree} {mappings : List (ApplicationId × ChunkId)} :
      Handled sender n (.sendBackups trees mappings) (n.store trees mappings)
  | superpeers {superpeers : List NodeId} :
      Handled sender n (.sendSuperpeers superpeers) (n.noticeSuperpeers sender superpeers)

variable {n n' : Node} {sender : NodeId} {message reply : Message}

/-- To tell the old predecessor changes neither the ring nor the role. -/
theorem core_of_admissionReply {newcomer : NodeId} {admission : Admission}
    (h : (admissionReply newcomer admission n).Yields reply n') : n'.core = n.core := by
  have hsame {m : Node} {reply reply' : Message}
      (h : (Progress.done reply' m).Yields reply n') : n'.core = m.core := by
    rw [(Progress.yields_done.mp h).2]
  cases admission with
  | redirect contact => exact hsame h
  | peer superpeers => exact hsame h
  | superpeer snapshot old =>
    cases old with
    | none => exact hsame h
    | some old =>
      obtain ⟨sent, m, hsent, hrest⟩ := Task.yields_bind.mp h
      rw [Task.yields_ask.mp hsent] at hrest
      cases sent with
      | ok => exact hsame hrest
      | error e =>
        obtain ⟨⟨⟩, m', hspawn, hlast⟩ := Task.yields_bind.mp hrest
        rw [hsame hlast, Task.yields_spawnFailureHandling.mp hspawn, Node.core_enqueue]

theorem handled_of_handleJoin {newcomer : NodeId} {isSuperpeer : Bool}
    (h : (handleJoin newcomer isSuperpeer n).Yields reply n') :
    ∃ m, n.Handled sender (.join newcomer isSuperpeer) m ∧ n'.core = m.core := by
  by_cases hrole : n.isSuperpeer = true
  case neg =>
    change ((if !n.isSuperpeer then _ else _ : Task Message) n).Yields reply n' at h
    rw [if_pos (by simp [hrole])] at h
    exact ⟨n, .kept, by rw [(Progress.yields_done.mp h).2]⟩
  by_cases hne : newcomer = n.me
  case pos =>
    change ((if !n.isSuperpeer then _ else if newcomer = n.me then _ else _ : Task Message)
      n).Yields reply n' at h
    rw [if_neg (by simp [hrole]), if_pos hne] at h
    exact ⟨n, .kept, by rw [(Progress.yields_done.mp h).2]⟩
  rw [handleJoin_eq hrole hne rfl] at h
  exact ⟨_, .welcomed hrole, core_of_admissionReply h⟩

theorem handled_of_handlePromotePeer {snapshot : Snapshot} {replacement : NodeId}
    (h : (handlePromotePeer snapshot replacement n).Yields reply n') :
    ∃ m, n.Handled sender (.promotePeer snapshot replacement) m ∧ n'.core = m.core := by
  cases hrole : n.isSuperpeer with
  | true =>
    change ((if n.isSuperpeer then _ else _ : Task Message) n).Yields reply n' at h
    rw [if_pos hrole] at h
    exact ⟨n, .kept, by rw [(Progress.yields_done.mp h).2]⟩
  | false =>
    rw [handlePromotePeer_eq snapshot replacement hrole] at h
    obtain ⟨moved, hsettle⟩ := Progress.yields_wait.mp h
    cases moved with
    | false => exact ⟨n, .kept, by rw [(Progress.yields_done.mp hsettle).2]; rfl⟩
    | true =>
      obtain ⟨status, m, hmutate, hrest⟩ := Task.yields_bind.mp hsettle
      obtain ⟨⟨⟩, m', hworker, hlast⟩ := Task.yields_bind.mp hrest
      rw [(Task.yields_pure.mp hlast).2, Task.yields_ask.mp hworker]
      rcases core_of_mutate hmutate with hcore | hcore
      · exact ⟨_, .promoted hrole, hcore⟩
      · exact ⟨_, .settled hrole, hcore⟩

/-- What a node handles makes something of it that the message stands for. -/
theorem handled_of_handleMessage (h : (handleMessage sender message n).Yields reply n') :
    ∃ m, n.Handled sender message m ∧ n'.core = m.core := by
  have hdone {m : Node} {reply' : Message} (hm : n.Handled sender message m)
      (h : (Progress.done reply' m).Yields reply n') :
      ∃ m, n.Handled sender message m ∧ n'.core = m.core :=
    ⟨m, hm, by rw [(Progress.yields_done.mp h).2]⟩
  cases hm : message.mutation? with
  | some request =>
    obtain ⟨mutation, isBackup⟩ := request
    cases mutation with
    | error status =>
      rw [handleMessage_of_settled sender hm] at h
      exact hdone .kept h
    | ok m =>
      rw [handleMessage_of_mutation hm] at h
      obtain ⟨status, m', hmutate, hlast⟩ := Task.yields_bind.mp h
      rw [(Task.yields_pure.mp hlast).2]
      rcases core_of_mutate hmutate with hcore | hcore
      · exact ⟨n, .kept, hcore⟩
      · exact ⟨n.mutate m, .mutated hm, hcore⟩
  | none =>
    cases message with
    | join newcomer isSuperpeer => exact handled_of_handleJoin h
    | promotePeer snapshot replacement => exact handled_of_handlePromotePeer h
    | notifyAboutNewPredecessor node => exact hdone .predecessor h
    | notifyAboutNewSuccessor node => exact hdone .successor h
    | sendSuperpeers superpeers => exact hdone .superpeers h
    | notifyAboutFailedPeer failed => exact hdone .failedPeer h
    | sendBackups trees mappings => exact hdone .stored h
    | searchForPeer =>
      obtain ⟨found, m, hchoose, hlast⟩ := Progress.yields_bind.mp
        (show ((Task.choose n.ring.peers.toList n).bind _).Yields reply n' from h)
      rw [Task.yields_choose hchoose] at hlast
      exact hdone .kept hlast
    | delegatePromotePeer hops =>
      obtain ⟨⟨⟩, hlast⟩ := Progress.yields_wait.mp h
      exact hdone .kept hlast
    | startRecovery failed range =>
      obtain ⟨found, hlast⟩ := Progress.yields_wait.mp h
      exact hdone .kept hlast
    | updateAll | initRange | migrate | insertId => cases hm
    | migrateRange start stop node isBackup =>
      simp only [Message.mutation?] at hm
      split at hm <;> cases hm
    | remove chunks isBackup =>
      cases chunks with
      | nil => cases hm
      | cons first rest =>
        simp only [Message.mutation?] at hm
        split at hm <;> cases hm
    | _ => exact hdone .kept h

end ChunkDirectory
