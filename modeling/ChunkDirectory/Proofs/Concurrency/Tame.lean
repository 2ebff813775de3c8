import ChunkDirectory.Proofs.Concurrency.Machine
import ChunkDirectory.Proofs.Overlay.Settled
import ChunkDirectory.Proofs.Protocol.Mutation

/-!
# Tame tasks

Most of what is under way does not matter for a hand-over: a task that has changed a directory sends
copies and replies, one that looks for a replacement asks other superpeers. Such a task is tame. It
leaves alone what it finds and sends nothing but copies to superpeers that do not own the key and
searches, until it comes to a goal (`Progress.Tame`). A thread is tame if its task is, at home or
while it waits for a message to be handled elsewhere (`Thread.Tame`).
-/

namespace ChunkDirectory

/-- Continuing twice is continuing once. -/
theorem Progress.bind_bind {α β γ : Type} (p : Progress α) (f : α → Task β) (g : β → Task γ) :
    (p.bind f).bind g = p.bind fun a n => (f a n).bind g := by
  induction p with
  | done a n => rfl
  | wait n r k ih => exact congrArg (Progress.wait n r) (funext fun x => funext fun n' => ih x n')
  | enter n r k ih => exact congrArg (Progress.enter n r) (funext fun x => funext fun n' => ih x n')

namespace Node

variable {n : Node} {m : Mutation} {message : Message} {isBackup : Bool}

/-- A node's state without its bookkeeping of failures and promotions. -/
def core (n : Node) : Config × Ring × Role := (n.config, n.ring, n.role)

/-- The node after it has applied what a message asks for. -/
def handle (n : Node) (message : Message) : Node :=
  match n.handled? message with
  | some (m, _) => n.mutate m
  | none => n

theorem handled?_of_peer (message : Message) (h : n.isSuperpeer = false) :
    n.handled? message = none := by
  unfold handled?
  split
  case h_1 => rw [h, Bool.false_and, if_neg Bool.false_ne_true]
  case h_2 => rfl

theorem handled?_of_superpeer (hm : message.mutation? = some (.ok m, isBackup))
    (h : n.isSuperpeer = true) :
    n.handled? message =
      if (isBackup || n.isPrimaryFor m.key) = true then some (m, isBackup) else none := by
  unfold handled?
  rw [hm]
  simp only [h, Bool.true_and]

end Node

/-- A copy for a superpeer that does not own the key, or the search for a spare peer. -/
def Message.IsHarmless (S : NodeSet) (target : NodeId) (message : Message) : Prop :=
  message = .searchForPeer ∨
    ∃ m : Mutation, message = m.message true ∧ m.Requestable ∧ ¬ S.Owns m.key target

/-- A request to the surroundings that has no effect on directories. -/
def Request.isHarmless : Request → Bool
  | .draw | .pause _ | .startWorker => true
  | _ => false

/-- The rest of a task that begins at a node in state `n`. It changes nothing and sends only what is
harmless until it comes to a goal. -/
inductive Progress.Tame (S : NodeSet) (goal : Node → Progress Message → Prop) :
    Node → Progress Message → Prop
  | goal {n : Node} {p : Progress Message} : goal n p → Tame S goal n p
  | call {n n' : Node} {target : NodeId} {message : Message}
      {k : Except NetError Message → Node → Progress Message} :
      n'.core = n.core → message.IsHarmless S target →
      (∀ reply next, Tame S goal next (k (.ok reply) next)) →
      Tame S goal n (.wait n' (.call target message) k)
  | ask {n n' : Node} {r : Request} {k : r.Answer → Node → Progress Message} :
      n'.core = n.core → r.isHarmless = true → (∀ x next, Tame S goal next (k x next)) →
      Tame S goal n (.wait n' r k)

/-- A task that is tame wherever it begins. -/
def Task.Tame (S : NodeSet) (goal : Node → Progress Message → Prop) (t : Task Message) : Prop :=
  ∀ n, (t n).Tame S goal n

/-- The end of a task with a reply that satisfies `post`. -/
def Replies (post : Message → Prop) (n : Node) (p : Progress Message) : Prop :=
  ∃ reply n', p = .done reply n' ∧ n'.core = n.core ∧ post reply

theorem Replies.done {post : Message → Prop} {reply : Message} {n : Node} (h : post reply) :
    Replies post n (.done reply n) := ⟨reply, n, rfl, rfl, h⟩

variable {S : NodeSet} {goal goal' : Node → Progress Message → Prop} {n : Node}

theorem Progress.Tame.mono {p : Progress Message} (h : p.Tame S goal n)
    (hgoal : ∀ n p, goal n p → goal' n p) : p.Tame S goal' n := by
  induction h with
  | goal h => exact .goal (hgoal _ _ h)
  | call hcore hmessage _ ih => exact .call hcore hmessage ih
  | ask hcore hr _ ih => exact .ask hcore hr ih

theorem Progress.Tame.congr {n' : Node} {p : Progress Message} (h : p.Tame S goal n)
    (hcore : n.core = n'.core) (hgoal : goal n p → goal n' p) : p.Tame S goal n' := by
  cases h with
  | goal h => exact .goal (hgoal h)
  | call hsame hmessage hrest => exact .call (hsame.trans hcore) hmessage hrest
  | ask hsame hr hrest => exact .ask (hsame.trans hcore) hr hrest

/-! ## Copies -/

/-- Sending copies to superpeers that do not own the key is tame if what follows is. -/
theorem tame_copyTo {m : Mutation} {backups : List NodeId} {t : Task Message} (hm : m.Requestable)
    (hbackups : ∀ b ∈ backups, ¬ S.Owns m.key b) (ht : t.Tame S goal) :
    (Protocol.copyTo (m.message true) backups >>= fun _ => t).Tame S goal := by
  induction backups with
  | nil => exact ht
  | cons b rest ih =>
    intro n
    have hharmless : (m.message true).IsHarmless S b :=
      .inr ⟨m, rfl, hm, hbackups b List.mem_cons_self⟩
    refine .call rfl hharmless fun reply next => ?_
    exact ih (fun x hx => hbackups x (List.mem_cons_of_mem b hx)) next

theorem Task.node_bind {α : Type} (f : Node → Task α) (n : Node) :
    (Task.node >>= f) n = f n n := rfl

theorem mutate_of_peer (m : Mutation) (isBackup : Bool) (h : n.isSuperpeer = false) :
    Protocol.mutate m isBackup n = .done .notSuperpeer n := by
  have hd : n.directory? = none := Option.isSome_eq_false_iff.mp h |> Option.isNone_iff_eq_none.mp
  unfold Protocol.mutate
  rw [Task.node_bind, hd]
  rfl

/-- What a superpeer does with a mutation until it first waits. -/
theorem mutate_of_superpeer (m : Mutation) (isBackup : Bool) {d : Directory}
    (hd : n.directory? = some d) :
    Protocol.mutate m isBackup n =
      if isBackup then .done .applied (n.mutate m)
      else if n.isPrimaryFor m.key then
        if (m.apply d).2 = .applied then
          (Protocol.replicate m >>= fun _ => return .applied : Task RequestStatus) (n.mutate m)
        else .done (m.apply d).2 (n.mutate m)
      else .done .notResponsible n := by
  have hchanged := Node.mapDirectory_apply (m := m) hd
  rw [← hchanged]
  unfold Protocol.mutate
  rw [Task.node_bind, hd]
  cases isBackup with
  | true => rfl
  | false =>
    simp only [Bool.false_eq_true, if_false]
    by_cases hprimary : n.isPrimaryFor m.key = true
    · rw [if_pos hprimary, if_pos hprimary]
      by_cases happlied : (m.apply d).2 = .applied
      · rw [if_pos happlied, happlied]
        rfl
      · rw [if_neg happlied]
        simp only [happlied, if_false]
        rfl
    · rw [if_neg hprimary, if_neg hprimary]
      rfl

/-- Handling a request or a copy: the node applies it or not, then everything is tame. -/
theorem tame_handleMessage (sender : NodeId) {message : Message} {m : Mutation} {isBackup : Bool}
    (hm : message.mutation? = some (.ok m, isBackup))
    (hproper : isBackup = false → n.isSuperpeer = true → n.isPrimaryFor m.key = true →
      ∀ b ∈ n.ring.backups n.me, ¬ S.Owns m.key b)
    {post : Message → Prop}
    (hpost : ∀ status, (status = .applied → n.handled? message = some (m, isBackup)) →
      post (.status status)) :
    (Protocol.handleMessage sender message n).Tame S (Replies post) (n.handle message) := by
  have hrequestable := (Mutation.of_mutation? hm).2
  rw [Protocol.handleMessage_of_mutation hm]
  show ((Protocol.mutate m isBackup n).bind _).Tame S (Replies post) _
  cases hd : n.directory? with
  | none =>
    have hrole : n.isSuperpeer = false := by rw [Node.isSuperpeer, hd]; rfl
    rw [mutate_of_peer m isBackup hrole, Node.handle, Node.handled?_of_peer message hrole]
    exact .goal (.done (hpost _ fun h => by cases h))
  | some d =>
    have hrole : n.isSuperpeer = true := by rw [Node.isSuperpeer, hd]; rfl
    have hhandled := Node.handled?_of_superpeer hm hrole
    rw [mutate_of_superpeer m isBackup hd, Node.handle]
    cases isBackup with
    | true =>
      rw [Bool.true_or, if_pos rfl] at hhandled
      rw [hhandled]
      exact .goal (.done (hpost _ fun _ => hhandled))
    | false =>
      rw [Bool.false_or] at hhandled
      rw [if_neg Bool.false_ne_true]
      by_cases hprimary : n.isPrimaryFor m.key = true
      · rw [if_pos hprimary] at hhandled ⊢
        rw [hhandled]
        by_cases happlied : (m.apply d).2 = .applied
        · rw [if_pos happlied]
          have hbackups := hproper rfl hrole hprimary
          have hdone : Task.Tame S (Replies post)
              (return .status .applied : Task Message) :=
            fun next => .goal (.done (hpost _ fun _ => hhandled))
          have hcopies := tame_copyTo hrequestable hbackups hdone (n.mutate m)
          show (((Protocol.copyTo (m.message true) ((n.mutate m).ring.backups (n.mutate m).me)
            (n.mutate m)).bind _).bind _).Tame S (Replies post) (n.mutate m)
          rw [Node.ring_mutate, Node.me_mutate, Progress.bind_bind]
          exact hcopies
        · rw [if_neg happlied]
          exact .goal (.done (hpost _ fun h => absurd h happlied))
      · rw [if_neg hprimary] at hhandled ⊢
        rw [hhandled]
        exact .goal (.done (hpost _ fun h => by cases h))

/-- A superpeer that looks for a spare peer changes nothing. -/
theorem handleMessage_search (sender : NodeId) (n : Node) :
    (∃ peer, Protocol.handleMessage sender .searchForPeer n = .done (.foundPeer peer) n) ∨
      ∃ k : Nat → Task Message, Protocol.handleMessage sender .searchForPeer n = .wait n .draw k ∧
        ∀ x next, ∃ peer, k x next = .done (.foundPeer peer) next := by
  have hhandle : Protocol.handleMessage sender .searchForPeer n =
      (Task.choose n.ring.peers.toList n).bind fun peer => pure (.foundPeer peer) := rfl
  rw [hhandle]
  cases n.ring.peers.toList with
  | nil => exact .inl ⟨none, rfl⟩
  | cons peer rest => exact .inr ⟨_, rfl, fun _ _ => ⟨_, rfl⟩⟩

/-! ## Threads -/

/-- Anything but the last word in a promotion or an admission. -/
def Cue.isPlain : Cue → Bool
  | .reply (.promotionResult true) => false
  | .reply (.joinAccepted _) => false
  | _ => true

/-- What sets a tame task going at home: no message, no objects that were moved, and not the last
word in a promotion or an admission. -/
def Cue.isSilent : Cue → Bool
  | .message .. => false
  | .answer r _ => r.isHarmless
  | cue => cue.isPlain

namespace Segment

variable {g : Segment}

/-- The node after the segment, as far as directories go. -/
def result (g : Segment) : Node :=
  match g.applied? with
  | some m => g.before.mutate m
  | none => g.before

theorem isPlain_of_silent (h : g.cue.isSilent = true) : g.cue.isPlain = true := by
  obtain ⟨node, cue, before, asked⟩ := g
  cases cue with
  | message => cases h
  | answer => rfl
  | _ => exact h

theorem applied?_of_silent (h : g.cue.isSilent = true) : g.applied? = none := by
  obtain ⟨node, cue, before, asked⟩ := g
  cases cue with
  | message => cases h
  | answer r x =>
    cases r with
    | handOver => cases h
    | _ => rfl
  | _ => rfl

theorem handled?_of_silent (h : g.cue.isSilent = true) : g.handled? = none := by
  obtain ⟨node, cue, before, asked⟩ := g
  cases cue with
  | message => cases h
  | _ => rfl

end Segment

/-- A task that has done what it had to do and only replies. -/
def Task.Concludes (t : Task Message) : Prop :=
  ∀ n, ∃ peer, t n = .done (.foundPeer peer) n

/-- A tame task of a node `home`, for which `callers` wait: it goes on at home, or waits for a
harmless message to be handled elsewhere. -/
inductive Thread.Tame (S : NodeSet) (goal : Node → Progress Message → Prop) (home : NodeId)
    (callers : List Frame) : Thread → Prop
  | home {cue : Cue} {task : Task Message} :
      cue.isSilent = true → task.Tame S goal → Tame S goal home callers ⟨home, cue, task, callers⟩
  | visiting {sender target : NodeId} {message : Message}
      {resume : Except NetError Message → Task Message} :
      message.IsHarmless S target → (∀ reply, (resume (.ok reply)).Tame S goal) →
      Tame S goal home callers (.arrival sender target message (⟨home, resume⟩ :: callers))
  | abroad {node : NodeId} {cue : Cue} {task : Task Message}
      {resume : Except NetError Message → Task Message} :
      cue.isSilent = true → task.Concludes → (∀ reply, (resume (.ok reply)).Tame S goal) →
      Tame S goal home callers ⟨node, cue, task, ⟨home, resume⟩ :: callers⟩

theorem Thread.Tame.mono {home : NodeId} {callers : List Frame} {t : Thread}
    (h : t.Tame S goal home callers) (hgoal : ∀ n p, goal n p → goal' n p) :
    t.Tame S goal' home callers := by
  cases h with
  | home hcue htask => exact .home hcue fun n => (htask n).mono hgoal
  | visiting hmessage hresume =>
    exact .visiting hmessage fun reply n => (hresume reply n).mono hgoal
  | abroad hcue htask hresume =>
    exact .abroad hcue htask fun reply n => (hresume reply n).mono hgoal

/-- A thread that waits for its surroundings goes on where it is. -/
theorem Thread.next_of_pause {t : Thread} {r : Request} {k : r.Answer → Task Message}
    (hr : r.isHarmless = true) (x : Oracle) :
    t.next x (.wait n r k) = .inr ⟨t.node, .answer r (x.answer r), k (x.answer r), t.callers⟩ := by
  cases r <;> first | rfl | cases hr

/-- What a tame task that is not at its goal does next. -/
theorem Progress.Tame.next {p : Progress Message} {home : NodeId} {callers : List Frame}
    {t : Thread} (h : p.Tame S goal n) (hnode : t.node = home) (hcallers : t.callers = callers)
    (x : Oracle) :
    goal n p ∨ p.state.core = n.core ∧
      ∃ t', t.next x p = .inr t' ∧ t'.Tame S goal home callers := by
  subst hnode hcallers
  cases h with
  | goal h => exact .inl h
  | call hcore hmessage hrest =>
    exact .inr ⟨hcore, _, rfl, .visiting hmessage fun reply => hrest reply⟩
  | @ask _ n' r k hcore hr hrest =>
    exact .inr ⟨hcore, _, Thread.next_of_pause hr x, .home hr fun next => hrest _ next⟩

end ChunkDirectory
