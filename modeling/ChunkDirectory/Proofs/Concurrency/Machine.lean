import ChunkDirectory.Protocol.Dispatch

/-!
# Tasks that interleave

One operation, such as a promotion, is under way while nodes handle requests. Whenever a task waits
for the network, for storage or for anything else, other tasks may go on, on the same node and on
others; between two waits it runs undisturbed. Every message is delivered, and the reply as well, at
any later time.

A run is given by its moves: which task goes on next, what it is answered by its surroundings, and
when a request arrives. `Machine.run` follows them, so that a statement about all moves is one about
all interleavings. What happened is kept as a list of segments, the stretches between two waits.
-/

namespace ChunkDirectory

/-- What sets a task going. -/
inductive Cue where
  /-- A message is handled. -/
  | message (sender : NodeId) (message : Message)
  /-- The reply to a message has come. -/
  | reply (message : Message)
  | answer (request : Request) (answer : request.Answer)
  /-- The task begins, or enters a routine. -/
  | start

/-- A task that waits for the reply to a message it sent. -/
structure Frame where
  node : NodeId
  resume : Except NetError Message → Task Message

/-- A task that can go on, and the tasks that wait for it. -/
structure Thread where
  node : NodeId
  cue : Cue
  task : Task Message
  callers : List Frame

/-- A request from outside that is being handled. -/
structure Job where
  node : NodeId
  message : Message
  thread : Thread

/-- A stretch of a task between two waits. -/
structure Segment where
  node : NodeId
  cue : Cue
  /-- The node's state when it began. -/
  before : Node
  /-- What the task asked for at its end. -/
  asked : Option Request

/-- An operation under way among requests. -/
structure Machine where
  nodes : NodeId → Node
  /-- The operation, until it has ended. -/
  operation : Option Thread
  requests : List Job
  /-- What happened, the earliest first. -/
  trace : List Segment
  /-- The requests that were answered, with node and reply. -/
  answers : List (NodeId × Message × Message)

/-- What the surroundings of a node answer: storage whether it succeeded, chance a number or an
order. -/
structure Oracle where
  flag : Bool
  number : Nat
  order : (size : Nat) → Arrangement size

/-- What happens next. -/
inductive Move where
  /-- The operation goes on. -/
  | operate (oracle : Oracle)
  /-- The handling of the request with this index goes on. -/
  | serve (index : Nat) (oracle : Oracle)
  /-- A request reaches a node. -/
  | request (sender node : NodeId) (message : Message)

namespace Oracle

/-- Storage succeeds and chance changes nothing. -/
def plain : Oracle := ⟨true, 0, .turn 0⟩

/-- The answer to what a task asks of its surroundings other than other nodes. -/
def answer (x : Oracle) : (r : Request) → r.Answer
  | .call target _ => .error (.timeout target)
  | .send target _ => .error (.timeout target)
  | .handOver _ => x.flag
  | .reportFailure .. => ()
  | .available _ => x.flag
  | .recover .. => x.flag
  | .draw => x.number
  | .shuffle size => x.order size
  | .pause _ => ()
  | .yieldToHandler => ()
  | .spawn _ => ()
  | .startWorker => ()

end Oracle

namespace Progress

variable {α : Type}

/-- The node's state at the end of a segment. -/
def state : Progress α → Node
  | .done _ n => n
  | .wait n _ _ => n
  | .enter n _ _ => n

/-- What is asked for at the end of a segment. -/
def asked : Progress α → Option Request
  | .done .. => none
  | .wait _ r _ => some r
  | .enter .. => none

end Progress

namespace Thread

/-- A message that arrives at a node, for which `callers` wait. -/
def arrival (sender node : NodeId) (m : Message) (callers : List Frame) : Thread :=
  ⟨node, .message sender m, Protocol.handleMessage sender m, callers⟩

/-- What follows a segment: the final reply, or the thread as it goes on. -/
def next (t : Thread) (x : Oracle) : Progress Message → Message ⊕ Thread
  | .done a _ =>
    match t.callers with
    | [] => .inl a
    | f :: rest => .inr ⟨f.node, .reply a, f.resume (.ok a), rest⟩
  | .wait n (.call target m) k => .inr (arrival n.me target m (⟨t.node, k⟩ :: t.callers))
  | .wait n (.send target m) k =>
    .inr (arrival n.me target m (⟨t.node, fun a => k (a.map fun _ => ())⟩ :: t.callers))
  | .wait _ r k => .inr ⟨t.node, .answer r (x.answer r), k (x.answer r), t.callers⟩
  | .enter _ r k => .inr ⟨t.node, .start, fun n => (r.task n).bind k, t.callers⟩

end Thread

namespace Machine

/-- The next segment of a thread. -/
def segment (σ : Machine) (t : Thread) : Segment :=
  let n := σ.nodes t.node
  ⟨t.node, t.cue, n, (t.task n).asked⟩

/-- The machine after the next segment of a thread, which is not put back. -/
def advance (σ : Machine) (t : Thread) : Machine :=
  { σ with
    nodes := fun id => if id = t.node then (t.task (σ.nodes t.node)).state else σ.nodes id
    trace := σ.trace ++ [σ.segment t] }

/-- What follows the next segment of a thread. -/
def next (σ : Machine) (t : Thread) (x : Oracle) : Message ⊕ Thread :=
  t.next x (t.task (σ.nodes t.node))

def step (σ : Machine) : Move → Machine
  | .operate x =>
    match σ.operation with
    | none => σ
    | some t => { σ.advance t with operation := (σ.next t x).getRight? }
  | .serve i x =>
    match σ.requests[i]? with
    | none => σ
    | some job =>
      match σ.next job.thread x with
      | .inl reply =>
        { σ.advance job.thread with
          requests := σ.requests.eraseIdx i
          answers := σ.answers ++ [(job.node, job.message, reply)] }
      | .inr thread =>
        { σ.advance job.thread with requests := σ.requests.set i { job with thread } }
  | .request sender id m =>
    { σ with requests := σ.requests ++ [⟨id, m, .arrival sender id m []⟩] }

/-- Follows moves. -/
def run (σ : Machine) (moves : List Move) : Machine := moves.foldl step σ

end Machine

/-! ## What is changed -/

/-- Whether a message asks for a change of the directory on behalf of a client. -/
def Message.isRequest : Message → Bool
  | .initRange _ _ _ isBackup => !isBackup
  | .migrate _ _ isBackup => !isBackup
  | .migrateRange _ _ _ isBackup => !isBackup
  | .remove _ isBackup => !isBackup
  | .insertId _ _ isBackup => !isBackup
  | _ => false

/-- The mutation that a node applies because of a message, and whether it is a copy. A superpeer
applies every copy, and a request if it is primary for the key. -/
def Node.handled? (n : Node) (message : Message) : Option (Mutation × Bool) :=
  match message.mutation? with
  | some (.ok m, isBackup) =>
    if n.isSuperpeer && (isBackup || n.isPrimaryFor m.key) then some (m, isBackup) else none
  | _ => none

namespace Segment

/-- The mutation that is applied because of a message, and whether it is a copy. -/
def handled? (g : Segment) : Option (Mutation × Bool) :=
  match g.cue with
  | .message _ message => g.before.handled? message
  | _ => none

/-- The mutation that is applied in a segment: one that is handled, or the hand-over of all objects
once they are moved. -/
def applied? (g : Segment) : Option Mutation :=
  match g.cue with
  | .message _ message => (g.before.handled? message).map (·.1)
  | .answer (.handOver target) true => some (.updateAll g.node target)
  | _ => none

/-- The segment in which a superpeer offers a part of its range to a peer. -/
def IsOffer (g : Segment) (owner candidate : NodeId) : Prop :=
  g.node = owner ∧
    ∃ snapshot replacement, g.asked = some (.call candidate (.promotePeer snapshot replacement))

/-- The segment in which the superpeer gives up that part. -/
def IsCommit (g : Segment) (owner : NodeId) : Prop :=
  g.node = owner ∧ g.cue = .reply (.promotionResult true)

/-- The segment in which a superpeer decides about a newcomer. -/
def IsWelcome (g : Segment) (owner newcomer : NodeId) : Prop :=
  g.node = owner ∧ g.cue = .message newcomer (.join newcomer true)

/-- The segment in which a newcomer takes its place. -/
def IsInstallation (g : Segment) (newcomer : NodeId) : Prop :=
  g.node = newcomer ∧ ∃ snapshot, g.cue = .reply (.joinAccepted snapshot)

end Segment

/-- What a node applied, in order. -/
def appliedBy (id : NodeId) (trace : List Segment) : List Mutation :=
  (trace.filter (·.node = id)).filterMap Segment.applied?

end ChunkDirectory
