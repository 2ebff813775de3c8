import ChunkDirectory.Protocol.Upkeep

/-!
# Overlays

A whole overlay: its nodes, the network and storage between them, and the time. The network delivers
a message by having its receiver handle it at once. Rules can lose messages, answer in a node's
place, or let something else happen first. Work started in the background waits in a queue, and
upkeep workers have a time at which their next round is due.

A node that left, or was replaced by one with the same identifier, keeps its state, since tasks of
its own may still be waiting, and the worker of a replaced node goes on with it. Nodes are therefore
told apart by a number in the order of their creation.
-/

namespace ChunkDirectory

/-- What can be said about a node from outside. -/
inductive Condition where
  /-- No message reaches the node. -/
  | down
  /-- The node is registered as holding data. -/
  | holdsData
  /-- The node's objects cannot be moved to another. -/
  | handOverFails
  /-- Nothing can be rebuilt on the node. -/
  | recoveryFails
deriving DecidableEq

/-- What the sender of a message is made to see. -/
inductive Verdict where
  | reply (message : Message)
  | timeout
  | unreachable
deriving DecidableEq

namespace Verdict

/-- The outcome of a message to `receiver`. -/
def outcome (receiver : NodeId) : Verdict → Except NetError Message
  | .reply message => .ok message
  | .timeout => .error (.timeout receiver)
  | .unreachable => .error (.unreachable receiver .refused)

end Verdict

/-- What becomes of a message that a rule catches. -/
inductive Treatment where
  | deliver
  /-- The sender sees `verdict`, whether the message is delivered or not. -/
  | decide (verdict : Verdict) (delivered : Bool)
deriving DecidableEq

/-- What is done to an overlay. `ρ` is what tasks run from outside result in. -/
inductive Step (ρ : Type) where
  /-- Adds a node, which joins unless told otherwise. Its contact is the given one, else the first
  superpeer that joined, else itself. -/
  | add (config : Config) (contact : Option NodeId) (joins holdsData : Bool)
  /-- Takes a node away without notice. -/
  | fail (id : NodeId)
  /-- Changes of which nodes a condition holds. -/
  | change (condition : Condition) (add remove : List NodeId)
  /-- Adds a rule for the messages that `applies` holds of: the first `skip` ones are not affected,
  then `times` ones, or all. Before a message is treated, steps are taken. -/
  | rule (applies : NodeId → NodeId → Message → Bool) (skip : Nat) (times : Option Nat)
      (before : List (Step ρ)) (treatment : Treatment)
  | clearRules
  /-- Rounds of upkeep on one node. -/
  | tick (id : NodeId) (times : Nat)
  /-- Rounds in which each node does its upkeep and then handles queued failures. -/
  | stabilize (rounds : Nat)
  /-- Stops a node's upkeep worker. -/
  | shutdown (id : NodeId)
  /-- Lets time pass. -/
  | advance (duration : Duration)
  /-- Runs a task on a node. -/
  | run (id : NodeId) (task : Task ρ)
  /-- Has a node run a task of its own and waits for its end. The task is taken up after the background
  work that waits, and the work it starts is done before its end is seen. -/
  | await (id : NodeId) (task : Task ρ)

/-- What a step results in. -/
inductive StepResult (ρ : Type) where
  | done
  | flag (b : Bool)
  /-- The step concerns a node that is not running. -/
  | noSuchNode
  | notJoined (error : LookupError)
  | value (result : ρ)

/-- What is seen of a step, besides its result. -/
inductive Event (ρ : Type) where
  | called (sender receiver : NodeId) (message : Message) (outcome : Except NetError Message)
  | sent (sender receiver : NodeId) (message : Message) (outcome : Except NetError Unit)
  | handedOver (node target : NodeId) (succeeded : Bool)
  | reportedFailure (node failed : NodeId) (wasSuperpeer : Bool)
  | askedAvailable (node asked : NodeId) (answer : Bool)
  | recovered (node failed : NodeId) (range : RangeStart) (succeeded : Bool)
  /-- A step that a rule took. -/
  | tookStep (result : StepResult ρ)

/-- A rule as it stands. -/
structure Rule (ρ : Type) where
  applies : NodeId → NodeId → Message → Bool
  /-- How many messages are still not affected. -/
  skip : Nat
  /-- How many messages are still treated, without limit if `none`. -/
  times : Option Nat
  before : List (Step ρ)
  treatment : Treatment

namespace Rule

variable {ρ : Type}

/-- Whether the rule is concerned with a message. -/
def catches (r : Rule ρ) (sender receiver : NodeId) (m : Message) : Bool :=
  r.times ≠ some 0 && r.applies sender receiver m

end Rule

/-- A running upkeep worker. -/
structure Worker where
  /-- The number of the node it works on. -/
  node : Nat
  /-- When the next round begins, in nanoseconds since the start; `none` during a round. -/
  due : Option Nat
  state : UpkeepState
deriving DecidableEq

/-- A running node. -/
structure Member where
  /-- The node's number. -/
  node : Nat
  /-- What is carried between the rounds of upkeep that are asked for from outside. -/
  upkeep : UpkeepState
deriving DecidableEq

/-- The state of an overlay. -/
structure Overlay (ρ : Type) where
  /-- Every node that was ever created, by its number. -/
  nodes : Array Node
  members : SortedMap NodeId Member
  /-- The upkeep workers, at most one a node, in the order in which their times were set. -/
  workers : List Worker
  conditions : List (Condition × NodeId)
  rules : List (Rule ρ)
  /-- Random numbers to come; all further ones are 0. -/
  numbers : List Nat
  /-- The order that a random number stands for. -/
  arrange : Nat → (size : Nat) → Arrangement size
  /-- Background work in the order it was started, with the number of its node. -/
  queue : List (Nat × Background)
  /-- Nanoseconds since the start. -/
  clock : Nat
  /-- The first superpeer that joined. -/
  founder : Option NodeId
  /-- What happened, the latest first. -/
  events : List (Event ρ)

namespace Overlay

variable {ρ : Type}

/-- An overlay without nodes, in which a random number stands for so many turns. -/
def empty (numbers : List Nat) : Overlay ρ where
  nodes := #[]
  members := ∅
  workers := []
  conditions := []
  rules := []
  numbers
  arrange := .turn
  queue := []
  clock := 0
  founder := none
  events := []

/-- Whether a condition holds of a node. -/
def holds (o : Overlay ρ) (condition : Condition) (id : NodeId) : Bool :=
  (condition, id) ∈ o.conditions

/-- Lets a condition hold of more and of fewer nodes. -/
def change (o : Overlay ρ) (condition : Condition) (add remove : List NodeId) : Overlay ρ :=
  { o with
    conditions := (add.map (condition, ·) ++ o.conditions).filter fun c =>
      c.1 ≠ condition || !remove.contains c.2 }

/-- A running node with its number and state. -/
def running? (o : Overlay ρ) (id : NodeId) : Option (Member × Node) := do
  let member ← o.members.get? id
  return (member, ← o.nodes[member.node]?)

/-- A running node that messages reach. -/
def reachable? (o : Overlay ρ) (id : NodeId) : Option (Member × Node) :=
  if o.holds .down id then none else o.running? id

/-- Sets the state of a node. -/
def keep (o : Overlay ρ) (i : Nat) (n : Node) : Overlay ρ := { o with nodes := o.nodes.setIfInBounds i n }

/-- The state of a node that last had state `n`. -/
def nodeAt (o : Overlay ρ) (i : Nat) (n : Node) : Node := o.nodes[i]?.getD n

def modifyMember (o : Overlay ρ) (id : NodeId) (f : Member → Member) : Overlay ρ :=
  { o with members := o.members.modify id f }

/-- Creates a node in place of any other with its identifier, and gives its number. -/
def create (o : Overlay ρ) (config : Config) (contact : Option NodeId) (holdsData : Bool) :
    Nat × Overlay ρ :=
  let id := config.nodeId
  let bootstrap := contact.getD (o.founder.getD id)
  let o := o.change .down [] [id]
  let o := if holdsData then o.change .holdsData [id] [] else o
  let i := o.nodes.size
  (i, { o with
    nodes := o.nodes.push (.new { config with bootstrap })
    members := o.members.insert id ⟨i, .start⟩ })

/-- Notes that a node joined. -/
def noteJoined (o : Overlay ρ) (config : Config) : Overlay ρ :=
  if config.role = .superpeer then { o with founder := o.founder.or (some config.nodeId) } else o

/-- Stops the upkeep worker of a node. -/
def stopWorker (o : Overlay ρ) (i : Nat) : Overlay ρ :=
  { o with workers := o.workers.filter (·.node ≠ i) }

/-- Starts the upkeep worker of a node anew. -/
def startWorker (o : Overlay ρ) (i : Nat) (n : Node) : Overlay ρ :=
  let due := o.clock + n.config.sleepInterval.nanos
  { o with workers := (o.stopWorker i).workers ++ [⟨i, some due, .start⟩] }

/-- Stops the upkeep worker of a running node. -/
def shutDown (o : Overlay ρ) (id : NodeId) : Overlay ρ :=
  match o.members.get? id with
  | some member => o.stopWorker member.node
  | none => o

/-- Takes a node away. -/
def fail (o : Overlay ρ) (id : NodeId) : Overlay ρ :=
  { (o.shutDown id).change .down [id] [] with members := o.members.erase id }

/-- The worker whose round is due first, no later than `limit`, with the time when it is. -/
def nextDue (o : Overlay ρ) (limit : Nat) : Option (Nat × Worker) :=
  let due := o.workers.filterMap fun w => (w.due.filter (· ≤ limit)).map (·, w)
  due.foldl
    (fun first next =>
      match first with
      | some w => if next.1 < w.1 then some next else some w
      | none => some next)
    none

/-- Begins a round of a worker. -/
def beginRound (o : Overlay ρ) (i : Nat) : Overlay ρ :=
  { o with workers := o.workers.map fun w => if w.node = i then { w with due := none } else w }

/-- Ends a round of a worker that leaves it in `state`. A worker that was stopped or started anew
meanwhile is not concerned. -/
def endRound (o : Overlay ρ) (i : Nat) (n : Node) (state : UpkeepState) : Overlay ρ :=
  if o.workers.any fun w => w.node = i && w.due = none then
    let due := o.clock + n.config.sleepInterval.nanos
    { o with workers := (o.stopWorker i).workers ++ [⟨i, some due, state⟩] }
  else o

/-- Draws a random number. -/
def draw (o : Overlay ρ) : Nat × Overlay ρ :=
  match o.numbers with
  | [] => (0, o)
  | x :: rest => (x, { o with numbers := rest })

/-- Takes note of an event. -/
def record (o : Overlay ρ) (e : Event ρ) : Overlay ρ := { o with events := e :: o.events }

/-- Puts a message through the rules: the first one that catches it counts it, and treats it unless
it is still to be skipped. -/
def applyRules (sender receiver : NodeId) (m : Message) :
    List (Rule ρ) → Option (Rule ρ) × List (Rule ρ)
  | [] => (none, [])
  | r :: rest =>
    if r.catches sender receiver m then
      match r.skip with
      | skip + 1 => (none, { r with skip } :: rest)
      | 0 => (some r, { r with times := r.times.map (· - 1) } :: rest)
    else
      let (found, rest) := applyRules sender receiver m rest
      (found, r :: rest)

/-- Finds the rule that treats a message. -/
def treat (o : Overlay ρ) (sender receiver : NodeId) (m : Message) : Option (Rule ρ) × Overlay ρ :=
  let (found, rules) := applyRules sender receiver m o.rules
  (found, { o with rules })

end Overlay

end ChunkDirectory
