import ChunkDirectory.Arrangement
import ChunkDirectory.Error
import ChunkDirectory.Node.Basic

/-!
# Tasks of a node

What a node does is written as tasks. A task works on the node's state and from time to time puts a
request to its surroundings: a message to another node, a question to the storage layer, a random
number or order, a pause. While it waits the node may do other things, so it goes on from whatever
state the node is in when the answer arrives. Between two requests it runs undisturbed.

Work without a bound known in advance, such as handling all queued failures or repeating a request
until it is answered, is not unfolded: a task enters it by name as a routine, and what a routine
does is itself a task. Every task is thus a finite tree, and whether a routine ends is a question
about runs.
-/

namespace ChunkDirectory

/-- Work that a node starts and does not wait for. -/
inductive Background where
  /-- Handles a failed node. -/
  | handleFailure (failed : NodeId)
  /-- Promotes a peer on behalf of another superpeer. -/
  | promoteForOther (hops : UInt16)
deriving DecidableEq

/-- What a task asks of its surroundings. -/
inductive Request where
  /-- Sends a message and waits for the reply. -/
  | call (node : NodeId) (message : Message)
  /-- Sends a message of which only the delivery matters. -/
  | send (node : NodeId) (message : Message)
  /-- Moves every object stored on this node to another. -/
  | handOver (node : NodeId)
  /-- Tells the storage layer that a node is gone. -/
  | reportFailure (node : NodeId) (wasSuperpeer : Bool)
  /-- Asks whether a node is registered as holding data. -/
  | available (node : NodeId)
  /-- Rebuilds the primary copies of a failed node's range from copies on this node. -/
  | recover (failed : NodeId) (range : RangeStart)
  /-- Draws a random number. -/
  | draw
  /-- Draws a random order of so many things. -/
  | shuffle (size : Nat)
  /-- Waits. -/
  | pause (duration : Duration)
  /-- Waits while another task is handling failures. -/
  | yieldToHandler
  /-- Starts background work. -/
  | spawn (work : Background)
  /-- Starts the upkeep worker anew. -/
  | startWorker
deriving DecidableEq

/-- What is answered to a request. -/
abbrev Request.Answer : Request → Type
  | .call .. => Except NetError Message
  | .send .. => Except NetError Unit
  | .handOver _ => Bool
  | .reportFailure .. => Unit
  | .available _ => Bool
  | .recover .. => Bool
  | .draw => Nat
  | .shuffle size => Arrangement size
  | .pause _ => Unit
  | .yieldToHandler => Unit
  | .spawn _ => Unit
  | .startWorker => Unit

/-- A request that is repeated until a superpeer gives a definitive answer. -/
structure Inquiry where
  operation : Operation
  /-- The position whose owner has to answer. -/
  key : NodeId
  message : Message
  /-- Whether the owner is looked up with the help of other superpeers. -/
  verify : Bool
  /-- How many attempts were made. -/
  attempts : Nat
deriving DecidableEq

/-- An attempt to join through a superpeer. -/
structure JoinAttempt where
  bootstrap : NodeId
  isSuperpeer : Bool
  /-- How many attempts were made. -/
  attempts : Nat
deriving DecidableEq

/-- Work without a bound known in advance. -/
inductive Routine where
  /-- Handles queued failures until the queue is empty. -/
  | drainQueue
  /-- Handles queued failures unless another task does. -/
  | processFailures
  /-- Waits for its turn and handles queued failures. -/
  | drainFailures
  /-- Makes the next attempt of a repeated request. -/
  | inquire (inquiry : Inquiry)
  /-- Makes the next attempt to join. -/
  | join (attempt : JoinAttempt)
deriving DecidableEq

/-- What a routine results in. -/
abbrev Routine.Result : Routine → Type
  | .drainQueue => Unit
  | .processFailures => Unit
  | .drainFailures => Unit
  | .inquire _ => Except LookupError Message
  | .join _ => Except LookupError Unit

/-- The rest of a task: its end, or a request or routine and how it goes on after it. -/
inductive Progress (α : Type) where
  | done (result : α) (node : Node)
  | wait (node : Node) (request : Request) (resume : request.Answer → Node → Progress α)
  | enter (node : Node) (routine : Routine) (resume : routine.Result → Node → Progress α)

/-- A task: from the state in which it starts, what it does. -/
def Task (α : Type) : Type := Node → Progress α

/-- Continues with another task. -/
def Progress.bind {α β : Type} (p : Progress α) (f : α → Task β) : Progress β :=
  match p with
  | .done a n => f a n
  | .wait n r k => .wait n r fun x n' => (k x n').bind f
  | .enter n r k => .enter n r fun x n' => (k x n').bind f

namespace Task

instance : Monad Task where
  pure a := fun n => .done a n
  bind t f := fun n => (t n).bind f

/-- The node's state. -/
def node : Task Node := fun n => .done n n

/-- Changes the node's state. -/
def modify (f : Node → Node) : Task Unit := fun n => .done () (f n)

/-- Changes the node's view of the ring. -/
def modifyRing (f : Ring → Ring) : Task Unit := modify (·.mapRing f)

/-- Puts a request and waits for the answer. -/
def ask (r : Request) : Task r.Answer := fun n => .wait n r fun x n' => .done x n'

/-- Goes through a routine. -/
def routine (r : Routine) : Task r.Result := fun n => .enter n r fun x n' => .done x n'

def call (target : NodeId) (m : Message) : Task (Except NetError Message) := ask (.call target m)

def send (target : NodeId) (m : Message) : Task (Except NetError Unit) := ask (.send target m)

def spawn (work : Background) : Task Unit := ask (.spawn work)

/-- Queues a failed node. -/
def enqueue (failed : NodeId) : Task Unit := modify (·.enqueue failed)

/-- Queues a failed node and handles it in the background. -/
def spawnFailureHandling (failed : NodeId) : Task Unit := do
  enqueue failed
  spawn (.handleFailure failed)

/-- Handles a failed node and every failure found on the way. -/
def failureHandling (failed : NodeId) : Task Unit := do
  enqueue failed
  routine .processFailures

/-- A random element; nothing is drawn for an empty list. -/
def choose {α : Type} (l : List α) : Task (Option α) := do
  match l with
  | [] => return none
  | _ => return l[(← ask .draw) % l.length]?

/-- A random order of a list, which may be any; nothing is drawn for fewer than two elements. -/
def shuffle {α : Type} (l : List α) : Task (List α) := do
  if l.length ≤ 1 then return l
  else return (← ask (.shuffle l.length)).apply

end Task

end ChunkDirectory
