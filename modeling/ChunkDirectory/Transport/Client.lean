import ChunkDirectory.Error
import ChunkDirectory.NodeSet
import ChunkDirectory.Transport.Connections
import ChunkDirectory.Wire.Message

/-!
# Calls over the network

How one node calls others. A call makes up to three attempts, each with a connection of its own, and
ends with the first reply or with the error of the last attempt. An attempt fails at once when the
node's address is unknown or too many connections to the node are open; otherwise it takes a slot and
ends in whatever way the connection ends. The slot is given back later. A call may also be given up
by whoever made it, at any time; a connection that is open then is closed.

The client changes by events: a call begins an attempt, an attempt ends, a call is given up, a slot
is given back. They may come in any order, so any number of calls can be under way.
-/

namespace ChunkDirectory

/-- How an attempt that took a slot ends. -/
inductive Exchange where
  /-- No connection was made. -/
  | refused
  /-- No connection, no way for the request or no answer came about in time. -/
  | silent
  /-- The connection broke on the way of the request or of the answer. -/
  | broken
  /-- Everything the node sent until it closed the connection. -/
  | received (bytes : List UInt8)
deriving DecidableEq

namespace Exchange

/-- What an attempt comes to. Closing a connection without an answer counts as breaking it. -/
def result (node : NodeId) : Exchange → Except NetError Message
  | .refused => .error (.unreachable node .refused)
  | .silent => .error (.timeout node)
  | .broken => .error (.unreachable node .reset)
  | .received [] => .error (.unreachable node .endOfFile)
  | .received bytes =>
    match Wire.decodeMessage bytes with
    | some reply => .ok reply
    | none => .error (.unreachable node .malformedReply)

/-- Whether a connection broke after it was made. -/
def isLost : Exchange → Bool
  | .broken => true
  | .received [] => true
  | _ => false

end Exchange

/-- Where a call stands, with the number of its attempts that failed. -/
inductive CallState where
  | pausing (failed : Nat)
  /-- An attempt holds a slot. -/
  | connected (failed : Nat)
  | answered (reply : Message)
  | gaveUp (error : NetError)
  /-- Nobody waits for the call any more. -/
  | dropped
deriving DecidableEq

/-- A call under way. -/
structure Call where
  node : NodeId
  message : Message
  state : CallState
deriving DecidableEq

namespace Call

/-- How many attempts a call makes. -/
def maxAttempts : Nat := 3

/-- How long a call pauses after failed attempts, in milliseconds: a tenth of a second after the
first one, and each time twice as long. -/
def pauseAfter : Nat → Nat
  | 0 => 0
  | 1 => 100
  | failed + 2 => 2 * pauseAfter (failed + 1)

/-- How long an attempt waits for an answer, in milliseconds. -/
def patience : Nat := 5000

def start (node : NodeId) (message : Message) : Call := ⟨node, message, .pausing 0⟩

/-- Another attempt failed. -/
def fail (call : Call) (failed : Nat) (e : NetError) : Call :=
  { call with
    state := if failed + 1 < maxAttempts then .pausing (failed + 1) else .gaveUp e }

end Call

/-- A node as it calls others. -/
structure Client where
  me : NodeId
  /-- The nodes whose addresses are known. -/
  known : NodeSet
  connections : Connections
  /-- Slots of ended attempts that are still to be given back. -/
  outstanding : List NodeId
  /-- The nodes to which connections broke, in order. -/
  lost : List NodeId
  calls : List Call
deriving DecidableEq

namespace Client

/-- What happens to a client. -/
inductive Event where
  /-- A call begins its next attempt. -/
  | attempt (call : Nat)
  /-- The attempt of a call ends. -/
  | ended (call : Nat) (exchange : Exchange)
  /-- A call is given up by whoever made it. -/
  | dropped (call : Nat)
  /-- A slot is given back. -/
  | released (node : NodeId)
deriving DecidableEq

/-- A client that makes its first calls. -/
def start (me : NodeId) (known : NodeSet) (calls : List Call) : Client where
  me
  known
  connections := .none
  outstanding := []
  lost := []
  calls

def setCall (c : Client) (i : Nat) (call : Call) : Client := { c with calls := c.calls.set i call }

/-- Begins an attempt after `failed` ones. -/
def attempt (c : Client) (i : Nat) (call : Call) (failed : Nat) : Client :=
  if !c.known.contains call.node then
    c.setCall i (call.fail failed (.unreachable call.node .noAddress))
  else
    match c.connections.acquire call.node with
    | none => c.setCall i (call.fail failed (.unreachable call.node .connectionLimit))
    | some connections =>
      { c with connections }.setCall i { call with state := .connected failed }

/-- Closes a connection. Its slot is to be given back. -/
def close (c : Client) (node : NodeId) : Client :=
  { c with outstanding := c.outstanding ++ [node] }

/-- Ends an attempt after `failed` ones. -/
def finish (c : Client) (i : Nat) (call : Call) (failed : Nat) (x : Exchange) : Client :=
  let c :=
    { c.close call.node with lost := if x.isLost then c.lost ++ [call.node] else c.lost }
  match x.result call.node with
  | .ok reply => c.setCall i { call with state := .answered reply }
  | .error e => c.setCall i (call.fail failed e)

/-- Gives a call up. -/
def drop (c : Client) (i : Nat) (call : Call) : Client :=
  match call.state with
  | .pausing _ => c.setCall i { call with state := .dropped }
  | .connected _ => (c.close call.node).setCall i { call with state := .dropped }
  | _ => c

/-- The client after an event. An event that does not fit where a call stands changes nothing. -/
def step (c : Client) : Event → Client
  | .attempt i =>
    match c.calls[i]? with
    | some call =>
      match call.state with
      | .pausing failed => c.attempt i call failed
      | _ => c
    | none => c
  | .ended i x =>
    match c.calls[i]? with
    | some call =>
      match call.state with
      | .connected failed => c.finish i call failed x
      | _ => c
    | none => c
  | .dropped i =>
    match c.calls[i]? with
    | some call => c.drop i call
    | none => c
  | .released node =>
    if node ∈ c.outstanding then
      { c with
        connections := c.connections.release node
        outstanding := c.outstanding.erase node }
    else c

/-- The client after a sequence of events. -/
def run (c : Client) (events : List Event) : Client := events.foldl step c

end Client

end ChunkDirectory
