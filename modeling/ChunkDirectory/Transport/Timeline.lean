import ChunkDirectory.Transport.Client

/-!
# Calls in time

What becomes of calls to a node whose behaviour is fixed in advance, connection by connection. All
calls begin together. Within a moment, what is due happens in the order in which it was set; then the
node answers those that it does answer; then slots are given back.
-/

namespace ChunkDirectory

/-- What happens to the client at a later moment. -/
structure Timer where
  /-- In milliseconds since the start. -/
  due : Nat
  event : Client.Event
deriving DecidableEq

/-- Calls to a node under way. -/
structure Timeline where
  client : Client
  /-- What the node sends on further connections before it closes them, `none` if it stays silent.
  Once these are used up, connections are refused. -/
  script : List (Option (List UInt8))
  /-- The requests that were received, in order. -/
  requests : List (List UInt8)
  /-- Milliseconds since the start. -/
  clock : Nat
  /-- In the order in which they were set. -/
  timers : List Timer
  /-- Answers of the present moment, by call. -/
  answers : List (Nat × List UInt8)
deriving DecidableEq

namespace Timeline

/-- The start of calls. -/
def start (client : Client) (script : List (Option (List UInt8))) : Timeline where
  client
  script
  requests := []
  clock := 0
  timers := (List.range client.calls.length).map fun i => ⟨0, .attempt i⟩
  answers := []

def setTimer (t : Timeline) (delay : Nat) (event : Client.Event) : Timeline :=
  { t with timers := t.timers ++ [⟨t.clock + delay, event⟩] }

/-- Applies an event to the client. A call that pauses then sets a timer for its next attempt. -/
def apply (t : Timeline) (i : Nat) (event : Client.Event) : Timeline :=
  let t := { t with client := t.client.step event }
  match t.client.calls[i]? with
  | some call =>
    match call.state with
    | .pausing failed => t.setTimer (Call.pauseAfter failed) (.attempt i)
    | _ => t
  | none => t

/-- The node takes a connection and reads the request, or refuses. -/
def connect (t : Timeline) (i : Nat) (call : Call) : Timeline :=
  match t.script with
  | [] => t.apply i (.ended i .refused)
  | behaviour :: script =>
    let request := Wire.encodeEnvelope ⟨t.client.me, call.message⟩
    let t := { t with script, requests := t.requests ++ [request] }
    match behaviour with
    | none => t.setTimer Call.patience (.ended i .silent)
    | some bytes => { t with answers := t.answers ++ [(i, bytes)] }

/-- A timer goes off. -/
def fire (t : Timeline) (timer : Timer) : Timeline :=
  match timer.event with
  | .attempt i =>
    let t := t.apply i (.attempt i)
    match t.client.calls[i]? with
    | some call =>
      match call.state with
      | .connected _ => t.connect i call
      | _ => t
    | none => t
  | .ended i x => t.apply i (.ended i x)
  | _ => t

/-- The node's answers arrive. -/
def receive (t : Timeline) : Timeline :=
  t.answers.foldl (fun t (i, bytes) => t.apply i (.ended i (.received bytes)))
    { t with answers := [] }

/-- All slots are given back. -/
def giveBack (t : Timeline) : Timeline :=
  { t with client := t.client.run (t.client.outstanding.map .released) }

/-- The next moment at which something is due. -/
def next (t : Timeline) : Option Nat := (t.timers.map (·.due)).min?

/-- Goes on to a moment at which something is due. -/
def moment (t : Timeline) (due : Nat) : Timeline :=
  let (now, later) := t.timers.partition (·.due = due)
  (now.foldl fire { t with clock := due, timers := later }).receive.giveBack

/-- Goes on for a number of moments, or until nothing is due any more. -/
def advance : Nat → Timeline → Timeline
  | 0, t => t
  | moments + 1, t =>
    match t.next with
    | none => t
    | some due => advance moments (t.moment due)

/-- An attempt is begun and ended at one moment each, so there are no more moments than this. -/
def moments (t : Timeline) : Nat := 2 * Call.maxAttempts * t.client.calls.length

/-- Goes on until all calls are done. -/
def run (t : Timeline) : Timeline := t.advance t.moments

/-- The results of the calls that are done. -/
def results (t : Timeline) : List (Except NetError Message) :=
  t.client.calls.filterMap fun call =>
    match call.state with
    | .answered reply => some (.ok reply)
    | .gaveUp e => some (.error e)
    | _ => none

end Timeline

end ChunkDirectory
