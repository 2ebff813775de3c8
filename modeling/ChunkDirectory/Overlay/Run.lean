import ChunkDirectory.Overlay.Basic
import ChunkDirectory.Protocol.Dispatch

/-!
# Runs of an overlay

How tasks and steps change an overlay. A message is handled to its end before its sender goes on.
Background work waits until the running task pauses or waits for another, or the step is over, and is
then done in the order in which it was started. Time passes only in pauses and when a step says so;
workers do their rounds when they are due.

Nothing bounds a run in advance, so it is given fuel, which bounds how deep its parts are nested and
chained. A run that ends without using up its fuel does not depend on it.
-/

namespace ChunkDirectory

/-- A change of an overlay with a result, `none` if the fuel ran out. -/
abbrev Run (ρ α : Type) : Type := StateT (Overlay ρ) Option α

namespace Overlay

variable {ρ : Type}

/-- Runs a part of which only the events are separate: they come after the event that `e` makes of
the part's result. -/
def recording {α : Type} (e : α → Event ρ) (part : Run ρ α) : Run ρ α := do
  let before ← modifyGet fun o => (o.events, { o with events := [] })
  let a ← part
  modify fun o => { o with events := o.events ++ e a :: before }
  return a

/-- Takes note of an event with a result. -/
def noting {α : Type} (a : α) (e : Event ρ) : Run ρ α := do
  modify (·.record e)
  return a

mutual

/-- Runs the rest of a task on a node to its end. -/
def exec (fuel : Nat) {α : Type} (i : Nat) (p : Progress α) : Run ρ α :=
  match fuel with
  | 0 => failure
  | fuel + 1 =>
    match p with
    | .done a n => do
      modify (·.keep i n)
      return a
    | .wait n r resume => do
      modify (·.keep i n)
      let x ← answer fuel i n r
      exec fuel i (resume x ((← get).nodeAt i n))
    | .enter n r resume => do
      let x ← exec fuel i (r.task n)
      exec fuel i (resume x ((← get).nodeAt i n))

/-- Answers a request of a node. -/
def answer (fuel : Nat) (i : Nat) (n : Node) (r : Request) : Run ρ r.Answer :=
  match fuel with
  | 0 => failure
  | fuel + 1 =>
    match r with
    | .call target m => recording (.called n.me target m) (transmit fuel n.me target m)
    | .send target m =>
      recording (.sent n.me target m) do
        return (← transmit fuel n.me target m).map fun _ => ()
    | .handOver target => do
      let ok := !(← get).holds .handOverFails n.me
      noting ok (.handedOver n.me target ok)
    | .reportFailure failed wasSuperpeer =>
      noting () (.reportedFailure n.me failed wasSuperpeer)
    | .available node => do
      let ok := (← get).holds .holdsData node
      noting ok (.askedAvailable n.me node ok)
    | .recover failed range => do
      let ok := !(← get).holds .recoveryFails n.me
      noting ok (.recovered n.me failed range ok)
    | .draw => modifyGet draw
    | .shuffle size => do
      let x ← modifyGet draw
      return (← get).arrange x size
    | .pause d => wait fuel d
    | .yieldToHandler => flush fuel
    | .spawn work => modify fun o => { o with queue := o.queue ++ [(i, work)] }
    | .startWorker => modify (·.startWorker i n)

/-- Brings a message to its receiver and back, as the rules have it. -/
def transmit (fuel : Nat) (sender receiver : NodeId) (m : Message) :
    Run ρ (Except NetError Message) :=
  match fuel with
  | 0 => failure
  | fuel + 1 => do
    match ← modifyGet (·.treat sender receiver m) with
    | none => deliver fuel sender receiver m
    | some rule =>
      rule.before.forM fun s => do
        let result ← takeStep fuel s
        modify (·.record (.tookStep result))
      match rule.treatment with
      | .deliver => deliver fuel sender receiver m
      | .decide verdict delivered =>
        if delivered then
          let _ ← deliver fuel sender receiver m
        return verdict.outcome receiver

/-- Has a message handled by its receiver. -/
def deliver (fuel : Nat) (sender receiver : NodeId) (m : Message) :
    Run ρ (Except NetError Message) :=
  match fuel with
  | 0 => failure
  | fuel + 1 => do
    match (← get).reachable? receiver with
    | none => return .error (.unreachable receiver .refused)
    | some (member, n) => return .ok (← exec fuel member.node (Protocol.handleMessage sender m n))

/-- Does all background work that waits, with what is added meanwhile. -/
def flush (fuel : Nat) : Run ρ Unit :=
  match fuel with
  | 0 => failure
  | fuel + 1 => do
    match (← get).queue with
    | [] => return ()
    | (i, work) :: rest =>
      modify fun o => { o with queue := rest }
      match (← get).nodes[i]? with
      | some n => exec fuel i (work.task n)
      | none => pure ()
      flush fuel

/-- Waits. Unless nothing is to be waited for, background work is done first. -/
def wait (fuel : Nat) (d : Duration) : Run ρ Unit :=
  match fuel with
  | 0 => failure
  | fuel + 1 => do
    if d.nanos > 0 then
      flush fuel
      passTime fuel ((← get).clock + d.nanos)

/-- Lets time pass until a moment and workers do their rounds. -/
def passTime (fuel : Nat) (moment : Nat) : Run ρ Unit :=
  match fuel with
  | 0 => failure
  | fuel + 1 => do
    match (← get).nextDue moment with
    | none => modify fun o => { o with clock := max o.clock moment }
    | some (due, ⟨i, _, state⟩) =>
      modify fun o => { o.beginRound i with clock := max o.clock due }
      match (← get).nodes[i]? with
      | none => pure ()
      | some n =>
        let state ← exec fuel i (Protocol.upkeepRound state n)
        modify (·.endRound i n state)
        flush fuel
      passTime fuel moment

/-- One round of upkeep on a node, if it is running. -/
def tick (fuel : Nat) (id : NodeId) : Run ρ Unit :=
  match fuel with
  | 0 => failure
  | fuel + 1 => do
    match (← get).running? id with
    | none => return ()
    | some (member, n) =>
      let state ← exec fuel member.node (Protocol.upkeepRound member.upkeep n)
      modify (·.modifyMember id fun m => { m with upkeep := state })
      flush fuel

/-- Handles the queued failures of a node, if it is running. -/
def drain (fuel : Nat) (id : NodeId) : Run ρ Unit :=
  match fuel with
  | 0 => failure
  | fuel + 1 => do
    match (← get).running? id with
    | none => return ()
    | some (member, n) =>
      exec fuel member.node (Protocol.drainFailures n)
      flush fuel

/-- Takes a step. -/
def takeStep (fuel : Nat) (s : Step ρ) : Run ρ (StepResult ρ) :=
  match fuel with
  | 0 => failure
  | fuel + 1 =>
    match s with
    | .add config contact joins holdsData => do
      let i ← modifyGet (·.create config contact holdsData)
      match joins, (← get).nodes[i]? with
      | true, some n =>
        match ← exec fuel i (Protocol.joinOverlay n) with
        | .ok () =>
          modify (·.noteJoined config)
          return .done
        | .error e => return .notJoined e
      | _, _ => return .done
    | .fail id => modifyGet fun o => (.flag (o.members.contains id), o.fail id)
    | .change condition add remove => do
      modify (·.change condition add remove)
      return .done
    | .rule applies skip times before treatment => do
      modify fun o => { o with rules := o.rules ++ [⟨applies, skip, times, before, treatment⟩] }
      return .done
    | .clearRules => do
      modify fun o => { o with rules := [] }
      return .done
    | .tick id times => do
      if (← get).members.contains id then
        (List.range times).forM fun _ => tick fuel id
        return .done
      else return .noSuchNode
    | .stabilize rounds => do
      (List.range rounds).forM fun _ => do
        (← get).members.keys.forM (tick fuel)
        (← get).members.keys.forM (drain fuel)
      return .done
    | .shutdown id => do
      if (← get).members.contains id then
        modify (·.shutDown id)
        return .done
      else return .noSuchNode
    | .advance d => do
      wait fuel d
      return .done
    | .run id task => do
      match (← get).running? id with
      | none => return .noSuchNode
      | some (member, n) => return .value (← exec fuel member.node (task n))
    | .await id task => do
      match (← get).running? id with
      | none => return .noSuchNode
      | some (member, n) =>
        flush fuel
        let result ← exec fuel member.node (task ((← get).nodeAt member.node n))
        flush fuel
        return .value result

end

/-- Takes a step from outside: background work is done at its end, and its events are those since
its start. -/
def step (fuel : Nat) (s : Step ρ) : Run ρ (StepResult ρ × List (Event ρ)) := do
  modify fun o => { o with events := [] }
  let result ← takeStep fuel s
  flush fuel
  return (result, (← get).events.reverse)

end Overlay

end ChunkDirectory
