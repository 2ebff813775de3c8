import ChunkDirectory.Node.Task

/-!
# Joining

A newcomer asks its contact for admission and follows redirects until the superpeer responsible for
it admits it; when a contact fails or the redirects do not end it begins again at the bootstrap
superpeer, as often as the retry policy allows. A joining superpeer splits the range of the one that
admits it, takes over what lies below it and becomes its predecessor; a joining peer is only listed.
-/

namespace ChunkDirectory

/-- What a superpeer decides about a newcomer. -/
inductive Admission where
  /-- Another superpeer is responsible. -/
  | redirect (contact : NodeId)
  | peer (superpeers : List NodeId)
  /-- The newcomer splits the range; `oldPredecessor` is to be told. -/
  | superpeer (snapshot : Snapshot) (oldPredecessor : Option NodeId)

namespace Node

/-- Whether a newcomer falls into this superpeer's range. -/
def admits (n : Node) (newcomer : NodeId) : Bool :=
  n.ring.superpeers.isEmpty ||
    match n.ring.predecessor with
    | some predecessor => Arc.contains ⟨predecessor, n.me, .upperClosed⟩ newcomer
    | none => true

/-- Makes a new superpeer the predecessor of this one, and also its successor if there was no other
superpeer. The peers that move along and the new superpeer are no longer listed as peers. -/
def splitRing (r : Ring) (moved : List NodeId) (newcomer : NodeId) (alone : Bool) : Ring :=
  let r := (r.removePeers moved).removePeer newcomer
  let r := if alone then r.setSuccessor (some newcomer) else r
  r.setPredecessor (some newcomer)

/-- Decides about a newcomer and makes room for it. -/
def welcome (n : Node) (newcomer : NodeId) (isSuperpeer : Bool) : Admission × Node :=
  if !n.admits newcomer then
    (.redirect ((n.ring.responsible newcomer).getD n.me), n)
  else if !isSuperpeer then
    let n := n.mapRing (·.insertPeer newcomer)
    (.peer n.ring.superpeers.toList, n)
  else
    let alone := n.ring.superpeers.isEmpty
    let predecessor := if alone then n.me else (n.ring.previousBefore newcomer).getD n.me
    let snapshot := n.snapshotFor predecessor newcomer
    let old := if alone then none else n.ring.predecessor.filter (· ≠ newcomer)
    (.superpeer snapshot old,
      n.mapRing fun r => splitRing r snapshot.peers newcomer alone)

/-- A joining superpeer takes over what it was given. -/
def install (n : Node) (s : Snapshot) : Node := (n.mapRing (·.adopt s)).store s.trees s.mappings

/-- A joining peer attaches to the superpeer that admitted it. -/
def attach (n : Node) (superpeer : NodeId) (superpeers : List NodeId) : Node :=
  let n := n.mapRing fun r => (r.replaceSuperpeers superpeers).insertSuperpeer superpeer
  match n.role with
  | .peer _ => { n with role := .peer (some superpeer) }
  | .superpeer _ => n

end Node

namespace Protocol

/-- Handles a request to join. -/
def handleJoin (newcomer : NodeId) (isSuperpeer : Bool) : Task Message := do
  let n ← Task.node
  if !n.isSuperpeer then return .status .notSuperpeer
  else if newcomer = n.me then return .error "node ID already in use"
  else
    let (admission, changed) := n.welcome newcomer isSuperpeer
    Task.modify fun _ => changed
    match admission with
    | .redirect contact => return .joinRedirect contact
    | .peer superpeers => return .joinAcceptedPeer superpeers
    | .superpeer snapshot none => return .joinAccepted snapshot
    | .superpeer snapshot (some old) =>
      match ← Task.send old (.notifyAboutNewSuccessor newcomer) with
      | .ok () => return .joinAccepted snapshot
      | .error _ =>
        Task.spawnFailureHandling old
        return .joinAccepted snapshot

/-- How one walk along redirects ends. -/
inductive JoinOutcome where
  | joined
  /-- Another attempt would not help. -/
  | refused (error : LookupError)
  | failed

/-- How a contact answers. -/
inductive JoinStep where
  | ended (outcome : JoinOutcome)
  | redirected (contact : NodeId)

/-- Asks a contact for admission. Only an admission in the newcomer's own role counts. -/
def askAdmission (attempt : JoinAttempt) (contact : NodeId) : Task JoinStep := do
  let n ← Task.node
  match ← Task.call contact (.join n.me attempt.isSuperpeer) with
  | .ok (.joinRedirect next) => return .redirected next
  | .ok (.joinAccepted snapshot) =>
    if attempt.isSuperpeer then
      Task.modify (·.install snapshot)
      let _ ← Task.ask .startWorker
      return .ended .joined
    else return .ended .failed
  | .ok (.joinAcceptedPeer superpeers) =>
    if attempt.isSuperpeer then return .ended .failed
    else
      Task.modify (·.attach contact superpeers)
      return .ended .joined
  | .ok (.status .notSuperpeer) =>
    if contact = attempt.bootstrap then
      return .ended (.refused (.bootstrapNotSuperpeer attempt.bootstrap))
    else return .ended .failed
  | _ => return .ended .failed

/-- Asks a contact for admission and follows at most `redirects` redirects. A contact that redirects
to itself leads nowhere. -/
def followRedirects (attempt : JoinAttempt) (contact : NodeId) : Nat → Task JoinOutcome
  | 0 => do
    match ← askAdmission attempt contact with
    | .ended outcome => return outcome
    | .redirected _ => return .failed
  | redirects + 1 => do
    match ← askAdmission attempt contact with
    | .ended outcome => return outcome
    | .redirected next =>
      if next = contact then return .failed else followRedirects attempt next redirects

/-- Makes one attempt to join, and another one if the policy allows it. -/
def attemptJoin (attempt : JoinAttempt) : Task (Except LookupError Unit) := do
  let n ← Task.node
  let outcome ←
    followRedirects attempt attempt.bootstrap (max n.config.expectedSuperpeers 1)
  match outcome with
  | .joined => return .ok ()
  | .refused error => return .error error
  | .failed =>
    let attempts := attempt.attempts + 1
    if n.config.retry.allows attempts then
      let _ ← Task.ask (.pause n.config.retry.interval)
      Task.routine (.join { attempt with attempts })
    else return .error (.retriesExhausted .join attempts)

/-- Enters the overlay through the bootstrap superpeer. A superpeer that is its own bootstrap starts
a new ring. -/
def joinOverlay : Task (Except LookupError Unit) := do
  let n ← Task.node
  if n.ring.bootstrap = n.me then
    if n.isSuperpeer then
      let _ ← Task.ask .startWorker
      return .ok ()
    else return .error (.bootstrapNotSuperpeer n.me)
  else
    Task.routine
      (.join { bootstrap := n.ring.bootstrap, isSuperpeer := n.isSuperpeer, attempts := 0 })

end Protocol

end ChunkDirectory
