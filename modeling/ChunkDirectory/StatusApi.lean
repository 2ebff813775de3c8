import ChunkDirectory.Http.Request
import ChunkDirectory.Json.Printer
import ChunkDirectory.Protocol.Client
import ChunkDirectory.Text.Number

/-!
# The status API

What a node shows to operators over HTTP. Only GET requests are served: a sign of life, the node's
view of the overlay, where a chunk lives, and the backup ranges of a node. The last two are ordinary
directory operations, so their answers come from the superpeer responsible. Every body is JSON with
its keys in alphabetical order.
-/

namespace ChunkDirectory

/-- A status and a body, with the type of its content unless there is none. -/
structure HttpResponse where
  status : Nat
  contentType : Option String
  body : String
deriving DecidableEq

namespace StatusApi

def respond (status : Nat) (body : Json) : HttpResponse :=
  ⟨status, some "application/json", body.print⟩

def ok (body : Json) : HttpResponse := respond 200 body

def failure (status : Nat) (message : String) : HttpResponse :=
  respond status (.ofFields [("error", .ofString message)])

def notFound : HttpResponse := failure 404 "Not Found"

/-! ## Values in bodies -/

def ofNode (id : NodeId) : Json := .ofNat id.toNat

def ofNodes (ids : List NodeId) : Json := .list (ids.map ofNode)

def ofChunk (chunk : ChunkId) : Json := .ofNat chunk.bits.toNat

def ofLocations (l : Locations) : Json :=
  .ofFields [("backups", ofNodes l.backups.toList), ("primary", ofNode l.primary),
    ("range", .list [ofChunk l.first, ofChunk l.last])]

def ofRangeStart : RangeStart → Json
  | .created first => .ofFields [("Created", ofChunk first)]
  | .migration batch => .ofFields [("Migration", .ofNat batch.toNat)]

def ofBackupRange (range : BackupRange) : Json :=
  .ofFields [("backups", ofNodes range.backups.toList), ("start", ofRangeStart range.start)]

def ofStats (s : OverlayStats) : Json :=
  .ofFields [("expected_superpeers", .ofNat s.expectedSuperpeers),
    ("is_superpeer", .bool s.isSuperpeer), ("mapping_count", .ofNat s.mappingCount),
    ("peer_count", .ofNat s.peerCount),
    ("stabilization_interval", .ofString s.stabilizationInterval.text),
    ("stable", .bool s.stable), ("superpeer_count", .ofNat s.superpeerCount),
    ("tree_count", .ofNat s.treeCount)]

/-- A node's view of the overlay. -/
def ofNodeView (n : Node) : Json :=
  .ofFields [("node_id", ofNode n.me), ("peers", ofNodes n.ring.peers.toList),
    ("predecessor", .ofOption ofNode n.ring.predecessor), ("stats", ofStats n.stats),
    ("successor", .ofOption ofNode n.ring.successor),
    ("superpeers", ofNodes n.ring.superpeers.toList)]

/-! ## Requests -/

/-- A chunk identifier in decimal, or in hexadecimal after `0x`. -/
def readChunk (raw : List Char) : Option ChunkId :=
  let n :=
    match raw with
    | '0' :: 'x' :: hex => Text.readNumber 16 UInt64.size hex
    | _ => Text.readNumber 10 UInt64.size raw
  n.map fun n => ⟨.ofNat n⟩

/-- Where the chunk named in a path lives. -/
def showChunk (raw : List Char) : Task HttpResponse := do
  match readChunk raw with
  | none => return failure 400 ("invalid chunk ID " ++ String.ofList raw)
  | some chunk =>
    match ← Protocol.get chunk with
    | .ok (some locations) => return ok (ofLocations locations)
    | .ok none => return notFound
    | .error e => return failure 503 e.message

/-- The backup ranges of the node named in a path. -/
def showBackups (raw : List Char) : Task HttpResponse := do
  match Text.readNumber 10 UInt16.size raw with
  | none => return failure 400 ("invalid node ID " ++ String.ofList raw)
  | some id =>
    match ← Protocol.getAllBackupRanges (.ofNat id) with
    | .ok ranges => return ok (.list (ranges.map ofBackupRange))
    | .error e => return failure 503 e.message

/-- Serves the page at a path. -/
def page (path : List Char) : Task HttpResponse := do
  if path = "/ping".toList then return ok (.ofFields [("message", .ofString "pong")])
  else if path = "/overlay".toList then return ok (ofNodeView (← Task.node))
  else
    match "/chunks/".toList.isPrefixOf? path, "/backups/".toList.isPrefixOf? path with
    | some raw, _ => showChunk raw
    | none, some raw => showBackups raw
    | none, none => return notFound

/-- Answers a request. The answer to a HEAD request comes without its body. -/
def serve (request : Http.Request) : Task HttpResponse := do
  if request.method = "HEAD" then return { notFound with body := "" }
  else
    match request.method, request.target with
    | "GET", .page path => page path
    | _, _ => return notFound

/-- Answers the request with a given head. The answer to a request that cannot be read has a status
and nothing else. -/
def answer (head : List Char) : Task HttpResponse := do
  match Http.Request.read head with
  | .ok request => serve request
  | .error refusal => return ⟨refusal.status, none, ""⟩

end StatusApi

end ChunkDirectory
