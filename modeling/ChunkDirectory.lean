import ChunkDirectory.Config.Environment
import ChunkDirectory.Config.File
import ChunkDirectory.LockOrder
import ChunkDirectory.Message.Report
import ChunkDirectory.Overlay.Run
import ChunkDirectory.Overlay.View
import ChunkDirectory.StatusApi
import ChunkDirectory.Storage
import ChunkDirectory.Transport.Timeline
import ChunkDirectory.Proofs.Ring.Distance
import ChunkDirectory.Proofs.Ring.Round
import ChunkDirectory.Proofs.Ring.Exact
import ChunkDirectory.Proofs.Directory.Slot
import ChunkDirectory.Proofs.Overlay.Calm
import ChunkDirectory.Proofs.Overlay.Settled
import ChunkDirectory.Proofs.Overlay.Quiet
import ChunkDirectory.Proofs.Protocol.Lookup
import ChunkDirectory.Proofs.Protocol.Request
import ChunkDirectory.Proofs.Reference
import ChunkDirectory.Proofs.Replication
import ChunkDirectory.Proofs.Overlay.Steps
import ChunkDirectory.Proofs.Refinement
import ChunkDirectory.Proofs.Formation
import ChunkDirectory.Proofs.Handover
import ChunkDirectory.Proofs.Protocol.Undisturbed
import ChunkDirectory.Proofs.Repetition
import ChunkDirectory.Proofs.Division
import ChunkDirectory.Proofs.Repair
import ChunkDirectory.Proofs.Crossing
import ChunkDirectory.Proofs.Responsibility
import ChunkDirectory.Proofs.Placement
import ChunkDirectory.Proofs.Wire.Unambiguous
import ChunkDirectory.Proofs.Maintenance
import ChunkDirectory.Proofs.Newcomer
import ChunkDirectory.Proofs.Tree.Owners
import ChunkDirectory.Proofs.Tree.Extent
import ChunkDirectory.Proofs.Protocol.Walk
import ChunkDirectory.Proofs.Protocol.Aftermath
import ChunkDirectory.Proofs.Reassignment
import ChunkDirectory.Proofs.Census
import ChunkDirectory.Proofs.Pointers
import ChunkDirectory.Proofs.Roles
import ChunkDirectory.Proofs.Resolution
import ChunkDirectory.Proofs.Draining
import ChunkDirectory.Proofs.Redelivery
import ChunkDirectory.Proofs.Tree.Fingerprint
import ChunkDirectory.Proofs.Ring.Removal
import ChunkDirectory.Proofs.Protocol.Announcements
import ChunkDirectory.Proofs.WidestGap
import ChunkDirectory.Proofs.FanOut
import ChunkDirectory.Proofs.Delegation
import ChunkDirectory.Proofs.LostPeer
import ChunkDirectory.Proofs.Candidates
import ChunkDirectory.Proofs.Slots
import ChunkDirectory.Proofs.Joining
import ChunkDirectory.Proofs.Requests
import ChunkDirectory.Proofs.Queries
import ChunkDirectory.Proofs.Arcs
import ChunkDirectory.Proofs.AddressList
