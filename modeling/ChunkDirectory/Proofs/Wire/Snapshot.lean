import ChunkDirectory.Proofs.Concurrency.Quiet
import ChunkDirectory.Proofs.Wire.KeyOrder
import ChunkDirectory.Wire.Message

/-!
# Snapshots on the wire

A tree fits if each of its sequences has a length that can be written in eight bytes, which is so of
all trees that a machine can hold. A superpeer whose trees fit makes snapshots that fit
(`Node.fits_snapshotFor`), and a snapshot that fits is received as it was sent, be it with the
acceptance of a newcomer (`readable_joinAccepted`) or with the offer to a candidate
(`readable_promotePeer`).
-/

namespace ChunkDirectory

/-- The lengths of all sequences can be written. -/
structure LookupTree.Fits (t : LookupTree) : Prop where
  owners : t.owners.size < 2 ^ 64
  ranges : t.backupRanges.size < 2 ^ 64
  backups : ∀ e ∈ t.backupRanges.entries, e.2.size < 2 ^ 64
  migrated : ∀ e ∈ t.migrationRanges.entries, e.2.size < 2 ^ 64

/-- The lengths of all sequences can be written. -/
structure Snapshot.Fits (s : Snapshot) : Prop where
  superpeers : s.superpeers.length < 2 ^ 64
  peers : s.peers.length < 2 ^ 64
  count : s.trees.length < 2 ^ 64
  trees : ∀ t ∈ s.trees, t.Fits
  mappings : s.mappings.length < 2 ^ 64

/-- All trees that the node holds fit. -/
def Node.Fits (n : Node) : Prop :=
  ∀ d, n.directory? = some d → ∀ creator tree, d.trees.get? creator = some tree → tree.Fits

namespace Wire

namespace Codec

theorem exact_nodeId : nodeId.Plain := exact_word16.via (fun _ => rfl) fun _ => rfl

theorem exact_chunkId : chunkId.Plain := exact_word64.via (fun _ => rfl) fun _ => rfl

theorem exact_applicationId : applicationId.Plain := exact_word32.via (fun _ => rfl) fun _ => rfl

theorem exact_backupPeers : backupPeers.Exact fun b => b.size < 2 ^ 64 :=
  (Plain.list exact_nodeId).via (fun _ => rfl) fun _ => rfl

theorem exact_mappings : mappings.Exact fun l => l.length < 2 ^ 64 :=
  Plain.list (Plain.pair exact_applicationId exact_chunkId)

/-- The keys of the three maps of a tree. -/
def treeKeys : KeyReader :=
  .both (.skip nodeId.read) (.both (.skip bool.read) (.both (.map word64 (option nodeId))
    (.both (.map word64 backupPeers) (.map word32 backupPeers))))

theorem lawful_tree : tree.Lawful LookupTree.Fits treeKeys := by
  have howners := exact_word64.map (Plain.option exact_nodeId)
  have hranges := exact_word64.map exact_backupPeers
  have hmigrated := exact_word32.map exact_backupPeers
  have hfields := exact_nodeId.lawful.pair
    (exact_bool.lawful.pair (howners.pair (hranges.pair hmigrated)))
  refine (hfields.via (fun _ => rfl) fun _ => rfl).congr fun t => ⟨fun h => ?_, fun h => ?_⟩
  · obtain ⟨-, -, howners, hranges, hmigrated⟩ := h
    exact ⟨howners.1, hranges.1, fun e he => (hranges.2 e he).2,
      fun e he => (hmigrated.2 e he).2⟩
  · have hbatches := t.migrationRanges.size_le fun k : UInt32 => k.toNat_lt
    exact ⟨trivial, trivial, ⟨h.owners, fun _ _ => ⟨trivial, trivial⟩⟩,
      ⟨h.ranges, fun e he => ⟨trivial, h.backups e he⟩⟩,
      ⟨Nat.lt_of_le_of_lt hbatches (by decide), fun e he => ⟨trivial, h.migrated e he⟩⟩⟩

/-- The keys of the maps in the trees of a snapshot. -/
def snapshotKeys : KeyReader :=
  .both (.skip (option nodeId).read) (.both (.skip (option nodeId).read)
    (.both (.skip (list nodeId).read) (.both (.skip (list nodeId).read)
      (.both (.list treeKeys) (.skip mappings.read)))))

theorem lawful_snapshot : snapshot.Lawful Snapshot.Fits snapshotKeys := by
  have hpointer := (Plain.option exact_nodeId).lawful
  have hnodes := (Plain.list exact_nodeId).lawful
  have hfields := hpointer.pair (hpointer.pair
    (hnodes.pair (hnodes.pair (lawful_tree.list.pair exact_mappings.lawful))))
  refine (hfields.via (fun _ => rfl) fun _ => rfl).congr fun s => ⟨fun h => ?_, fun h => ?_⟩
  · obtain ⟨-, -, hsuperpeers, hpeers, htrees, hmappings⟩ := h
    exact ⟨hsuperpeers, hpeers, htrees.1, htrees.2, hmappings⟩
  · exact ⟨trivial, trivial, h.superpeers, h.peers, ⟨h.count, h.trees⟩, h.mappings⟩

end Codec

open Codec

/-- The fields of the message are read back. -/
def Readable (m : Message) : Prop :=
  ∀ rest, readFields (variant m) (writeFields m ++ rest) = some (m, rest)

theorem Codec.faithful_message : message.Faithful Readable := by
  intro m hm rest
  show (do readFields (← word32.read) : Reader Message)
    ((word32.write (variant m) ++ writeFields m) ++ rest) = _
  rw [List.append_assoc, Reader.bind_of_read (faithful_word32 _ trivial _)]
  exact hm rest

theorem Codec.faithful_envelope : envelope.Faithful fun e => Readable e.message :=
  ((exact_nodeId.faithful.pair faithful_message).via fun _ => rfl).mono fun _ h => ⟨trivial, h⟩

theorem decode_encodeMessage {m : Message} (h : Readable m) :
    decodeMessage (encodeMessage m) = some m := by
  have hread := faithful_message m h []
  rw [List.append_nil] at hread
  rw [decodeMessage, encodeMessage, hread, Option.map_some]

theorem decode_encodeEnvelope {e : Envelope} (h : Readable e.message) :
    decodeEnvelope (encodeEnvelope e) = some e := by
  have hread := faithful_envelope e h []
  rw [List.append_nil] at hread
  rw [decodeEnvelope, encodeEnvelope, hread, Option.map_some]

variable {s : Snapshot}

theorem readable_joinAccepted (h : s.Fits) : Readable (.joinAccepted s) := by
  intro rest
  show (do return .joinAccepted (← snapshot.read) : Reader Message) (snapshot.write s ++ rest) = _
  rw [Reader.bind_of_read (lawful_snapshot.faithful s h rest)]
  rfl

theorem readable_promotePeer (h : s.Fits) (replacement : NodeId) :
    Readable (.promotePeer s replacement) := by
  intro rest
  have hpair :=
    (lawful_snapshot.faithful.pair exact_nodeId.faithful) (s, replacement) ⟨h, trivial⟩ rest
  show (do
    let offer ← (pair snapshot nodeId).read
    return .promotePeer offer.1 offer.2 : Reader Message)
      ((pair snapshot nodeId).write (s, replacement) ++ rest) = _
  rw [Reader.bind_of_read hpair]
  rfl

end Wire

/-! ## Snapshots of a node -/

/-- There are few identifiers to list. -/
theorem NodeSet.size_le (s : NodeSet) : s.size ≤ 65536 := by
  have hnodup : (s.toList.map NodeId.toNat).Nodup :=
    List.pairwise_map.mpr (s.ascending.imp fun hlt => Nat.ne_of_lt (NodeId.lt_def.mp hlt))
  have hle := length_le_of_nodup hnodup fun x hx => by
    obtain ⟨id, -, rfl⟩ := List.mem_map.mp hx
    exact id.toNat_lt
  rwa [List.length_map] at hle

variable {n : Node}

/-- A node whose trees fit makes snapshots that fit. -/
theorem Node.fits_snapshotFor (h : n.Fits) (predecessor newcomer : NodeId) :
    (n.snapshotFor predecessor newcomer).Fits := by
  have hcreators (trees : SortedMap NodeId LookupTree) : trees.values.length < 2 ^ 64 := by
    rw [SortedMap.values, List.length_map]
    exact Nat.lt_of_le_of_lt (trees.size_le NodeId.toNat_lt) (by decide)
  have hids (mappings : SortedMap ApplicationId ChunkId) : mappings.entries.length < 2 ^ 64 :=
    Nat.lt_of_le_of_lt (mappings.size_le fun id => id.val.toNat_lt) (by decide)
  have hnodes (s : NodeSet) : s.toList.length < 2 ^ 64 :=
    Nat.lt_of_le_of_lt s.size_le (by decide)
  refine ⟨hnodes _, ?_, hcreators _, fun t ht => ?_, hids _⟩
  · exact Nat.lt_of_le_of_lt (List.length_filter_le _ _) (hnodes n.ring.peers)
  · obtain ⟨e, he, rfl⟩ := List.mem_map.mp ht
    have hmem := (List.mem_filter.mp he).1
    cases hd : n.directory? with
    | none =>
      rw [hd] at hmem
      cases hmem
    | some d =>
      rw [hd] at hmem
      exact h d hd e.1 e.2 (SortedMap.get?_eq_some_iff.mpr hmem)

end ChunkDirectory
