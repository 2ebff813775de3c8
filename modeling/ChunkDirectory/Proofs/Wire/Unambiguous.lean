import ChunkDirectory.Proofs.Wire.Snapshot

/-!
# Messages have one meaning

The fields of the messages of one variant are conveyed by one codec, exact or lawful
(`conveyed`), so the codecs for messages and for envelopes are lawful. Maps travel inside of
lookup trees only, so that the keys of all maps are found in four variants (`fieldKeys`).

`message_unambiguous` puts together what follows for messages and for envelopes.
-/

namespace ChunkDirectory

/-- The lengths of all sequences can be written, which is so of all messages that a machine can
hold. -/
def Message.Fits : Message → Prop
  | .joinAccepted s => s.Fits
  | .joinAcceptedPeer superpeers => superpeers.length < 2 ^ 64
  | .lookupResult l => ∀ x, l = some x → x.backups.size < 2 ^ 64
  | .backupRanges ranges =>
    ∀ l, ranges = some l → l.length < 2 ^ 64 ∧ ∀ r ∈ l, r.backups.size < 2 ^ 64
  | .initRange _ _ holders _ => holders.size < 2 ^ 64
  | .remove chunks _ => chunks.length < 2 ^ 64
  | .askAboutBackups known => known.length < 2 ^ 64
  | .backups trees ms => (trees.length < 2 ^ 64 ∧ ∀ t ∈ trees, t.Fits) ∧ ms.length < 2 ^ 64
  | .promotePeer s _ => s.Fits
  | .sendBackups trees ms => (trees.length < 2 ^ 64 ∧ ∀ t ∈ trees, t.Fits) ∧ ms.length < 2 ^ 64
  | .sendSuperpeers superpeers => superpeers.length < 2 ^ 64
  | .error message => message.toUTF8.size < 2 ^ 64
  | _ => True

namespace Wire

namespace Codec

theorem exact_rangeStart : rangeStart.Plain where
  faithful v _ rest := by
    cases v with
    | created first =>
      show (word32.read >>= _) ((word32.write 0 ++ chunkId.write first) ++ rest) = _
      rw [List.append_assoc, Reader.bind_of_read (exact_word32.faithful 0 trivial _)]
      exact Reader.bind_of_read (exact_chunkId.faithful first trivial rest)
    | migration batch =>
      show (word32.read >>= _) ((word32.write 1 ++ word32.write batch) ++ rest) = _
      rw [List.append_assoc, Reader.bind_of_read (exact_word32.faithful 1 trivial _)]
      exact Reader.bind_of_read (exact_word32.faithful batch trivial rest)
  fits _ := trivial
  written {bytes v rest} h := by
    obtain ⟨number, middle, hnumber, h⟩ := Reader.bind_eq_some.mp h
    rw [exact_word32.written hnumber]
    split at h
    · obtain ⟨first, last, hfirst, h⟩ := Reader.bind_eq_some.mp h
      obtain ⟨rfl, rfl⟩ := Reader.pure_eq_some.mp h
      rw [exact_chunkId.written hfirst, ← List.append_assoc]
      rfl
    · obtain ⟨batch, last, hbatch, h⟩ := Reader.bind_eq_some.mp h
      obtain ⟨rfl, rfl⟩ := Reader.pure_eq_some.mp h
      rw [exact_word32.written hbatch, ← List.append_assoc]
      rfl
    · cases h

theorem exact_requestStatus : requestStatus.Plain where
  faithful v _ rest := by
    cases v <;> exact Reader.bind_of_read (exact_word32.faithful _ trivial rest)
  fits _ := trivial
  written {bytes v rest} h := by
    obtain ⟨number, middle, hnumber, h⟩ := Reader.bind_eq_some.mp h
    rw [exact_word32.written hnumber]
    split at h
    case h_6 => cases h
    all_goals
      obtain ⟨rfl, rfl⟩ := Reader.pure_eq_some.mp h
      rfl

theorem exact_backupRange : backupRange.Exact fun r => r.backups.size < 2 ^ 64 :=
  ((Exact.pair exact_rangeStart exact_backupPeers).via (fun _ => rfl) fun _ => rfl).congr fun _ =>
    and_iff_right trivial

theorem exact_locations : locations.Exact fun l => l.backups.size < 2 ^ 64 := by
  have hfields := Exact.pair exact_nodeId
    (exact_backupPeers.pair (Plain.pair exact_chunkId exact_chunkId))
  exact (hfields.via (fun _ => rfl) fun _ => rfl).congr fun _ =>
    (and_iff_right trivial).trans (and_iff_left trivial)

/-- No value at all. -/
def nothing : Codec Unit := ⟨fun _ => [], .pure ()⟩

theorem exact_nothing : nothing.Plain where
  faithful _ _ _ := rfl
  fits _ := trivial
  written h := (Reader.pure_eq_some.mp h).2

end Codec

open Codec

/-- The keys of all maps in the fields of a variant. -/
def fieldKeys (number : UInt32) : KeyReader :=
  match number with
  | 2 => snapshotKeys
  | 22 => .both (.list treeKeys) (.skip mappings.read)
  | 28 => .both snapshotKeys (.skip nodeId.read)
  | 33 => .both (.list treeKeys) (.skip mappings.read)
  | number => .skip (readFields number)

/-- The keys of all maps in a message. -/
def messageKeys : KeyReader := do fieldKeys (← word32.read)

/-- The keys of all maps in an envelope. -/
def envelopeKeys : KeyReader := .both (.skip nodeId.read) messageKeys

/-- The fields of the message, like those of all messages of the variant, are conveyed by a lawful
codec. -/
inductive Conveyed : UInt32 → Message → Prop
  | intro {α : Type} {c : Codec α} (number : UInt32) (build : α → Message) (x : α)
    (lawful : c.Lawful (fun y => (build y).Fits) (fieldKeys number))
    (read : readFields number = do return build (← c.read))
    (write : ∀ y, writeFields (build y) = c.write y) : Conveyed number (build x)

variable {α : Type} {c : Codec α} {P : α → Prop}

theorem Conveyed.lawful (number : UInt32) (build : α → Message) (x : α)
    (h : c.Lawful (fun y => (build y).Fits) (fieldKeys number))
    (hread : readFields number = do return build (← c.read) := by rfl)
    (hwrite : ∀ y, writeFields (build y) = c.write y := by exact fun _ => rfl) :
    Conveyed number (build x) :=
  .intro number build x h hread hwrite

/-- Fields without maps. -/
theorem Conveyed.exact (number : UInt32) (build : α → Message) (x : α) (h : c.Exact P)
    (hfits : ∀ y, P y ↔ (build y).Fits := by exact fun _ => .rfl)
    (hkeys : fieldKeys number = .skip (readFields number) := by rfl)
    (hread : readFields number = do return build (← c.read) := by rfl)
    (hwrite : ∀ y, writeFields (build y) = c.write y := by exact fun _ => rfl) :
    Conveyed number (build x) := by
  refine .intro number build x ?_ hread hwrite
  rw [hkeys, hread, KeyReader.skip_map]
  exact h.lawful.congr hfits

/-- The fields of every message are conveyed by a lawful codec. -/
theorem conveyed (m : Message) : Conveyed (variant m) m := by
  cases m with
  | join node isSuperpeer =>
    exact .exact 0 (fun x => .join x.1 x.2) (node, isSuperpeer) (Plain.pair exact_nodeId exact_bool)
  | joinRedirect contact => exact .exact 1 .joinRedirect contact exact_nodeId
  | joinAccepted s => exact .lawful 2 .joinAccepted s lawful_snapshot
  | joinAcceptedPeer superpeers =>
    exact .exact 3 .joinAcceptedPeer superpeers (Plain.list exact_nodeId)
  | lookup chunk => exact .exact 4 .lookup chunk exact_chunkId
  | lookupResult l => exact .exact 5 .lookupResult l exact_locations.option
  | getBackupRanges node => exact .exact 6 .getBackupRanges node exact_nodeId
  | backupRanges ranges => exact .exact 7 .backupRanges ranges exact_backupRange.list.option
  | updateAll owner restorer isBackup =>
    exact .exact 8 (fun x => .updateAll x.1 x.2.1 x.2.2) (owner, restorer, isBackup)
      (Plain.pair exact_nodeId (Plain.pair exact_nodeId exact_bool))
  | initRange start owner backups isBackup =>
    exact .exact 9 (fun x => .initRange x.1 x.2.1 x.2.2.1 x.2.2.2) (start, owner, backups, isBackup)
      (Exact.pair exact_rangeStart (Exact.pair exact_nodeId (exact_backupPeers.pair exact_bool)))
      fun _ => by simp [Message.Fits]
  | migrate chunk node isBackup =>
    exact .exact 10 (fun x => .migrate x.1 x.2.1 x.2.2) (chunk, node, isBackup)
      (Plain.pair exact_chunkId (Plain.pair exact_nodeId exact_bool))
  | migrateRange start stop node isBackup =>
    exact .exact 11 (fun x => .migrateRange x.1 x.2.1 x.2.2.1 x.2.2.2) (start, stop, node, isBackup)
      (Plain.pair exact_chunkId (Plain.pair exact_chunkId (Plain.pair exact_nodeId exact_bool)))
  | remove chunks isBackup =>
    exact .exact 12 (fun x => .remove x.1 x.2) (chunks, isBackup)
      ((Plain.list exact_chunkId).pair exact_bool) fun _ => and_iff_left trivial
  | insertId id chunk isBackup =>
    exact .exact 13 (fun x => .insertId x.1 x.2.1 x.2.2) (id, chunk, isBackup)
      (Plain.pair exact_applicationId (Plain.pair exact_chunkId exact_bool))
  | status s => exact .exact 14 .status s exact_requestStatus
  | getChunkId id => exact .exact 15 .getChunkId id exact_applicationId
  | chunkIdResult chunk => exact .exact 16 .chunkIdResult chunk (Plain.option exact_chunkId)
  | getMappingCount => exact .exact 17 (fun _ => .getMappingCount) () exact_nothing
  | mappingCount count => exact .exact 18 .mappingCount count exact_word64
  | askAboutSuccessor => exact .exact 19 (fun _ => .askAboutSuccessor) () exact_nothing
  | successorIs successor => exact .exact 20 .successorIs successor (Plain.option exact_nodeId)
  | askAboutBackups known =>
    exact .exact 21 .askAboutBackups known (Plain.list (Plain.pair exact_nodeId exact_word64))
  | backups trees ms =>
    exact .lawful 22 (fun x => .backups x.1 x.2) (trees, ms)
      (lawful_tree.list.pair exact_mappings.lawful)
  | notifyAboutNewPredecessor node => exact .exact 23 .notifyAboutNewPredecessor node exact_nodeId
  | notifyAboutNewSuccessor node => exact .exact 24 .notifyAboutNewSuccessor node exact_nodeId
  | pingSuperpeer => exact .exact 25 (fun _ => .pingSuperpeer) () exact_nothing
  | searchForPeer => exact .exact 26 (fun _ => .searchForPeer) () exact_nothing
  | foundPeer peer => exact .exact 27 .foundPeer peer (Plain.option exact_nodeId)
  | promotePeer s replacement =>
    have hoffer := (lawful_snapshot.pair exact_nodeId.lawful).congr fun _ => and_iff_left trivial
    exact .lawful 28 (fun x => .promotePeer x.1 x.2) (s, replacement) hoffer
  | promotionResult success => exact .exact 29 .promotionResult success exact_bool
  | delegatePromotePeer hops => exact .exact 30 .delegatePromotePeer hops exact_word16
  | notifyAboutFailedPeer failed => exact .exact 31 .notifyAboutFailedPeer failed exact_nodeId
  | startRecovery failed range =>
    exact .exact 32 (fun x => .startRecovery x.1 x.2) (failed, range)
      (Plain.pair exact_nodeId exact_rangeStart)
  | sendBackups trees ms =>
    exact .lawful 33 (fun x => .sendBackups x.1 x.2) (trees, ms)
      (lawful_tree.list.pair exact_mappings.lawful)
  | sendSuperpeers superpeers =>
    exact .exact 34 .sendSuperpeers superpeers (Plain.list exact_nodeId)
  | ack => exact .exact 35 (fun _ => .ack) () exact_nothing
  | error message => exact .exact 36 .error message exact_text

/-- What is read is a message of the variant that was asked for. -/
theorem variant_of_readFields {number : UInt32} {m : Message} {bytes rest : List UInt8}
    (h : readFields number bytes = some (m, rest)) : variant m = number := by
  unfold readFields at h
  split at h
  case h_18 | h_20 | h_26 | h_27 | h_36 =>
    obtain ⟨rfl, -⟩ := Reader.pure_eq_some.mp h
    rfl
  case h_38 => cases h
  all_goals
    obtain ⟨x, last, -, h⟩ := Reader.bind_eq_some.mp h
    obtain ⟨rfl, -⟩ := Reader.pure_eq_some.mp h
    rfl

/-- The fields of the messages of a variant. -/
def fields (number : UInt32) : Codec Message := ⟨writeFields, readFields number⟩

/-- What is read was read by the codec of the variant. -/
theorem exists_of_readFields {number : UInt32} {m : Message} {bytes rest : List UInt8}
    (h : readFields number bytes = some (m, rest)) :
    ∃ (α : Type) (c : Codec α) (build : α → Message) (x : α),
      c.Lawful (fun y => (build y).Fits) (fieldKeys number) ∧
        (readFields number = do return build (← c.read)) ∧
        (∀ y, writeFields (build y) = c.write y) ∧ c.read bytes = some (x, rest) ∧ build x = m := by
  have hconveyed : Conveyed number m := variant_of_readFields h ▸ conveyed m
  obtain ⟨number, build, y, hlawful, hread, hwrite⟩ := hconveyed
  rw [hread] at h
  obtain ⟨x, middle, hx, h⟩ := Reader.bind_eq_some.mp h
  obtain ⟨hbuild, rfl⟩ := Reader.pure_eq_some.mp h
  exact ⟨_, _, build, x, hlawful, hread, hwrite, hx, hbuild⟩

theorem lawful_fields (number : UInt32) :
    (fields number).Lawful (fun m => variant m = number ∧ m.Fits) (fieldKeys number) where
  faithful := by
    rintro m ⟨hvariant, hfits⟩ rest
    have hconveyed : Conveyed number m := hvariant ▸ conveyed m
    obtain ⟨number, build, x, hlawful, hread, hwrite⟩ := hconveyed
    show readFields number (writeFields (build x) ++ rest) = _
    rw [hread, hwrite, Reader.bind_of_read (hlawful.faithful x hfits rest)]
    rfl
  fits {bytes m rest} h := by
    obtain ⟨α, c, build, x, hlawful, -, -, hx, rfl⟩ := exists_of_readFields h
    exact ⟨variant_of_readFields h, hlawful.fits hx⟩
  spelled {bytes m rest} h := by
    obtain ⟨α, c, build, x, hlawful, hread, hwrite, hx, rfl⟩ := exists_of_readFields h
    obtain ⟨used, listed, hbytes, hspells⟩ := hlawful.spelled hx
    refine ⟨used, listed, hbytes, fun more => ?_, hspells.keys, ?_⟩
    · show readFields number (used ++ more) = _
      rw [hread, Reader.bind_of_read (hspells.read more)]
      rfl
    · show writeFields (build x) = used ↔ _
      rw [hwrite]
      exact hspells.written

theorem lawful_message : message.Lawful Message.Fits messageKeys where
  faithful := faithful_message.mono fun m hm rest =>
    (lawful_fields (variant m)).faithful m ⟨rfl, hm⟩ rest
  fits h := by
    obtain ⟨number, middle, -, h⟩ := Reader.bind_eq_some.mp h
    exact ((lawful_fields number).fits h).2
  spelled {bytes m rest} h := by
    obtain ⟨number, middle, hnumber, h⟩ := Reader.bind_eq_some.mp h
    obtain ⟨used, listed, rfl, hspells⟩ := (lawful_fields number).spelled h
    have htag := exact_word32.faithful number trivial
    refine ⟨word32.write number ++ used, listed, ?_,
      hspells.tagged (fun more => Reader.bind_of_read (htag more))
        (fun more => Reader.bind_of_read (htag more)) ?_⟩
    · rw [List.append_assoc]
      exact exact_word32.written hnumber
    · rw [← ((lawful_fields number).fits h).1]
      rfl

theorem lawful_envelope : envelope.Lawful (fun e => e.message.Fits) envelopeKeys :=
  ((exact_nodeId.lawful.pair lawful_message).via (fun _ => rfl) fun _ => rfl).congr fun _ =>
    and_iff_right trivial

/-- Messages and envelopes are read back as they were written, whatever follows, and not at all if
the end is missing. Whatever was read can be written and read again, and it is written as it was
read exactly if all maps in the input listed their keys in strictly ascending order. -/
theorem message_unambiguous :
    message.Unambiguous Message.Fits messageKeys ∧
      envelope.Unambiguous (fun e => e.message.Fits) envelopeKeys :=
  ⟨lawful_message.unambiguous, lawful_envelope.unambiguous⟩

end Wire

end ChunkDirectory
