import ChunkDirectory.Proofs.Tree.Assignment

/-!
# Histories of a tree

A tree comes about by a history of changes to the new tree of its creator (`LookupTree.replay`).
What such a history means can be said without boundaries: each object has an owner, which the
changes set or exchange one object at a time, and each start of a range has a list of backups
(`Account`).

The tree answers every look-up as the account asks for (`LookupTree.replay_answers`): nobody can
tell the boundaries from a total function on local identifiers in which the last word on an object
counts.
-/

namespace ChunkDirectory

namespace LookupTree

/-- A change to the tree of a creator. -/
inductive Change where
  | initRange (first : ChunkId) (backups : BackupPeers)
  | initMigrationRange (batch : UInt32) (backups : BackupPeers)
  | migrate (chunk : ChunkId) (owner : NodeId)
  | migrateRange (start stop : ChunkId) (owner : NodeId)
  | remove (chunk : ChunkId)
  | reassign (owner restorer : NodeId)
  | eraseBackup (peer : NodeId)
  | setAlive (alive : Bool)
deriving DecidableEq

/-- Makes a change. -/
def change (t : LookupTree) : Change → LookupTree
  | .initRange first backups => t.initRange first backups
  | .initMigrationRange batch backups => t.initMigrationRange batch backups
  | .migrate chunk owner => t.migrate chunk owner
  | .migrateRange start stop owner => t.migrateRange start stop owner
  | .remove chunk => t.remove chunk
  | .reassign owner restorer => t.reassign owner restorer
  | .eraseBackup peer => t.eraseBackup peer
  | .setAlive alive => t.setAlive alive

/-- The tree of a creator after a history of changes, the earliest first. -/
def replay (creator : NodeId) (history : List Change) : LookupTree :=
  history.foldl change (new creator)

end LookupTree

open LookupTree (Change)

/-! ## Accounts -/

/-- What a history says about the objects of a creator. -/
structure Account where
  /-- The owner of each object, `none` if it was removed. -/
  owner : UInt64 → Option NodeId
  /-- The backups of the range that starts at an object, if one does. -/
  backups : UInt64 → Option BackupPeers

namespace Account

/-- At first the creator owns everything, and there are no ranges. -/
def new (creator : NodeId) : Account := ⟨fun _ => some creator, fun _ => none⟩

/-- What a change says about each object and each range. -/
def record (a : Account) (c : Change) : Account where
  owner id :=
    match c with
    | .migrate chunk owner => if id = chunk.localId then some owner else a.owner id
    | .migrateRange start stop owner =>
      if start.localId ≤ id ∧ id ≤ stop.localId ∨ stop.localId ≤ id ∧ id ≤ start.localId then
        some owner
      else a.owner id
    | .remove chunk => if id = chunk.localId then none else a.owner id
    | .reassign owner restorer => if a.owner id = some owner then some restorer else a.owner id
    | _ => a.owner id
  backups start :=
    match c with
    | .initRange first backups => if start = first.localId then some backups else a.backups start
    | .eraseBackup peer => (a.backups start).map (·.erase peer)
    | _ => a.backups start

/-- The account of a history. -/
def ofHistory (creator : NodeId) (history : List Change) : Account :=
  history.foldl record (new creator)

/-- Of the ranges that do not start above an object, the one at `start` starts last, and `backups`
is its list. -/
structure Nearest (a : Account) (id start : UInt64) (backups : BackupPeers) : Prop where
  below : start ≤ id
  listed : a.backups start = some backups
  greatest : ∀ s, start < s → s ≤ id → a.backups s = none

/-- The answer to a look-up that an account asks for. -/
structure Asks (a : Account) (creator : NodeId) (id : UInt64) (answer : Option Locations) :
    Prop where
  removed : answer = none ↔ a.owner id = none
  primary : ∀ l, answer = some l → a.owner id = some l.primary
  /-- Objects that are with their creator have the backups of their range, if they are in one. -/
  covered : ∀ l, answer = some l → l.primary = creator →
    (∃ start, a.Nearest id start l.backups) ∨
      (∀ start ≤ id, a.backups start = none) ∧ l.backups = .empty
  /-- Objects that are elsewhere have no backups. -/
  moved : ∀ l, answer = some l → l.primary ≠ creator → l.backups = .empty

end Account

/-! ## Spans -/

/-- A span of objects. -/
structure Span where
  first : UInt64
  last : UInt64
  ordered : first ≤ last
  bounded : last ≤ maxLocalId

namespace Span

instance : Membership UInt64 Span := ⟨fun s id => s.first ≤ id ∧ id ≤ s.last⟩

instance (id : UInt64) (s : Span) : Decidable (id ∈ s) :=
  inferInstanceAs (Decidable (s.first ≤ id ∧ id ≤ s.last))

/-- The span of one chunk. -/
def single (chunk : ChunkId) : Span :=
  ⟨chunk.localId, chunk.localId, UInt64.le_refl _, chunk.localId_le⟩

/-- The span between two chunks, in either order. -/
def between (start stop : ChunkId) : Span :=
  if h : start.localId ≤ stop.localId then ⟨start.localId, stop.localId, h, stop.localId_le⟩
  else ⟨stop.localId, start.localId, UInt64.le_of_lt (UInt64.not_le.mp h), start.localId_le⟩

theorem mem_single {id : UInt64} {chunk : ChunkId} : id ∈ single chunk ↔ id = chunk.localId := by
  constructor
  · exact fun h => UInt64.le_antisymm h.2 h.1
  · rintro rfl
    exact ⟨UInt64.le_refl _, UInt64.le_refl _⟩

theorem mem_between {id : UInt64} {start stop : ChunkId} : id ∈ between start stop ↔
    start.localId ≤ id ∧ id ≤ stop.localId ∨ stop.localId ≤ id ∧ id ≤ start.localId := by
  unfold between
  split
  case isTrue hle =>
    refine ⟨.inl, fun h => h.elim (fun h => h) fun hback => ?_⟩
    exact ⟨UInt64.le_trans hle hback.1, UInt64.le_trans hback.2 hle⟩
  case isFalse hnot =>
    refine ⟨.inr, fun h => h.elim (fun hback => ?_) fun h => h⟩
    exact absurd (UInt64.le_trans hback.1 hback.2) hnot

end Span

/-- The span that a change gives to one owner, and that owner. -/
def LookupTree.Change.assignment? : Change → Option (Span × Option NodeId)
  | .migrate chunk owner => some (.single chunk, some owner)
  | .migrateRange start stop owner => some (.between start stop, some owner)
  | .remove chunk => some (.single chunk, none)
  | _ => none

theorem Account.owner_record {a : Account} {c : Change} {s : Span} {owner : Option NodeId}
    (h : c.assignment? = some (s, owner)) (id : UInt64) :
    (a.record c).owner id = if id ∈ s then owner else a.owner id := by
  cases c with
  | migrate chunk owner' =>
    cases h
    simp only [record, Span.mem_single]
  | migrateRange start stop owner' =>
    cases h
    simp only [record, Span.mem_between]
  | remove chunk =>
    cases h
    simp only [record, Span.mem_single]
  | _ => cases h

theorem Account.backups_record {a : Account} {c : Change} {s : Span} {owner : Option NodeId}
    (h : c.assignment? = some (s, owner)) : (a.record c).backups = a.backups := by
  cases c with
  | migrate | migrateRange | remove => rfl
  | _ => cases h

namespace LookupTree

variable {t : LookupTree} {a : Account} {c : Change} {s : Span} {owner : Option NodeId}
  {creator : NodeId}

/-! ## One change -/

/-- All assignments are made in one way. -/
theorem change_of_assignment (h : c.assignment? = some (s, owner)) (t : LookupTree) :
    t.change c = t.assign s.first s.last owner := by
  cases c with
  | migrate chunk owner' => cases h; rfl
  | migrateRange start stop owner' =>
    cases h
    rw [change, migrateRange, Span.between]
    split
    case isTrue => rfl
    case isFalse => rfl
  | remove chunk => cases h; rfl
  | _ => cases h

/-- The objects of the span change hands. -/
theorem ownerAt_change_of_assignment (h : c.assignment? = some (s, owner)) (t : LookupTree)
    {id : UInt64} (hid : id ≤ maxLocalId) :
    (t.change c).ownerAt id = if id ∈ s then owner else t.ownerAt id := by
  rw [change_of_assignment h, ownerAt_assign s.ordered hid]
  rfl

theorem exists_reassign_eq (t : LookupTree) (owner restorer : NodeId) :
    ∃ owners, t.reassign owner restorer = { t with owners } := by
  unfold reassign normalize
  split <;> exact ⟨_, rfl⟩

@[simp] theorem creator_change (t : LookupTree) (c : Change) :
    (t.change c).creator = t.creator := by
  cases h : c.assignment? with
  | some assignment =>
    obtain ⟨owners, heq⟩ := t.exists_assign_eq assignment.1.first assignment.1.last assignment.2
    rw [change_of_assignment h, heq]
  | none =>
    cases c with
    | reassign owner restorer =>
      obtain ⟨owners, heq⟩ := t.exists_reassign_eq owner restorer
      rw [change, heq]
    | migrate | migrateRange | remove => cases h
    | _ => rfl

@[simp] theorem creator_replay (creator : NodeId) (history : List Change) :
    (replay creator history).creator = creator :=
  List.foldlRecOn (motive := fun t => t.creator = creator) history change rfl
    fun t ht c _ => (creator_change t c).trans ht

/-- The tree holds what the account says. -/
structure Records (t : LookupTree) (a : Account) : Prop where
  owner : ∀ id ≤ maxLocalId, t.ownerAt id = a.owner id
  backups : ∀ start, t.backupRanges.get? start = a.backups start

theorem records_new (creator : NodeId) : (new creator).Records (.new creator) :=
  ⟨fun _ _ => rfl, fun _ => rfl⟩

/-- A change does to the tree what it says about each object and each range. -/
theorem Records.change (h : t.Records a) (c : Change) : (t.change c).Records (a.record c) := by
  cases hassignment : c.assignment? with
  | some assignment =>
    obtain ⟨s, owner⟩ := assignment
    obtain ⟨owners, heq⟩ := t.exists_assign_eq s.first s.last owner
    rw [change_of_assignment hassignment]
    constructor
    · intro id hid
      rw [ownerAt_assign s.ordered hid, Account.owner_record hassignment, h.owner id hid]
      rfl
    · intro start
      rw [heq, Account.backups_record hassignment]
      exact h.backups start
  | none =>
    cases c with
    | migrate | migrateRange | remove => cases hassignment
    | initMigrationRange | setAlive => exact ⟨h.owner, h.backups⟩
    | initRange first backups =>
      refine ⟨h.owner, fun start => ?_⟩
      show (t.backupRanges.insert first.localId backups).get? start = _
      simp only [Account.record]
      split
      case isTrue heq => rw [heq, SortedMap.get?_insert_self]
      case isFalse hne => rw [SortedMap.get?_insert_of_ne hne, h.backups]
    | reassign owner restorer =>
      obtain ⟨owners, heq⟩ := t.exists_reassign_eq owner restorer
      constructor
      · intro id hid
        rw [LookupTree.change, ownerAt_reassign, h.owner id hid]
        rfl
      · intro start
        rw [LookupTree.change, heq]
        exact h.backups start
    | eraseBackup peer =>
      refine ⟨h.owner, fun start => ?_⟩
      show (t.backupRanges.mapValues fun _ b => b.erase peer).get? start = _
      rw [SortedMap.get?_mapValues, h.backups]
      rfl

theorem records_replay (creator : NodeId) (history : List Change) :
    (replay creator history).Records (.ofHistory creator history) := by
  have hfold : ∀ (t : LookupTree) (a : Account), t.Records a →
      (history.foldl LookupTree.change t).Records (history.foldl Account.record a) := by
    induction history with
    | nil => exact fun _ _ h => h
    | cons c rest ih => exact fun t a h => ih (t.change c) (a.record c) (h.change c)
  exact hfold _ _ (records_new creator)

/-! ## Look-ups -/

variable {chunk : ChunkId} {l : Locations}

theorem locate_eq_none_iff : t.locate chunk = none ↔ t.ownerAt chunk.localId = none :=
  Option.map_eq_none_iff

theorem ownerAt_of_locate (h : t.locate chunk = some l) :
    t.ownerAt chunk.localId = some l.primary := by
  rw [← primary_locate, h, Option.map_some]

/-- Only objects that are with their creator have backups, those of the last range that does not
start above them. -/
theorem backups_of_locate (h : t.locate chunk = some l) :
    l.backups =
      if l.primary = t.creator then ((t.backupRanges.floor? chunk.localId).map (·.2)).getD .empty
      else .empty := by
  obtain ⟨primary, -, rfl⟩ := Option.map_eq_some_iff.mp h
  by_cases hcreator : primary = t.creator
  · simp only [if_pos hcreator]
  · simp only [if_neg hcreator]

/-- A tree that holds what an account says answers look-ups as the account asks for. -/
theorem Records.asks (h : t.Records a) (chunk : ChunkId) :
    a.Asks t.creator chunk.localId (t.locate chunk) where
  removed := by rw [locate_eq_none_iff, h.owner _ chunk.localId_le]
  primary l hl := by rw [← h.owner _ chunk.localId_le, ownerAt_of_locate hl]
  covered l hl hcreator := by
    rw [backups_of_locate hl, if_pos hcreator]
    cases hfloor : t.backupRanges.floor? chunk.localId with
    | none =>
      have hnone := SortedMap.floor?_eq_none_iff.mp hfloor
      refine .inr ⟨fun start hle => ?_, rfl⟩
      rw [← h.backups, SortedMap.get?_eq_none_iff]
      exact fun backups hmem => absurd (hnone _ hmem) (Nat.not_lt.mpr hle)
    | some range =>
      obtain ⟨hmem, hle, hmax⟩ := SortedMap.floor?_eq_some_iff.mp hfloor
      refine .inl ⟨range.1, hle, ?_, fun start hlt hstart => ?_⟩
      · rw [← h.backups]
        exact SortedMap.get?_eq_some_iff.mpr hmem
      · rw [← h.backups, SortedMap.get?_eq_none_iff]
        exact fun backups hother => absurd (hmax _ hother hstart) (Nat.not_le.mpr hlt)
  moved l hl hcreator := by rw [backups_of_locate hl, if_neg hcreator]

/-- Whatever the history of a tree, it answers look-ups as if it kept the owner of each object. -/
theorem replay_answers (creator : NodeId) (history : List Change) (chunk : ChunkId) :
    (Account.ofHistory creator history).Asks creator chunk.localId
      ((replay creator history).locate chunk) := by
  have hasks := (records_replay creator history).asks chunk
  rwa [creator_replay] at hasks

end LookupTree

end ChunkDirectory
