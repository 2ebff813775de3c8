import ChunkDirectory.Proofs.SortedMap
import ChunkDirectory.Protocol.Mutation

/-!
# Slots of a directory

A directory is a table of two kinds of entries: the lookup tree of a creator and the chunk of an
application identifier. A slot names one entry, and `Directory.read` gives what stands there.

Each mutation acts on every slot by itself: what a slot holds afterwards is a function of what that
slot held before (`Directory.read_apply`). All statements about replicas come down to this, since
holders that agree on a slot go on agreeing on it whatever their other slots hold.
-/

namespace ChunkDirectory

/-- An entry of a directory. -/
inductive Slot where
  /-- The lookup tree of a creator. -/
  | tree (creator : NodeId)
  /-- The chunk an application identifier stands for. -/
  | mapping (id : ApplicationId)
deriving DecidableEq

namespace Slot

/-- The position whose owner is primary for the entry. -/
def position : Slot → NodeId
  | tree creator => creator
  | mapping id => id.position

/-- What stands in the entry, if anything. -/
abbrev Content : Slot → Type
  | tree _ => LookupTree
  | mapping _ => ChunkId

end Slot

namespace Directory

/-- What a directory holds in a slot. -/
def read (d : Directory) : (slot : Slot) → Option slot.Content
  | .tree creator => d.trees.get? creator
  | .mapping id => d.mappings.get? id

@[simp] theorem read_empty (slot : Slot) : Directory.empty.read slot = none := by
  cases slot <;> rfl

end Directory

namespace TreeTable

variable {table : TreeTable} {creator other : NodeId}

@[simp] theorem get?_update_self (f : LookupTree → LookupTree) :
    (table.update creator f).get? creator = some (f ((table.get? creator).getD (.new creator))) :=
  SortedMap.get?_insert_self

theorem get?_update_of_ne (h : other ≠ creator) (f : LookupTree → LookupTree) :
    (table.update creator f).get? other = table.get? other :=
  SortedMap.get?_insert_of_ne h

@[simp] theorem get?_modify_self (f : LookupTree → LookupTree) :
    (table.modify creator f).get? creator = (table.get? creator).map f :=
  SortedMap.get?_modify_self f

theorem get?_modify_of_ne (h : other ≠ creator) (f : LookupTree → LookupTree) :
    (table.modify creator f).get? other = table.get? other :=
  SortedMap.get?_modify_of_ne h f

@[simp] theorem get?_reassign (owner restorer : NodeId) :
    (table.reassign owner restorer).get? creator =
      (table.get? creator).map (·.reassign owner restorer) :=
  SortedMap.get?_mapValues _

end TreeTable

namespace MappingTable

variable {table : MappingTable} {id other : ApplicationId} {chunk : ChunkId}

@[simp] theorem get?_put_self : (table.put id chunk).get? id = some chunk :=
  SortedMap.get?_insert_self

theorem get?_put_of_ne (h : other ≠ id) : (table.put id chunk).get? other = table.get? other :=
  SortedMap.get?_insert_of_ne h

end MappingTable

namespace Mutation

/-- The one slot a mutation is about. Handing over an owner's objects concerns every tree and has
none. -/
def slot? : Mutation → Option Slot
  | .updateAll .. => none
  | .initRange start owner _ => some (.tree (start.treeCreator owner))
  | .migrate chunk _ => some (.tree chunk.creator)
  | .migrateRange start _ _ => some (.tree start.creator)
  | .remove first _ => some (.tree first.creator)
  | .insertId id _ => some (.mapping id)

/-- Whether the mutation is refused where the creator has no tree. -/
def needsTree : Mutation → Bool
  | .migrate .. | .migrateRange .. | .remove .. => true
  | .updateAll .. | .initRange .. | .insertId .. => false

/-- The outcome where `tree` is what is held for the key as a creator. -/
def outcome (m : Mutation) (tree : Option LookupTree) : RequestStatus :=
  if m.needsTree && tree.isNone then .uninitialized else .applied

theorem outcome_of_not_applied {m : Mutation} {tree : Option LookupTree}
    (h : m.outcome tree ≠ .applied) : m.outcome tree = .uninitialized := by
  unfold outcome at h ⊢
  split at h
  case isTrue hrefused => exact if_pos hrefused
  case isFalse => exact absurd rfl h

/-- What becomes of the tree of a creator. -/
def changeTree (m : Mutation) (creator : NodeId) (tree : Option LookupTree) : Option LookupTree :=
  match m with
  | .updateAll owner restorer => tree.map (·.reassign owner restorer)
  | .initRange start owner backups =>
    if creator = start.treeCreator owner then
      some ((tree.getD (.new creator)).register start backups)
    else tree
  | .migrate chunk node => if creator = chunk.creator then tree.map (·.migrate chunk node) else tree
  | .migrateRange start stop node =>
    if creator = start.creator then tree.map (·.migrateRange start stop node) else tree
  | .remove first rest =>
    if creator = first.creator then tree.map fun t => (first :: rest).foldl LookupTree.remove t
    else tree
  | .insertId .. => tree

/-- What becomes of the chunk of an application identifier. -/
def changeMapping (m : Mutation) (id : ApplicationId) (chunk : Option ChunkId) : Option ChunkId :=
  match m with
  | .insertId mapped target => if id = mapped then some target else chunk
  | _ => chunk

/-- What becomes of the content of a slot. -/
def change (m : Mutation) : (slot : Slot) → Option slot.Content → Option slot.Content
  | .tree creator => m.changeTree creator
  | .mapping id => m.changeMapping id

/-- A mutation with a slot belongs to the owner of the slot's position. -/
theorem position_of_slot? {m : Mutation} {slot : Slot} (h : m.slot? = some slot) :
    slot.position = m.key := by
  cases m <;> cases h <;> rfl

/-- A mutation with a slot leaves all others alone. -/
theorem change_of_ne {m : Mutation} {slot other : Slot} (h : m.slot? = some slot)
    (hne : other ≠ slot) (content : Option other.Content) : m.change other content = content := by
  cases other with
  | tree creator =>
    cases m with
    | updateAll owner restorer => cases h
    | insertId id chunk => rfl
    | _ =>
      cases h
      exact if_neg fun e => hne (congrArg Slot.tree e)
  | mapping id =>
    cases m with
    | insertId id' chunk =>
      cases h
      exact if_neg fun e => hne (congrArg Slot.mapping e)
    | _ => rfl

/-! ## The effect on a directory -/

theorem onTree_fst (d : Directory) (creator : NodeId) (f : LookupTree → LookupTree) :
    (onTree d creator f).1 = { d with trees := d.trees.modify creator f } := by
  unfold onTree
  cases hget : d.trees.get? creator with
  | some tree => rfl
  | none =>
    have hsame : d.trees.modify creator f = d.trees := by
      have hmap : d.trees.byCreator.get? creator = none := hget
      simp only [TreeTable.modify, SortedMap.modify, hmap]
    rw [hsame]

theorem onTree_snd (d : Directory) (creator : NodeId) (f : LookupTree → LookupTree) :
    (onTree d creator f).2 =
      if (d.trees.get? creator).isSome then .applied else .uninitialized := by
  unfold onTree
  cases d.trees.get? creator <;> rfl

/-- A mutation acts on each slot by itself. -/
theorem read_apply (m : Mutation) (d : Directory) (slot : Slot) :
    (m.apply d).1.read slot = m.change slot (d.read slot) := by
  have hmodify : ∀ (creator c : NodeId) (f : LookupTree → LookupTree),
      (d.trees.modify creator f).get? c =
        if c = creator then (d.trees.get? c).map f else d.trees.get? c := by
    intro creator c f
    by_cases hc : c = creator
    · subst hc; rw [if_pos rfl, TreeTable.get?_modify_self]
    · rw [if_neg hc, TreeTable.get?_modify_of_ne hc]
  cases slot with
  | tree c =>
    cases m with
    | updateAll owner restorer => exact TreeTable.get?_reassign owner restorer
    | initRange start owner backups =>
      by_cases hc : c = start.treeCreator owner
      · subst hc
        exact (TreeTable.get?_update_self _).trans (if_pos rfl).symm
      · exact (TreeTable.get?_update_of_ne hc _).trans (if_neg hc).symm
    | insertId id chunk => rfl
    | migrate chunk node => simp only [apply, onTree_fst]; exact hmodify _ _ _
    | migrateRange start stop node => simp only [apply, onTree_fst]; exact hmodify _ _ _
    | remove first rest => simp only [apply, onTree_fst]; exact hmodify _ _ _
  | mapping id =>
    cases m with
    | insertId id' chunk =>
      by_cases hid : id = id'
      · subst hid
        exact MappingTable.get?_put_self.trans (if_pos rfl).symm
      · exact (MappingTable.get?_put_of_ne hid).trans (if_neg hid).symm
    | updateAll owner restorer => rfl
    | initRange start owner backups => rfl
    | migrate chunk node => simp only [apply, onTree_fst]; rfl
    | migrateRange start stop node => simp only [apply, onTree_fst]; rfl
    | remove first rest => simp only [apply, onTree_fst]; rfl

/-- The outcome is decided by the tree of the key. -/
theorem apply_snd (m : Mutation) (d : Directory) :
    (m.apply d).2 = m.outcome (d.read (.tree m.key)) := by
  cases m with
  | updateAll owner restorer => rfl
  | initRange start owner backups => rfl
  | insertId id chunk => rfl
  | _ =>
    simp only [apply, onTree_snd, outcome, needsTree, key, Directory.read, Bool.true_and]
    cases d.trees.get? _ <;> rfl

/-- A refused mutation changes nothing. -/
theorem apply_fst_of_refused {m : Mutation} {d : Directory} (h : (m.apply d).2 ≠ .applied) :
    (m.apply d).1 = d := by
  have hrefused : ∀ (creator : NodeId) (f : LookupTree → LookupTree),
      (onTree d creator f).2 ≠ .applied → (onTree d creator f).1 = d := by
    intro creator f hne
    unfold onTree at hne ⊢
    cases hget : d.trees.get? creator with
    | some tree => rw [hget] at hne; exact absurd rfl hne
    | none => rfl
  cases m with
  | updateAll owner restorer => exact absurd rfl h
  | initRange start owner backups => exact absurd rfl h
  | insertId id chunk => exact absurd rfl h
  | migrate chunk node => exact hrefused _ _ h
  | migrateRange start stop node => exact hrefused _ _ h
  | remove first rest => exact hrefused _ _ h

end Mutation

end ChunkDirectory
