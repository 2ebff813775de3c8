import Mathlib.Data.List.Sort
import ChunkDirectory.Proofs.Directory.Slot
import ChunkDirectory.Protocol.Client

/-!
# The reference table

What an overlay is meant to be for those who use it: one table with a tree for each creator and a
chunk for each application identifier (`Table`), and for each directory operation what it returns
and how it changes the table (`Table.call`). Nothing here knows of nodes.

A creator gets its tree with its first range. Objects of a creator without a tree cannot be moved or
forgotten: the operation gives up after as many tries as its caller's policy makes.
-/

namespace ChunkDirectory

/-- One tree for each creator that has one, and the chunks of application identifiers. -/
structure Table where
  trees : NodeId → Option LookupTree
  chunks : ApplicationId → Option ChunkId

/-- A directory operation. -/
inductive DirectoryCall where
  | initRange (start : RangeStart) (owner : NodeId) (backups : BackupPeers)
  | migrate (chunk : ChunkId) (node : NodeId)
  | migrateRange (start stop : ChunkId) (node : NodeId)
  | remove (chunks : List ChunkId)
  | insertId (id : ApplicationId) (chunk : ChunkId)
  | get (chunk : ChunkId)
  | getAllBackupRanges (node : NodeId)
  | getChunkId (id : ApplicationId)

/-- What a directory operation returns. -/
inductive DirectoryAnswer where
  | changed (result : Except LookupError Unit)
  | located (result : Except LookupError (Option Locations))
  | listed (result : Except LookupError (List BackupRange))
  | found (result : Except LookupError (Option ChunkId))

/-- The operation as a node carries it out. -/
def DirectoryCall.task : DirectoryCall → Task DirectoryAnswer
  | .initRange start owner backups => do
    return .changed (← Protocol.initRange start owner backups)
  | .migrate chunk node => do return .changed (← Protocol.migrate chunk node)
  | .migrateRange start stop node => do
    return .changed (← Protocol.migrateRange start stop node)
  | .remove chunks => do return .changed (← Protocol.remove chunks)
  | .insertId id chunk => do return .changed (← Protocol.insertId id chunk)
  | .get chunk => do return .located (← Protocol.get chunk)
  | .getAllBackupRanges node => do return .listed (← Protocol.getAllBackupRanges node)
  | .getChunkId id => do return .found (← Protocol.getChunkId id)

/-- The name of the operation in its errors. -/
def DirectoryCall.operation : DirectoryCall → Operation
  | .initRange .. => .initRange
  | .migrate .. => .migrate
  | .migrateRange .. => .migrateRange
  | .remove _ => .remove
  | .insertId .. => .insertId
  | .get _ => .get
  | .getAllBackupRanges _ => .getAllBackupRanges
  | .getChunkId _ => .getChunkId

namespace Table

/-- The table without trees and mappings. -/
def empty : Table := ⟨fun _ => none, fun _ => none⟩

/-- Gives a creator a tree. -/
def setTree (t : Table) (creator : NodeId) (tree : LookupTree) : Table :=
  { t with trees := fun c => if c = creator then some tree else t.trees c }

/-- Maps an application identifier. -/
def setChunk (t : Table) (id : ApplicationId) (chunk : ChunkId) : Table :=
  { t with chunks := fun i => if i = id then some chunk else t.chunks i }

/-- Changes the tree of a creator that has one. -/
def changeTree (t : Table) (operation : Operation) (tries : Nat) (creator : NodeId)
    (f : LookupTree → LookupTree) : Table × Except LookupError Unit :=
  match t.trees creator with
  | some tree => (t.setTree creator (f tree), .ok ())
  | none => (t, .error (.retriesExhausted operation tries))

/-- The chunks of one creator. -/
def chunksOf (chunks : List ChunkId) (creator : NodeId) : List ChunkId :=
  chunks.filter fun chunk => chunk.creator = creator

/-- The creators of some chunks in ascending order, each once. -/
def creatorsOf (chunks : List ChunkId) : List NodeId :=
  (NodeSet.ofList (chunks.map (·.creator))).toList

/-- Forgets the chunks of one creator after the other, up to the first without a tree. -/
def removeOf (t : Table) (tries : Nat) (chunks : List ChunkId) :
    List NodeId → Table × Except LookupError Unit
  | [] => (t, .ok ())
  | creator :: rest =>
    match t.changeTree .remove tries creator fun tree =>
      (chunksOf chunks creator).foldl LookupTree.remove tree with
    | (t, .ok ()) => t.removeOf tries chunks rest
    | (t, .error e) => (t, .error e)

/-- What an operation does to the table and returns, if its caller makes `tries` tries. -/
def call (t : Table) (tries : Nat) : DirectoryCall → Table × DirectoryAnswer
  | .initRange start owner backups =>
    let creator := start.treeCreator owner
    let tree := (t.trees creator).getD (.new creator)
    (t.setTree creator (tree.register start backups), .changed (.ok ()))
  | .migrate chunk node =>
    let (t, result) := t.changeTree .migrate tries chunk.creator (·.migrate chunk node)
    (t, .changed result)
  | .migrateRange start stop node =>
    if start.creator = stop.creator then
      let (t, result) :=
        t.changeTree .migrateRange tries start.creator (·.migrateRange start stop node)
      (t, .changed result)
    else (t, .changed (.error (.creatorMismatch start stop)))
  | .remove chunks =>
    let (t, result) := t.removeOf tries chunks (creatorsOf chunks)
    (t, .changed result)
  | .insertId id chunk => (t.setChunk id chunk, .changed (.ok ()))
  | .get chunk => (t, .located (.ok ((t.trees chunk.creator).bind (·.locate chunk))))
  | .getAllBackupRanges node => (t, .listed (.ok (((t.trees node).map (·.ranges)).getD [])))
  | .getChunkId id => (t, .found (.ok (t.chunks id)))

/-- Operations one after the other, each with the node that makes it. -/
def calls (tries : NodeId → Nat) (t : Table) :
    List (NodeId × DirectoryCall) → Table × List DirectoryAnswer
  | [] => (t, [])
  | (id, c) :: rest =>
    let (t, answer) := t.call (tries id) c
    let (t, answers) := calls tries t rest
    (t, answer :: answers)

/-! ## Creators without a tree -/

/-- The creators whose trees an operation cannot do without. -/
def needs : DirectoryCall → List NodeId
  | .migrate chunk _ => [chunk.creator]
  | .migrateRange start stop _ => if start.creator = stop.creator then [start.creator] else []
  | .remove chunks => creatorsOf chunks
  | _ => []

variable {t : Table} {operation : Operation} {tries : Nat} {creator : NodeId}

theorem changeTree_of_missing {f : LookupTree → LookupTree} (h : t.trees creator = none) :
    t.changeTree operation tries creator f = (t, .error (.retriesExhausted operation tries)) := by
  rw [changeTree, h]

/-- A creator without a tree gets none by a change of another tree. -/
theorem trees_changeTree_of_missing (operation : Operation) (tries : Nat) (other : NodeId)
    (f : LookupTree → LookupTree) (h : t.trees creator = none) :
    (t.changeTree operation tries other f).1.trees creator = none := by
  unfold changeTree
  cases hother : t.trees other with
  | none => exact h
  | some tree =>
    have hne : creator ≠ other := by
      rintro rfl
      rw [h] at hother
      cases hother
    exact (if_neg hne).trans h

theorem trees_removeOf_of_missing {chunks : List ChunkId} {creators : List NodeId}
    (h : t.trees creator = none) :
    (t.removeOf tries chunks creators).1.trees creator = none := by
  induction creators generalizing t with
  | nil => exact h
  | cons other rest ih =>
    have hstep := trees_changeTree_of_missing .remove tries other
      (fun tree => (chunksOf chunks other).foldl LookupTree.remove tree) h
    unfold removeOf
    split
    case h_1 t' heq =>
      rw [heq] at hstep
      exact ih hstep
    case h_2 t' e heq =>
      rw [heq] at hstep
      exact hstep

/-- Forgetting chunks ends at a creator without a tree. -/
theorem removeOf_of_missing {chunks : List ChunkId} {creators : List NodeId}
    (hmem : creator ∈ creators) (h : t.trees creator = none) :
    (t.removeOf tries chunks creators).2 = .error (.retriesExhausted .remove tries) := by
  induction creators generalizing t with
  | nil => cases hmem
  | cons other rest ih =>
    cases hother : t.trees other with
    | none => rw [removeOf, changeTree_of_missing hother]
    | some tree =>
      have hne : creator ≠ other := by
        rintro rfl
        rw [h] at hother
        cases hother
      have hrest : creator ∈ rest := (List.mem_cons.mp hmem).resolve_left hne
      rw [removeOf, changeTree, hother]
      exact ih hrest ((if_neg hne).trans h)

/-- An operation that meets a creator without a tree gives up, and the creator has no tree
afterwards. -/
theorem call_of_missing {c : DirectoryCall} (hmem : creator ∈ needs c)
    (h : t.trees creator = none) :
    (t.call tries c).2 = .changed (.error (.retriesExhausted c.operation tries)) ∧
      (t.call tries c).1.trees creator = none := by
  cases c with
  | migrate chunk node =>
    rw [List.mem_singleton.mp hmem] at h ⊢
    rw [call, changeTree_of_missing h]
    exact ⟨rfl, h⟩
  | migrateRange start stop node =>
    by_cases hsame : start.creator = stop.creator
    · simp only [needs, if_pos hsame] at hmem
      rw [List.mem_singleton.mp hmem] at h ⊢
      rw [call, if_pos hsame, changeTree_of_missing h]
      exact ⟨rfl, h⟩
    · simp only [needs, if_neg hsame] at hmem
      cases hmem
  | remove chunks =>
    exact ⟨congrArg DirectoryAnswer.changed (removeOf_of_missing hmem h),
      trees_removeOf_of_missing h⟩
  | _ => cases hmem

/-! ## Mutations of the table -/

/-- What the table holds in a slot. -/
def read (t : Table) : (slot : Slot) → Option slot.Content
  | .tree creator => t.trees creator
  | .mapping id => t.chunks id

@[simp] theorem read_empty (slot : Slot) : Table.empty.read slot = none := by
  cases slot <;> rfl

/-- The table after a mutation of every slot. -/
def after (t : Table) (m : Mutation) : Table :=
  ⟨fun creator => m.changeTree creator (t.trees creator),
    fun id => m.changeMapping id (t.chunks id)⟩

theorem read_after (t : Table) (m : Mutation) (slot : Slot) :
    (t.after m).read slot = m.change slot (t.read slot) := by
  cases slot <;> rfl

/-- Asks for a mutation, which is refused where it needs a tree and there is none. -/
def request (t : Table) (operation : Operation) (tries : Nat) (m : Mutation) :
    Table × Except LookupError Unit :=
  if m.outcome (t.trees m.key) = .applied then (t.after m, .ok ())
  else (t, .error (.retriesExhausted operation tries))

variable {m : Mutation}

/-- A mutation that needs a tree is a change of that tree. -/
theorem request_of_needsTree {f : LookupTree → LookupTree} (hneeds : m.needsTree = true)
    (htree : ∀ creator tree,
      m.changeTree creator tree = if creator = m.key then tree.map f else tree)
    (hmapping : ∀ id chunk, m.changeMapping id chunk = chunk) :
    t.request operation tries m = t.changeTree operation tries m.key f := by
  unfold request changeTree
  cases hkey : t.trees m.key with
  | none =>
    have hrefused : m.outcome none = .uninitialized := by rw [Mutation.outcome, hneeds]; rfl
    rw [hrefused]
    rfl
  | some tree =>
    have happlied : m.outcome (some tree) = .applied := by rw [Mutation.outcome, hneeds]; rfl
    have htrees : (t.after m).trees = (t.setTree m.key (f tree)).trees := by
      funext creator
      show m.changeTree creator (t.trees creator) = if creator = m.key then _ else _
      rw [htree]
      by_cases hc : creator = m.key
      · rw [if_pos hc, if_pos hc, hc, hkey, Option.map_some]
      · rw [if_neg hc, if_neg hc]
    have hchunks : (t.after m).chunks = (t.setTree m.key (f tree)).chunks :=
      funext fun id => hmapping id _
    have hafter : t.after m = t.setTree m.key (f tree) := by
      cases hset : t.setTree m.key (f tree)
      rw [hset] at htrees hchunks
      exact congr (congrArg Table.mk htrees) hchunks
    rw [happlied, if_pos rfl, hafter]

/-- Registering a range gives a creator its tree. -/
theorem request_initRange {start : RangeStart} {owner : NodeId} {backups : BackupPeers} :
    t.request operation tries (.initRange start owner backups) =
      (t.setTree (start.treeCreator owner)
        (((t.trees (start.treeCreator owner)).getD (.new (start.treeCreator owner))).register start
          backups), .ok ()) := by
  have htrees : (t.after (.initRange start owner backups)).trees =
      (t.setTree (start.treeCreator owner)
        (((t.trees (start.treeCreator owner)).getD (.new (start.treeCreator owner))).register start
          backups)).trees := by
    funext creator
    show (if creator = start.treeCreator owner then _ else _) = if _ then _ else _
    by_cases hc : creator = start.treeCreator owner
    · rw [if_pos hc, if_pos hc, hc]
    · rw [if_neg hc, if_neg hc]
  exact congrArg (fun trees => ((⟨trees, t.chunks⟩ : Table), Except.ok ())) htrees

theorem request_insertId {id : ApplicationId} {chunk : ChunkId} :
    t.request operation tries (.insertId id chunk) = (t.setChunk id chunk, .ok ()) := rfl

/-! ## Chunks by creator -/

/-- A creator's group are its chunks, in their order; there are no empty groups. -/
theorem get?_byCreator (chunks : List ChunkId) (creator : NodeId) :
    (Protocol.byCreator chunks).get? creator =
      if chunksOf chunks creator = [] then none else some (chunksOf chunks creator) := by
  have hfold : ∀ (l : List ChunkId) (groups : SortedMap NodeId (List ChunkId)),
      (l.foldl (fun m chunk => m.insert chunk.creator ((m.get? chunk.creator).getD [] ++ [chunk]))
        groups).get? creator =
      if chunksOf l creator = [] then groups.get? creator
      else some ((groups.get? creator).getD [] ++ chunksOf l creator) := by
    intro l
    induction l with
    | nil => exact fun _ => rfl
    | cons chunk rest ih =>
      intro groups
      rw [List.foldl_cons, ih]
      by_cases hc : chunk.creator = creator
      · have hfirst : chunksOf (chunk :: rest) creator = chunk :: chunksOf rest creator :=
          List.filter_cons_of_pos (by simpa using hc)
        rw [hfirst, ← hc, SortedMap.get?_insert_self]
        by_cases hrest : chunksOf rest chunk.creator = []
        · simp [hrest]
        · simp [hrest]
      · have hfirst : chunksOf (chunk :: rest) creator = chunksOf rest creator :=
          List.filter_cons_of_neg (by simpa using hc)
        rw [hfirst, SortedMap.get?_insert_of_ne (Ne.symm hc)]
  rw [Protocol.byCreator, hfold, SortedMap.get?_empty]
  rfl

theorem creator_of_chunksOf {chunks others : List ChunkId} {first : ChunkId}
    (hgroup : chunksOf chunks creator = first :: others) :
    ∀ chunk ∈ first :: others, chunk.creator = creator := by
  intro chunk hchunk
  rw [← hgroup] at hchunk
  exact of_decide_eq_true (List.mem_filter.mp hchunk).2

/-- Forgetting the chunks of one creator is one mutation. -/
theorem changeTree_chunksOf {chunks others : List ChunkId} {first : ChunkId}
    (hgroup : chunksOf chunks creator = first :: others) :
    (t.changeTree operation tries creator fun tree =>
      (chunksOf chunks creator).foldl LookupTree.remove tree) =
      t.request operation tries (.remove first others) := by
  rw [hgroup, ← creator_of_chunksOf hgroup first List.mem_cons_self]
  exact (request_of_needsTree (m := .remove first others) rfl (fun _ _ => rfl) fun _ _ => rfl).symm

theorem mem_creatorsOf {chunks : List ChunkId} {creator : NodeId} :
    creator ∈ creatorsOf chunks ↔ chunksOf chunks creator ≠ [] := by
  show creator ∈ NodeSet.ofList (chunks.map (·.creator)) ↔ _
  rw [NodeSet.mem_ofList, List.mem_map]
  constructor
  · rintro ⟨chunk, hchunk, rfl⟩
    exact List.ne_nil_of_mem (List.mem_filter.mpr ⟨hchunk, decide_eq_true rfl⟩)
  · intro hne
    obtain ⟨chunk, hchunk⟩ := List.exists_mem_of_ne_nil _ hne
    obtain ⟨hmem, hcreator⟩ := List.mem_filter.mp hchunk
    exact ⟨chunk, hmem, of_decide_eq_true hcreator⟩

/-- The groups are those of the creators in ascending order. -/
theorem values_byCreator (chunks : List ChunkId) :
    (Protocol.byCreator chunks).values = (creatorsOf chunks).map (chunksOf chunks) := by
  let group (creator : NodeId) := (creator, chunksOf chunks creator)
  have hmem : ∀ e, e ∈ (Protocol.byCreator chunks).entries ↔
      e ∈ (creatorsOf chunks).map group := by
    rintro ⟨creator, chunks'⟩
    rw [← SortedMap.get?_eq_some_iff, get?_byCreator, List.mem_map]
    constructor
    · intro hget
      split at hget
      case isTrue => cases hget
      case isFalse hne =>
        cases hget
        exact ⟨creator, mem_creatorsOf.mpr hne, rfl⟩
    · rintro ⟨c, hc, heq⟩
      cases heq
      rw [if_neg (mem_creatorsOf.mp hc)]
  have hasc : ((creatorsOf chunks).map group).Pairwise fun a b => rank a.1 < rank b.1 :=
    List.pairwise_map.mpr (NodeSet.ofList _).ascending
  have hirrefl : Std.Irrefl fun a b : NodeId × List ChunkId => rank a.1 < rank b.1 :=
    ⟨fun a => Nat.lt_irrefl _⟩
  have hantisymm : Std.Antisymm fun a b : NodeId × List ChunkId => rank a.1 < rank b.1 :=
    ⟨fun a b hab hba => absurd hab (Nat.lt_asymm hba)⟩
  have hentries : (Protocol.byCreator chunks).entries = (creatorsOf chunks).map group :=
    (Protocol.byCreator chunks).ascending.eq_of_mem_iff hasc hmem
  rw [SortedMap.values, hentries, List.map_map]
  rfl

end Table

end ChunkDirectory
