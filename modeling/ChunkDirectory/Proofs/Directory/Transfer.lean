import ChunkDirectory.Proofs.Directory.Slot

/-!
# Transfer of entries

A superpeer that gives up a part of its range sends the trees and mappings of that part as lists.
Whoever takes them over finds in every slot what the sender held there, and otherwise what it held
itself (`Directory.read_takeOver`). Trees travel without the key they are stored under, so this
needs that every tree is stored under its creator, which all mutations keep up
(`Mutation.keyed_apply`).
-/

namespace ChunkDirectory

namespace SortedMap

variable {κ β : Type} [Ranked κ]

/-- Entering all entries of another map. -/
theorem get?_insertAll_entries (m other : SortedMap κ β) (k : κ) :
    (m.insertAll other.entries).get? k = (other.get? k).or (m.get? k) := by
  have hfold : ∀ (l : List (κ × β)) (m : SortedMap κ β),
      l.Pairwise (fun a b => rank a.1 < rank b.1) →
      (∀ v, (k, v) ∈ l → (m.insertAll l).get? k = some v) ∧
        ((∀ v, (k, v) ∉ l) → (m.insertAll l).get? k = m.get? k) := by
    intro l
    induction l with
    | nil =>
      intro m _
      refine ⟨fun v hv => ?_, fun _ => rfl⟩
      cases hv
    | cons e rest ih =>
      intro m hasc
      obtain ⟨hhead, hasc⟩ := List.pairwise_cons.mp hasc
      obtain ⟨hin, hout⟩ := ih (m.insert e.1 e.2) hasc
      constructor
      · intro v hv
        rcases List.mem_cons.mp hv with rfl | hv
        · refine (hout fun w hw => ?_).trans get?_insert_self
          exact Nat.lt_irrefl _ (hhead (k, w) hw)
        · exact hin v hv
      · intro hnot
        have hne : k ≠ e.1 := fun heq => hnot e.2 (heq ▸ List.mem_cons_self)
        refine (hout fun w hw => hnot w (List.mem_cons_of_mem e hw)).trans ?_
        exact get?_insert_of_ne hne
  obtain ⟨hin, hout⟩ := hfold other.entries m other.ascending
  cases hget : other.get? k with
  | some v => exact hin v (get?_eq_some_iff.mp hget)
  | none => exact hout (get?_eq_none_iff.mp hget)

/-- A part of the entries that is given by a test on keys. -/
theorem get?_filter_key (m : SortedMap κ β) (keep : κ → Bool) (k : κ) :
    (m.filter fun k _ => keep k).get? k = if keep k = true then m.get? k else none := by
  rw [get?_filter]
  cases hkeep : keep k with
  | true =>
    rw [if_pos rfl]
    cases m.get? k <;> rfl
  | false =>
    rw [if_neg Bool.false_ne_true]
    cases m.get? k <;> rfl

end SortedMap

namespace TreeTable

/-- Every tree is stored under its creator. -/
def Keyed (table : TreeTable) : Prop :=
  ∀ creator tree, table.get? creator = some tree → tree.creator = creator

variable {table : TreeTable} {creator : NodeId}

/-! Every table is built by these operations, so every table is keyed. -/

theorem keyed_empty : empty.Keyed := fun _ _ htree => by cases htree

theorem Keyed.insert (h : table.Keyed) (tree : LookupTree) : (table.insert tree).Keyed := by
  intro c t ht
  by_cases hc : c = tree.creator
  · subst hc
    cases ht.symm.trans SortedMap.get?_insert_self
    rfl
  · exact h c t ((SortedMap.get?_insert_of_ne hc).symm.trans ht)

theorem Keyed.insertAll (h : table.Keyed) (trees : List LookupTree) :
    (table.insertAll trees).Keyed := by
  induction trees generalizing table with
  | nil => exact h
  | cons tree rest ih => exact ih (h.insert tree)

section Change

variable {f : LookupTree → LookupTree} (hf : ∀ tree, (f tree).creator = tree.creator)

include hf

theorem Keyed.modify (h : table.Keyed) : (table.modify creator f).Keyed := by
  intro c tree htree
  by_cases hc : c = creator
  · subst hc
    rw [get?_modify_self] at htree
    obtain ⟨old, hold, rfl⟩ := Option.map_eq_some_iff.mp htree
    rw [hf]
    exact h c old hold
  · rw [get?_modify_of_ne hc] at htree
    exact h c tree htree

theorem Keyed.update (h : table.Keyed) : (table.update creator f).Keyed := by
  intro c tree htree
  by_cases hc : c = creator
  · subst hc
    rw [get?_update_self] at htree
    cases htree
    rw [hf]
    cases hold : table.get? c with
    | none => rfl
    | some old => exact h c old hold
  · rw [get?_update_of_ne hc] at htree
    exact h c tree htree

theorem Keyed.mapValues (h : table.Keyed) : Keyed ⟨table.byCreator.mapValues fun _ => f⟩ := by
  intro c tree htree
  obtain ⟨old, hold, rfl⟩ :=
    Option.map_eq_some_iff.mp ((SortedMap.get?_mapValues _).symm.trans htree)
  rw [hf]
  exact h c old hold

end Change

/-- Entering the trees a test holds of, taken from another table. -/
theorem get?_insertAll_values {other : TreeTable} (h : other.Keyed)
    (keep : NodeId → LookupTree → Bool) :
    (table.insertAll (other.byCreator.filter keep).values).get? creator =
      ((other.get? creator).filter (keep creator)).or (table.get? creator) := by
  have hfilter : ∀ e ∈ (other.byCreator.filter keep).entries, e.2.creator = e.1 := by
    intro e he
    exact h e.1 e.2 (SortedMap.get?_eq_some_iff.mpr (List.mem_filter.mp he).1)
  have hentries : ∀ (l : List (NodeId × LookupTree)) (table : TreeTable),
      (∀ e ∈ l, e.2.creator = e.1) →
      table.insertAll (l.map (·.2)) = ⟨table.byCreator.insertAll l⟩ := by
    intro l
    induction l with
    | nil => exact fun _ _ => rfl
    | cons e rest ih =>
      intro table hkeyed
      have hinsert : table.insert e.2 = ⟨table.byCreator.insert e.1 e.2⟩ := by
        rw [insert, hkeyed e List.mem_cons_self]
      have hrest := ih (table.insert e.2) fun x hx => hkeyed x (List.mem_cons_of_mem e hx)
      show (table.insert e.2).insertAll (rest.map (·.2)) = _
      rw [hrest, hinsert]
      rfl
  rw [SortedMap.values, hentries _ _ hfilter]
  refine (SortedMap.get?_insertAll_entries _ _ _).trans ?_
  rw [SortedMap.get?_filter]
  rfl

/-- Entering the trees of the creators a test holds of, taken from another table. -/
theorem get?_insertAll_treesWhere {other : TreeTable} (h : other.Keyed) (keep : NodeId → Bool) :
    (table.insertAll (other.treesWhere keep)).get? creator =
      (if keep creator = true then other.get? creator else none).or (table.get? creator) := by
  have hkept : ((other.get? creator).filter fun _ => keep creator) =
      if keep creator = true then other.get? creator else none := by
    cases keep creator <;> cases other.get? creator <;> rfl
  rw [treesWhere, get?_insertAll_values h, hkept]

end TreeTable

namespace MappingTable

/-- Entering the mappings at the positions a test holds of, taken from another table. -/
theorem get?_putAll_entriesWhere {table other : MappingTable} {id : ApplicationId}
    (keep : NodeId → Bool) :
    (table.putAll (other.entriesWhere keep)).get? id =
      (if keep id.position = true then other.get? id else none).or (table.get? id) := by
  have hget : (table.putAll (other.entriesWhere keep)).get? id =
      ((other.byId.filter fun i _ => keep i.position).get? id).or (table.get? id) :=
    SortedMap.get?_insertAll_entries _ _ _
  rw [hget, SortedMap.get?_filter_key _ fun i : ApplicationId => keep i.position]
  rfl

end MappingTable

namespace Directory

variable {d other : Directory}

/-- A directory that takes over a part of another one. -/
theorem read_takeOver (h : other.trees.Keyed) (keep : NodeId → Bool) (slot : Slot) :
    (⟨d.trees.insertAll (other.trees.treesWhere keep),
        d.mappings.putAll (other.mappings.entriesWhere keep)⟩ : Directory).read slot =
      (if keep slot.position = true then other.read slot else none).or (d.read slot) := by
  cases slot with
  | tree creator => exact TreeTable.get?_insertAll_treesWhere h keep
  | mapping id => exact MappingTable.get?_putAll_entriesWhere keep

end Directory

namespace Slot

/-- What becomes of the content of a slot when a creator is recorded as gone. -/
def mark (gone : NodeId) : (slot : Slot) → Option slot.Content → Option slot.Content
  | .tree creator => fun tree => if creator = gone then tree.map (·.setAlive false) else tree
  | .mapping _ => id

/-- What becomes of the content of a slot when mutations are applied in order. -/
def replay (slot : Slot) (ms : List Mutation) (content : Option slot.Content) :
    Option slot.Content :=
  ms.foldl (fun content m => m.change slot content) content

variable {slot : Slot} {ms : List Mutation} {content : Option slot.Content}

@[simp] theorem replay_nil : slot.replay [] content = content := rfl

theorem replay_append (ms' : List Mutation) :
    slot.replay (ms ++ ms') content = slot.replay ms' (slot.replay ms content) :=
  List.foldl_append

theorem read_mark (gone : NodeId) (d : Directory) :
    (⟨d.trees.setAlive gone false, d.mappings⟩ : Directory).read slot =
      slot.mark gone (d.read slot) := by
  cases slot with
  | tree creator =>
    by_cases hc : creator = gone
    · subst hc
      exact (TreeTable.get?_modify_self _).trans (if_pos rfl).symm
    · exact (TreeTable.get?_modify_of_ne hc _).trans (if_neg hc).symm
  | mapping id => rfl

end Slot

/-! ## Creators of trees -/

namespace LookupTree

variable {t : LookupTree}

theorem creator_register (start : RangeStart) (backups : BackupPeers) :
    (t.register start backups).creator = t.creator := by
  cases start <;> rfl

theorem creator_splitAt (next : UInt64) : (t.splitAt next).creator = t.creator := by
  unfold splitAt
  split <;> rfl

theorem creator_assign (first last : UInt64) (owner : Option NodeId) :
    (t.assign first last owner).creator = t.creator := by
  unfold assign normalize
  by_cases hlast : last < maxLocalId
  · simp only [if_pos hlast, creator_splitAt]
  · simp only [if_neg hlast]

theorem creator_migrateRange (start stop : ChunkId) (owner : NodeId) :
    (t.migrateRange start stop owner).creator = t.creator := by
  unfold migrateRange
  split
  case isTrue => exact creator_assign _ _ _
  case isFalse => exact creator_assign _ _ _

theorem creator_removeAll (chunks : List ChunkId) :
    (chunks.foldl LookupTree.remove t).creator = t.creator := by
  induction chunks generalizing t with
  | nil => rfl
  | cons chunk rest ih => exact ih.trans (creator_assign _ _ _)

theorem creator_reassign (owner restorer : NodeId) :
    (t.reassign owner restorer).creator = t.creator := by
  unfold reassign normalize
  split <;> rfl

end LookupTree

/-- Mutations keep every tree under its creator. -/
theorem Mutation.keyed_apply (m : Mutation) {d : Directory} (h : d.trees.Keyed) :
    (m.apply d).1.trees.Keyed := by
  have honTree : ∀ (creator : NodeId) (f : LookupTree → LookupTree),
      (∀ tree, (f tree).creator = tree.creator) → (onTree d creator f).1.trees.Keyed := by
    intro creator f hf
    rw [onTree_fst]
    exact h.modify hf
  cases m with
  | updateAll owner restorer => exact h.mapValues fun _ => LookupTree.creator_reassign _ _
  | initRange start owner backups => exact h.update fun _ => LookupTree.creator_register _ _
  | insertId id chunk => exact h
  | migrate chunk node => exact honTree _ _ fun _ => LookupTree.creator_assign _ _ _
  | migrateRange start stop node => exact honTree _ _ fun _ => LookupTree.creator_migrateRange _ _ _
  | remove first rest => exact honTree _ _ fun _ => LookupTree.creator_removeAll _

end ChunkDirectory
