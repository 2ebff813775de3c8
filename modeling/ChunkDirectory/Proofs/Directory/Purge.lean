import ChunkDirectory.Proofs.Overlay.Settled

/-!
# Striking a failed peer

A superpeer that takes note of a failed peer strikes it from the backups of all its trees and marks
its tree (`Node.noticeFailedPeer`). Nothing else changes: owners, the order of the other backups, and
which trees there are (`Directory.Struck`). To do so again changes nothing.
-/

namespace ChunkDirectory

variable {failed : NodeId}

namespace BackupPeers

theorem not_mem_erase (b : BackupPeers) : failed ∉ (b.erase failed).toList := by
  simp [erase]

theorem erase_erase (b : BackupPeers) : (b.erase failed).erase failed = b.erase failed := by
  simp [erase]

end BackupPeers

namespace LookupTree

/-- A tree before and after a peer was struck from its backups. -/
structure Struck (failed : NodeId) (t t' : LookupTree) : Prop where
  creator : t'.creator = t.creator
  owners : t'.owners = t.owners
  ranges : t'.ranges = t.ranges.map fun r => ⟨r.start, r.backups.erase failed⟩
  unlisted : ∀ r ∈ t'.ranges, failed ∉ r.backups.toList

theorem ranges_eraseBackup (t : LookupTree) (peer : NodeId) :
    (t.eraseBackup peer).ranges = t.ranges.map fun r => ⟨r.start, r.backups.erase peer⟩ := by
  simp only [ranges, eraseBackup, SortedMap.mapValues, List.map_append, List.map_map]
  rfl

theorem struck_eraseBackup (t : LookupTree) (failed : NodeId) :
    t.Struck failed (t.eraseBackup failed) := by
  refine ⟨rfl, rfl, t.ranges_eraseBackup failed, fun r hr => ?_⟩
  rw [ranges_eraseBackup, List.mem_map] at hr
  obtain ⟨r, -, rfl⟩ := hr
  exact r.backups.not_mem_erase

theorem Struck.setAlive {t t' : LookupTree} (h : t.Struck failed t') (alive : Bool) :
    t.Struck failed (t'.setAlive alive) := ⟨h.creator, h.owners, h.ranges, h.unlisted⟩

theorem eraseBackup_eraseBackup (t : LookupTree) (peer : NodeId) :
    (t.eraseBackup peer).eraseBackup peer = t.eraseBackup peer := by
  have htwice {κ : Type} [Ranked κ] (m : SortedMap κ BackupPeers) :
      (m.mapValues fun _ b => b.erase peer).mapValues (fun _ b => b.erase peer) =
        m.mapValues fun _ b => b.erase peer := by
    refine SortedMap.eq_of_get? fun k => ?_
    rw [SortedMap.get?_mapValues, SortedMap.get?_mapValues, Option.map_map]
    exact congrArg (Option.map · _) (funext BackupPeers.erase_erase)
  simp only [eraseBackup, htwice]

end LookupTree

namespace TreeTable

variable (table : TreeTable) (failed creator : NodeId)

/-- What becomes of the tree of a creator. -/
theorem get?_strike :
    ((table.eraseBackup failed).setAlive failed false).get? creator =
      (table.get? creator).map fun t =>
        if creator = failed then (t.eraseBackup failed).setAlive false else t.eraseBackup failed := by
  have herase : (table.eraseBackup failed).get? creator =
      (table.get? creator).map (·.eraseBackup failed) := SortedMap.get?_mapValues _
  unfold setAlive
  by_cases hc : creator = failed
  · subst hc
    rw [get?_modify_self, herase, Option.map_map]
    simp only [if_pos]
    rfl
  · rw [get?_modify_of_ne hc, herase]
    simp only [if_neg hc]

/-- To strike a peer again changes nothing. -/
theorem strike_strike :
    (((table.eraseBackup failed).setAlive failed false).eraseBackup failed).setAlive failed false =
      (table.eraseBackup failed).setAlive failed false := by
  refine congrArg TreeTable.mk (SortedMap.eq_of_get? fun creator => ?_)
  refine ((get?_strike _ failed creator).trans ?_).trans (get?_strike table failed creator).symm
  rw [get?_strike, Option.map_map]
  refine congrArg (Option.map · _) (funext fun t => ?_)
  by_cases hc : creator = failed
  · simp only [Function.comp, if_pos hc]
    show ((t.eraseBackup failed).eraseBackup failed).setAlive false = _
    rw [LookupTree.eraseBackup_eraseBackup]
  · simp only [Function.comp, if_neg hc, LookupTree.eraseBackup_eraseBackup]

end TreeTable

namespace Directory

/-- A directory before and after a peer was struck from all backups and its tree marked. -/
structure Struck (failed : NodeId) (d d' : Directory) : Prop where
  mappings : d'.mappings = d.mappings
  trees : ∀ creator t, d.trees.get? creator = some t → ∃ t', d'.trees.get? creator = some t' ∧
    t.Struck failed t' ∧ t'.alive = if creator = failed then false else t.alive
  others : ∀ creator, d.trees.get? creator = none → d'.trees.get? creator = none

theorem struck_strike (d : Directory) (failed : NodeId) :
    d.Struck failed { d with trees := (d.trees.eraseBackup failed).setAlive failed false } := by
  refine ⟨rfl, fun creator t ht => ?_, fun creator hnone => ?_⟩
  · have hstruck := t.struck_eraseBackup failed
    have hget := d.trees.get?_strike failed creator
    rw [ht, Option.map_some] at hget
    refine ⟨_, hget, ?_⟩
    by_cases hc : creator = failed
    · rw [if_pos hc, if_pos hc]
      exact ⟨hstruck.setAlive false, rfl⟩
    · rw [if_neg hc, if_neg hc]
      exact ⟨hstruck, rfl⟩
  · rw [TreeTable.get?_strike, hnone]
    rfl

end Directory

namespace Node

variable {n : Node}

theorem ring_noticeFailedPeer (n : Node) (failed : NodeId) :
    (n.noticeFailedPeer failed).ring = n.ring := ring_mapDirectory _

theorem me_noticeFailedPeer (n : Node) (failed : NodeId) : (n.noticeFailedPeer failed).me = n.me :=
  congrArg Ring.me (n.ring_noticeFailedPeer failed)

theorem failures_noticeFailedPeer (n : Node) (failed : NodeId) :
    (n.noticeFailedPeer failed).failures = n.failures := by
  obtain ⟨_, role, _, _, _, _⟩ := n
  cases role <;> rfl

/-- A superpeer's directory is struck. -/
theorem struck_noticeFailedPeer {d : Directory} (hd : n.directory? = some d) (failed : NodeId) :
    ∃ d', (n.noticeFailedPeer failed).directory? = some d' ∧ d.Struck failed d' := by
  refine ⟨_, (directory?_mapDirectory _).trans (by rw [hd, Option.map_some]), ?_⟩
  exact d.struck_strike failed

/-- The backup ranges in the tree of a creator. -/
def rangesOf (n : Node) (creator : NodeId) : List BackupRange :=
  ((n.directory?.bind (·.trees.get? creator)).map (·.ranges)).getD []

/-- The same ranges are backed up, without the peer that was struck. -/
theorem rangesOf_noticeFailedPeer (n : Node) (failed creator : NodeId) :
    (n.noticeFailedPeer failed).rangesOf creator =
      (n.rangesOf creator).map fun r => ⟨r.start, r.backups.erase failed⟩ := by
  cases hd : n.directory? with
  | none =>
    have hd' : (n.noticeFailedPeer failed).directory? = none :=
      (directory?_mapDirectory _).trans (by rw [hd, Option.map_none])
    simp [rangesOf, hd, hd']
  | some d =>
    obtain ⟨d', hd', hstruck⟩ := struck_noticeFailedPeer hd failed
    unfold rangesOf
    rw [hd, hd', Option.bind_some, Option.bind_some]
    cases ht : d.trees.get? creator with
    | none => rw [hstruck.others creator ht]; rfl
    | some t =>
      obtain ⟨t', ht', hstruck', -⟩ := hstruck.trees creator t ht
      rw [ht']
      exact hstruck'.ranges

/-- The node has taken note of a failed peer. -/
def Noted (failed : NodeId) (n : Node) : Prop := n.noticeFailedPeer failed = n

theorem noted_noticeFailedPeer (n : Node) (failed : NodeId) :
    (n.noticeFailedPeer failed).Noted failed := by
  unfold Noted noticeFailedPeer mapTrees mapDirectory
  cases hrole : n.role with
  | peer attached => simp only [hrole]
  | superpeer d => simp only [TreeTable.strike_strike]

theorem Noted.enqueue (h : n.Noted failed) (x : NodeId) : (n.enqueue x).Noted failed := by
  have hqueue (failures : List NodeId) : ({ n with failures } : Node).noticeFailedPeer failed =
      { n.noticeFailedPeer failed with failures } := by
    obtain ⟨_, role, _, _, _, _⟩ := n
    cases role <;> rfl
  unfold Noted Node.enqueue
  split
  · exact h
  · rw [hqueue, show n.noticeFailedPeer failed = n from h]

end Node

end ChunkDirectory
