import ChunkDirectory.Proofs.Ring.Exact
import ChunkDirectory.Proofs.Ring.Search

/-!
# Queries of a view

A view changes by identifiers that are listed, dropped or named by a pointer. To each of its two
lists a change is one edit (`Change.superpeerEdit`, `Change.peerEdit`), and an edit is done at the
place where a search has ended. The lists of a view have come about in this way (`Lists.change`),
and they ascend because a search of a list that ascends ends at the right place (`Neat.edit`).

Whatever the history of a view, its queries are exact (`queries_exact`): it names the nearest
members, all members in ring order, or nothing if there are none (`Ring.Answers`), and one search
finds it all (`Ring.Searches`).
-/

namespace ChunkDirectory

open NodeId

variable {me id x : NodeId} {l : List NodeId} {r : Ring}

/-! ## Lists -/

namespace Listing

/-- A list that ascends and names neither the node itself nor a reserved identifier. -/
structure Neat (me : NodeId) (l : List NodeId) : Prop where
  ascending : l.Pairwise (· < ·)
  others : ∀ x ∈ l, x ≠ me ∧ x.isReserved = false

/-- What happens to one list. -/
inductive Edit where
  | insert (id : NodeId)
  | remove (id : NodeId)
  | replace (ids : List NodeId)
  | keep

/-- The list after an edit, which is done where a search has ended. -/
def Edit.apply (me : NodeId) (l : List NodeId) : Edit → List NodeId
  | .insert id => Listing.insert me l id
  | .remove id => Listing.remove l id
  | .replace ids => ids.foldl (Listing.insert me) []
  | .keep => l

namespace Neat

theorem nil (me : NodeId) : Neat me [] :=
  ⟨.nil, fun _ hx => by cases hx⟩

theorem insert (h : Neat me l) (id : NodeId) : Neat me (Listing.insert me l id) := by
  rw [insert_eq h.ascending]
  split
  case isTrue => exact h
  case isFalse hadmits =>
    refine ⟨NodeSet.insertId_ascending id h.ascending, fun x hx => ?_⟩
    rcases NodeSet.mem_insertId.mp hx with rfl | hx
    · simpa using hadmits
    · exact h.others x hx

theorem remove (h : Neat me l) (id : NodeId) : Neat me (Listing.remove l id) := by
  rw [remove_eq h.ascending]
  exact ⟨h.ascending.filter _, fun x hx => h.others x (List.mem_filter.mp hx).1⟩

/-- An edit leaves a neat list. -/
theorem edit (h : Neat me l) (e : Edit) : Neat me (e.apply me l) := by
  cases e with
  | insert id => exact h.insert id
  | remove id => exact h.remove id
  | replace ids =>
    exact List.foldlRecOn (motive := Neat me) ids (Listing.insert me) (nil me)
      fun _ hl id _ => hl.insert id
  | keep => exact h

theorem edits (me : NodeId) (es : List Edit) : Neat me (es.foldl (Edit.apply me) []) :=
  List.foldlRecOn (motive := Neat me) es (Edit.apply me) (nil me) fun _ hl e _ => hl.edit e

end Neat

end Listing

/-! ## Changes -/

namespace Ring

open Listing (Edit Neat)

/-- A change of a view. -/
inductive Change where
  | insertSuperpeer (id : NodeId)
  | removeSuperpeer (id : NodeId)
  | replaceSuperpeers (ids : List NodeId)
  | insertPeer (id : NodeId)
  | removePeer (id : NodeId)
  | replacePeers (ids : List NodeId)
  | setPredecessor (pointer : Option NodeId)
  | setSuccessor (pointer : Option NodeId)
  | setBootstrap (id : NodeId)

namespace Change

/-- A pointer lists whom it names. -/
def pointerEdit : Option NodeId → Edit
  | some id => .insert id
  | none => .keep

/-- What a change does to the list of superpeers. -/
def superpeerEdit : Change → Edit
  | .insertSuperpeer id => .insert id
  | .removeSuperpeer id => .remove id
  | .replaceSuperpeers ids => .replace ids
  | .setPredecessor pointer => pointerEdit pointer
  | .setSuccessor pointer => pointerEdit pointer
  | _ => .keep

/-- What a change does to the list of peers. -/
def peerEdit : Change → Edit
  | .insertPeer id => .insert id
  | .removePeer id => .remove id
  | .replacePeers ids => .replace ids
  | _ => .keep

end Change

/-- The view after a change. -/
def change (r : Ring) : Change → Ring
  | .insertSuperpeer id => r.insertSuperpeer id
  | .removeSuperpeer id => r.removeSuperpeer id
  | .replaceSuperpeers ids => r.replaceSuperpeers ids
  | .insertPeer id => r.insertPeer id
  | .removePeer id => r.removePeer id
  | .replacePeers ids => r.replacePeers ids
  | .setPredecessor pointer => r.setPredecessor pointer
  | .setSuccessor pointer => r.setSuccessor pointer
  | .setBootstrap id => r.setBootstrap id

/-- The view of a node after a history of changes, the earliest first. -/
def replay (me bootstrap : NodeId) (expected : Nat) (history : List Change) : Ring :=
  history.foldl change (new me bootstrap expected)

/-- Whose view it is and what its lists are. -/
structure Lists (me : NodeId) (superpeers peers : List NodeId) (r : Ring) : Prop where
  me : r.me = me
  superpeers : r.superpeers.toList = superpeers
  peers : r.peers.toList = peers

theorem toList_listed (r : Ring) (s : NodeSet) (id : NodeId) :
    (if r.admits id then s.insert id else s).toList = Listing.insert r.me s.toList id := by
  rw [Listing.insert_eq s.ascending]
  by_cases hid : r.admits id = true
  · rw [if_pos hid, if_neg (by simpa [admits] using hid)]
    rfl
  · rw [if_neg hid, if_pos (by simpa [admits, Decidable.imp_iff_not_or] using hid)]

theorem toList_erase (s : NodeSet) (id : NodeId) :
    (s.erase id).toList = Listing.remove s.toList id :=
  (Listing.remove_eq s.ascending).symm

namespace Lists

variable {superpeers peers : List NodeId} {pointer : Option NodeId}

theorem insertSuperpeer (h : r.Lists me superpeers peers) (id : NodeId) :
    (r.insertSuperpeer id).Lists me (Listing.insert me superpeers id) peers := by
  have hlist := toList_listed r r.superpeers id
  rw [h.me, h.superpeers] at hlist
  unfold Ring.insertSuperpeer
  split
  case isTrue hid => exact ⟨h.me, by rw [← hlist, if_pos hid], h.peers⟩
  case isFalse hid => exact ⟨h.me, by rw [← hlist, if_neg hid], h.peers⟩

theorem insertPeer (h : r.Lists me superpeers peers) (id : NodeId) :
    (r.insertPeer id).Lists me superpeers (Listing.insert me peers id) := by
  have hlist := toList_listed r r.peers id
  rw [h.me, h.peers] at hlist
  unfold Ring.insertPeer
  split
  case isTrue hid => exact ⟨h.me, h.superpeers, by rw [← hlist, if_pos hid]⟩
  case isFalse hid => exact ⟨h.me, h.superpeers, by rw [← hlist, if_neg hid]⟩

theorem insertSuperpeers (h : r.Lists me superpeers peers) (ids : List NodeId) :
    (r.insertSuperpeers ids).Lists me (ids.foldl (Listing.insert me) superpeers) peers := by
  induction ids generalizing r superpeers with
  | nil => exact h
  | cons id rest ih => exact ih (h.insertSuperpeer id)

theorem insertPeers (h : r.Lists me superpeers peers) (ids : List NodeId) :
    (r.insertPeers ids).Lists me superpeers (ids.foldl (Listing.insert me) peers) := by
  induction ids generalizing r peers with
  | nil => exact h
  | cons id rest ih => exact ih (h.insertPeer id)

theorem removeSuperpeer (h : r.Lists me superpeers peers) (id : NodeId) :
    (r.removeSuperpeer id).Lists me (Listing.remove superpeers id) peers := by
  have hlist := toList_erase r.superpeers id
  rw [h.superpeers] at hlist
  unfold Ring.removeSuperpeer
  split
  case isTrue => exact ⟨h.me, hlist, h.peers⟩
  case isFalse hid =>
    have hsame : (r.superpeers.erase id).toList = r.superpeers.toList :=
      Listing.filter_ne_of_not_mem fun hmem => hid (decide_eq_true hmem)
    exact ⟨h.me, by rw [← hlist, hsame], h.peers⟩

theorem removePeer (h : r.Lists me superpeers peers) (id : NodeId) :
    (r.removePeer id).Lists me superpeers (Listing.remove peers id) := by
  have hlist := toList_erase r.peers id
  rw [h.peers] at hlist
  exact ⟨h.me, h.superpeers, hlist⟩

/-- A pointer that would name the node itself is not set, and the node is not listed either. -/
theorem insertPointer (h : r.Lists me superpeers peers) (pointer : Option NodeId) :
    (r.insertPointer (pointer.filter (· ≠ r.me))).Lists me
      ((Change.pointerEdit pointer).apply me superpeers) peers := by
  cases pointer with
  | none => exact h
  | some id =>
    show Lists me (Listing.insert me superpeers id) peers _
    by_cases hid : id = r.me
    · have hsame : Listing.insert me superpeers id = superpeers := by
        simp [Listing.insert, hid, h.me]
      have hunset : (some id).filter (· ≠ r.me) = none := by simp [hid]
      rw [hsame, hunset]
      exact h
    · rw [Option.filter_some, if_pos (decide_eq_true hid)]
      exact h.insertSuperpeer id

/-- Each change does one edit to each list. -/
theorem change (h : r.Lists me superpeers peers) (c : Change) :
    (r.change c).Lists me (c.superpeerEdit.apply me superpeers) (c.peerEdit.apply me peers) := by
  cases c with
  | insertSuperpeer id => exact h.insertSuperpeer id
  | removeSuperpeer id => exact h.removeSuperpeer id
  | replaceSuperpeers ids =>
    have hnone : ({ r with superpeers := ∅ } : Ring).Lists me [] peers := ⟨h.me, rfl, h.peers⟩
    exact hnone.insertSuperpeers ids
  | insertPeer id => exact h.insertPeer id
  | removePeer id => exact h.removePeer id
  | replacePeers ids =>
    have hnone : ({ r with peers := ∅ } : Ring).Lists me superpeers [] := ⟨h.me, h.superpeers, rfl⟩
    exact hnone.insertPeers ids
  | setPredecessor pointer =>
    have hset : ({ r with predecessor := pointer.filter (· ≠ r.me) } : Ring).Lists me
      superpeers peers := ⟨h.me, h.superpeers, h.peers⟩
    exact hset.insertPointer pointer
  | setSuccessor pointer =>
    have hset : ({ r with successor := pointer.filter (· ≠ r.me) } : Ring).Lists me
      superpeers peers := ⟨h.me, h.superpeers, h.peers⟩
    exact hset.insertPointer pointer
  | setBootstrap id => exact ⟨h.me, h.superpeers, h.peers⟩

theorem changes (h : r.Lists me superpeers peers) (history : List Change) :
    (history.foldl Ring.change r).Lists me
      ((history.map Change.superpeerEdit).foldl (Edit.apply me) superpeers)
      ((history.map Change.peerEdit).foldl (Edit.apply me) peers) := by
  induction history generalizing r superpeers peers with
  | nil => exact h
  | cons c rest ih => exact ih (h.change c)

end Lists

/-! ## Answers -/

/-- What a view answers about an identifier: the nearest members, all of them in ring order, and
nothing exactly if there is nobody to name. -/
structure Answers (r : Ring) (id : NodeId) : Prop where
  superpeer : r.superpeers.contains id = true ↔ id ∈ r.superpeers
  peer : r.peers.contains id = true ↔ id ∈ r.peers
  responsible : ∀ x, r.responsible id = some x ↔ r.superpeers.Owns id x
  nobody : r.responsible id = none ↔ ∀ x, x ∉ r.superpeers
  previous : ∀ x, r.previousBefore id = some x ↔ r.superpeers.Before id x
  nobodyBefore : r.previousBefore id = none ↔ ∀ x ∈ r.superpeers, x = id
  next : ∀ x, r.nextAfter id = some x ↔ r.superpeers.After id x
  successors : ∀ x, x ∈ r.successorsAfter id ↔ x ∈ r.superpeers ∧ x ≠ id
  /-- Each successor is listed once and is farther away than those before it. -/
  inOrder : (r.successorsAfter id).Pairwise fun x y => clockwise id x < clockwise id y
  nobodyAfter : r.successorsAfter id = [] ↔ ∀ x ∈ r.superpeers, x = id

theorem responsible_eq_none_iff : r.responsible id = none ↔ ∀ x, x ∉ r.superpeers := by
  constructor
  · intro hnone x hx
    obtain ⟨o, ho⟩ := NodeSet.exists_owner hx id
    rw [responsible_eq_some_iff.mpr ho] at hnone
    cases hnone
  · intro hempty
    refine Option.eq_none_iff_forall_ne_some.mpr fun x hx => ?_
    exact hempty x (responsible_eq_some_iff.mp hx).1

theorem previousBefore_eq_none_iff : r.previousBefore id = none ↔ ∀ x ∈ r.superpeers, x = id := by
  constructor
  · intro hnone x hx
    apply Decidable.byContradiction
    intro hne
    obtain ⟨p, hp⟩ := NodeSet.exists_before hx hne
    rw [previousBefore_eq_some_iff.mpr hp] at hnone
    cases hnone
  · intro halone
    refine Option.eq_none_iff_forall_ne_some.mpr fun x hx => ?_
    obtain ⟨hmem, hne, -⟩ := previousBefore_eq_some_iff.mp hx
    exact hne (halone x hmem)

theorem successorsAfter_eq_nil_iff : r.successorsAfter id = [] ↔ ∀ x ∈ r.superpeers, x = id := by
  rw [List.eq_nil_iff_forall_not_mem]
  refine forall_congr' fun x => ?_
  rw [mem_successorsAfter, not_and, Decidable.not_not]

theorem answers (r : Ring) (id : NodeId) : r.Answers id where
  superpeer := decide_eq_true_iff
  peer := decide_eq_true_iff
  responsible _ := responsible_eq_some_iff
  nobody := responsible_eq_none_iff
  previous _ := previousBefore_eq_some_iff
  nobodyBefore := previousBefore_eq_none_iff
  next _ := nextAfter_eq_some_iff
  successors _ := mem_successorsAfter
  inOrder := r.successorsAfter_ascending id
  nobodyAfter := successorsAfter_eq_nil_iff

/-- However a view has changed since it was new, its lists are those that edits at searched places
make of two empty lists. They ascend and name neither the node itself nor a reserved identifier, and
about each identifier the view answers exactly, with what one search finds. -/
theorem queries_exact (me bootstrap : NodeId) (expected : Nat) (history : List Change)
    (id : NodeId) :
    let r := replay me bootstrap expected history
    let superpeers := (history.map Change.superpeerEdit).foldl (Edit.apply me) []
    let peers := (history.map Change.peerEdit).foldl (Edit.apply me) []
    r.Lists me superpeers peers ∧ Neat me superpeers ∧ Neat me peers ∧ r.Answers id ∧
      r.Searches id := by
  have hnew : (new me bootstrap expected).Lists me [] [] := ⟨rfl, rfl, rfl⟩
  exact ⟨hnew.changes history, .edits me _, .edits me _, answers _ id, searches _ id⟩

end Ring

end ChunkDirectory
