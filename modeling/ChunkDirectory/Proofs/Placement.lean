import ChunkDirectory.Proofs.Directory.Transfer
import ChunkDirectory.Proofs.Overlay.Complete
import ChunkDirectory.Proofs.Ring.Window
import ChunkDirectory.Protocol.Upkeep

/-!
# Placement of copies

An owner looks forwards for the superpeers that keep its copies, and a superpeer looks backwards for
what it has to keep. Where everybody lists everybody else the two agree, and upkeep drops exactly
what no owner placed there (`Node.placement`).
-/

namespace ChunkDirectory

variable {s : NodeSet} {n : Node} {r : Ring} {id : NodeId} {slot : Slot} {d : Directory}

/-- A directory without what lies outside an area. -/
theorem Directory.read_dropOutside (area : Area) :
    (Protocol.dropOutside d area).read slot =
      if area.contains slot.position = true then d.read slot else none := by
  cases slot with
  | tree creator => exact SortedMap.get?_filter_key _ area.contains creator
  | mapping id =>
    exact SortedMap.get?_filter_key _ (fun i : ApplicationId => area.contains i.position) id

/-- A superpeer without what lies outside its area. -/
theorem Node.read_dropOutside (area : Area) :
    (n.mapDirectory fun d => Protocol.dropOutside d area).read slot =
      if area.contains slot.position = true then n.read slot else none := by
  cases hd : n.directory? with
  | none => simp [read, hd]
  | some d =>
    have hdropped : (n.mapDirectory fun d => Protocol.dropOutside d area).directory? =
        some (Protocol.dropOutside d area) := by
      rw [directory?_mapDirectory, hd, Option.map_some]
    rw [read_of_directory? hd, read_of_directory? hdropped, Directory.read_dropOutside]

/-- With complete lists, a position lies in the area of a superpeer exactly if the superpeer owns it
or is a backup of its owner. -/
theorem Ring.area_contains_iff_keeps {own : Ring} (hme : own.me ∈ s)
    (hlist : own.superpeers = s.erase own.me) (hlist' : r.superpeers = s.erase r.me)
    (hown : s.Owns id r.me) :
    (own.area own.me).contains id = true ↔ own.me = r.me ∨ own.me ∈ r.backups r.me := by
  rw [area_contains_iff, hlist, NodeSet.between_erase_self, ← NodeSet.mem_holders_iff hme,
    ← me_cons_backups hlist' hown, List.mem_cons]

/-- Placement and pruning agree. Of what a superpeer that lists all others stores at a position,
upkeep leaves all alone if the superpeer owns the position or its owner sends copies here, and drops
everything if not. -/
theorem Node.placement (hme : n.me ∈ s) (hlist : n.ring.superpeers = s.erase n.me)
    (hlist' : r.superpeers = s.erase r.me) (hown : s.Owns id r.me) :
    ((n.ring.area n.me).contains id = true ↔ n.me = r.me ∨ n.me ∈ r.backups r.me) ∧
      ∀ slot, slot.position = id →
        (n.mapDirectory fun d => Protocol.dropOutside d (n.ring.area n.me)).read slot =
          if n.me = r.me ∨ n.me ∈ r.backups r.me then n.read slot else none := by
  have harea : (n.ring.area n.me).contains id = true ↔ n.me = r.me ∨ n.me ∈ r.backups r.me :=
    Ring.area_contains_iff_keeps hme hlist hlist' hown
  refine ⟨harea, fun slot hslot => ?_⟩
  rw [read_dropOutside, hslot]
  by_cases hkeeps : n.me = r.me ∨ n.me ∈ r.backups r.me
  · rw [if_pos (harea.mpr hkeeps), if_pos hkeeps]
  · rw [if_neg (mt harea.mp hkeeps), if_neg hkeeps]

/-- In the ring of five the superpeer at 4000 keeps what the one at 1000 owns. -/
theorem placement_ringOfFive :
    let n := Node.complete Overlay.ringOfFive (Overlay.twoAttempts ⟨4000⟩ .superpeer)
    let r := Ring.complete Overlay.ringOfFive (Overlay.twoAttempts ⟨1000⟩ .superpeer)
    Overlay.ringOfFive.Owns ⟨500⟩ r.me ∧ n.me ∈ r.backups r.me ∧
      ((n.ring.area n.me).contains ⟨500⟩ = true ↔ n.me = r.me ∨ n.me ∈ r.backups r.me) ∧
      ∀ slot, slot.position = ⟨500⟩ →
        (n.mapDirectory fun d => Protocol.dropOutside d (n.ring.area n.me)).read slot =
          if n.me = r.me ∨ n.me ∈ r.backups r.me then n.read slot else none := by
  have hown : Overlay.ringOfFive.Owns ⟨500⟩
      (Ring.complete Overlay.ringOfFive (Overlay.twoAttempts ⟨1000⟩ .superpeer)).me :=
    NodeSet.head?_roundFrom.mp (by decide)
  exact ⟨hown, by decide, Node.placement (by decide) (by decide) (by decide) hown⟩

end ChunkDirectory
