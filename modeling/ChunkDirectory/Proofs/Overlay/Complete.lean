import ChunkDirectory.Proofs.Overlay.Settled

/-!
# Complete overlays

There are settled overlays of every size. Given a ring of superpeers and the configurations of all
nodes, each superpeer of the ring among them, `Overlay.complete` is the overlay in which every node
knows all it should and nothing is stored yet (`settled_complete`, `read_complete`).
-/

namespace ChunkDirectory

/-- The view of a node that knows all superpeers. -/
def Ring.complete (s : NodeSet) (c : Config) : Ring :=
  let r := Ring.new c.nodeId c.bootstrap c.expectedSuperpeers
  if c.nodeId ∈ s then
    let r := { r with superpeers := s.erase c.nodeId }
    { r with predecessor := r.previousBefore r.me, successor := r.nextAfter r.me }
  else { r with superpeers := s }

/-- A node of a ring that knows all superpeers and stores nothing. -/
def Node.complete (s : NodeSet) (c : Config) : Node :=
  { Node.new c with
    role := if c.nodeId ∈ s then .superpeer .empty else .peer none
    ring := .complete s c }

/-- The nodes of a ring that all know it. -/
def Overlay.complete {ρ : Type} (s : NodeSet) (configs : List Config) : Overlay ρ :=
  { Overlay.empty [] with
    nodes := (configs.map (Node.complete s)).toArray
    members := .ofList (configs.mapIdx fun i c => (c.nodeId, ⟨i, .start⟩)) }

variable {ρ : Type} {s : NodeSet} {c : Config} {configs : List Config} {id : NodeId} {n : Node}
  {slot : Slot}

theorem Ring.me_complete : (Ring.complete s c).me = c.nodeId := by
  unfold Ring.complete
  by_cases hc : c.nodeId ∈ s
  · simp only [if_pos hc, Ring.new]
  · simp only [if_neg hc, Ring.new]

/-- A superpeer that knows all others has an exact view. -/
theorem Ring.exact_complete (h : c.nodeId ∈ s) : (Ring.complete s c).Exact s := by
  unfold Ring.complete
  simp only [if_pos h]
  refine ⟨⟨?_, ?_⟩, rfl⟩
  · intro x
    exact previousBefore_eq_some_iff.trans NodeSet.before_erase_self
  · intro x
    exact nextAfter_eq_some_iff.trans NodeSet.after_erase_self

theorem Ring.superpeers_complete (h : c.nodeId ∉ s) : (Ring.complete s c).superpeers = s := by
  unfold Ring.complete
  simp only [if_neg h]

theorem Node.isSuperpeer_complete : (Node.complete s c).isSuperpeer = true ↔ c.nodeId ∈ s := by
  unfold Node.complete Node.isSuperpeer Node.directory?
  by_cases hc : c.nodeId ∈ s
  · simp [hc]
  · simp [hc]

namespace Overlay

/-- A member of a complete overlay has the state of one of the configurations. -/
theorem complete_of_member {member : Member}
    (h : (complete s configs : Overlay ρ).members.get? id = some member) :
    ∃ c, (complete s configs : Overlay ρ).nodes[member.node]? = some (Node.complete s c) ∧
      c.nodeId = id := by
  have hmem := SortedMap.mem_of_get?_ofList h
  obtain ⟨i, hi, heq⟩ := List.mem_mapIdx.mp hmem
  cases heq
  refine ⟨configs[i], ?_, rfl⟩
  simp [complete, hi]

theorem complete_of_node? (h : (complete s configs : Overlay ρ).node? id = some n) :
    ∃ c, n = Node.complete s c ∧ c.nodeId = id := by
  obtain ⟨member, hmember, hn⟩ := node?_eq_some_iff.mp h
  obtain ⟨c, hc, hid⟩ := complete_of_member hmember
  rw [hc] at hn
  cases hn
  exact ⟨c, rfl, hid⟩

theorem exists_config_of_node? (h : (complete s configs : Overlay ρ).node? id = some n) :
    ∃ c ∈ configs, c.nodeId = id := by
  obtain ⟨member, hmember, -⟩ := node?_eq_some_iff.mp h
  obtain ⟨i, hi, heq⟩ := List.mem_mapIdx.mp (SortedMap.mem_of_get?_ofList hmember)
  exact ⟨configs[i], List.getElem_mem hi, congrArg Prod.fst heq⟩

theorem calm_complete : (complete s configs : Overlay ρ).Calm := by
  refine ⟨rfl, rfl, fun _ _ _ => rfl, fun id member hmember => ?_⟩
  obtain ⟨c, hc, hid⟩ := complete_of_member hmember
  exact ⟨_, hc, Ring.me_complete.trans hid⟩

/-- Complete overlays are settled. -/
theorem settled_complete (hinhabited : ∃ x, x ∈ s) (hvalid : ∀ x ∈ s, x.isReserved = false)
    (hcover : ∀ x ∈ s, ∃ c ∈ configs, c.nodeId = x) :
    (complete s configs : Overlay ρ).Settled s := by
  refine ⟨calm_complete, hinhabited, hvalid, ?_, ?_, ?_, ?_⟩
  · intro x hx
    obtain ⟨c, hc, rfl⟩ := hcover x hx
    obtain ⟨i, hi, rfl⟩ := List.mem_iff_getElem.mp hc
    obtain ⟨member, hmember⟩ := SortedMap.exists_get?_ofList
      (List.mem_mapIdx.mpr ⟨i, hi, rfl⟩ :
        (configs[i].nodeId, (⟨i, .start⟩ : Member)) ∈
          configs.mapIdx fun i c => (c.nodeId, (⟨i, .start⟩ : Member)))
    exact calm_complete.exists_node? hmember
  · intro id n hn
    obtain ⟨c, rfl, rfl⟩ := complete_of_node? hn
    exact Node.isSuperpeer_complete
  · intro id n hn hid
    obtain ⟨c, rfl, rfl⟩ := complete_of_node? hn
    exact Ring.exact_complete hid
  · intro id n hn hid
    obtain ⟨c, rfl, rfl⟩ := complete_of_node? hn
    exact Ring.superpeers_complete hid

/-- Nothing is stored in a complete overlay. -/
theorem read_complete : (complete s configs : Overlay ρ).read id slot = none := by
  cases hn : (complete s configs : Overlay ρ).node? id with
  | none => rw [read, hn]; rfl
  | some n =>
    obtain ⟨c, rfl, rfl⟩ := complete_of_node? hn
    rw [read_of_node? hn]
    unfold Node.read Node.directory? Node.complete
    by_cases hc : c.nodeId ∈ s
    · simp [hc]
    · simp [hc]

/-! ## A small ring -/

/-- A node that makes two attempts at a request. -/
def twoAttempts (id : NodeId) (role : StartRole) : Config :=
  { Config.default with nodeId := id, role, retry := ⟨.ofSeconds 1, some 2⟩ }

/-- A ring of two superpeers. -/
def smallRing : NodeSet := .ofList [⟨0⟩, ⟨1000⟩]

/-- The superpeers of the small ring and a peer. -/
def smallOverlay : Overlay ρ :=
  complete smallRing
    [twoAttempts ⟨0⟩ .superpeer, twoAttempts ⟨1000⟩ .superpeer, twoAttempts ⟨500⟩ .peer]

theorem settled_smallOverlay : (smallOverlay : Overlay ρ).Settled smallRing := by
  have hmem : ∀ x ∈ smallRing, x = ⟨0⟩ ∨ x = ⟨1000⟩ := by
    intro x hx
    simpa using NodeSet.mem_ofList.mp hx
  refine settled_complete ⟨⟨0⟩, by decide⟩ (fun x hx => ?_) fun x hx => ?_
  · rcases hmem x hx with rfl | rfl <;> rfl
  · rcases hmem x hx with rfl | rfl
    · exact ⟨_, List.mem_cons_self, rfl⟩
    · exact ⟨_, List.mem_cons_of_mem _ List.mem_cons_self, rfl⟩

/-! ## A ring of five -/

/-- A ring in which every superpeer keeps the ranges of four. -/
def ringOfFive : NodeSet := .ofList [⟨0⟩, ⟨1000⟩, ⟨2000⟩, ⟨3000⟩, ⟨4000⟩]

/-- The superpeers of the ring of five and a peer. -/
def nodesOfFive : List Config :=
  ringOfFive.toList.map (twoAttempts · .superpeer) ++ [twoAttempts ⟨500⟩ .peer]

theorem settled_five : (complete ringOfFive nodesOfFive : Overlay ρ).Settled ringOfFive := by
  refine settled_complete ⟨⟨0⟩, by decide⟩ (fun x hx => ?_) fun x hx => ?_
  · have hall : ∀ x ∈ ringOfFive.toList, x.isReserved = false := by decide
    exact hall x hx
  · exact ⟨_, List.mem_append_left _ (List.mem_map_of_mem hx), rfl⟩

end Overlay

end ChunkDirectory
