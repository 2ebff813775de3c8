import ChunkDirectory.Proofs.Directory.Slot
import ChunkDirectory.Proofs.Overlay.Calm
import ChunkDirectory.Proofs.Ring.Exact

/-!
# Settled overlays

An overlay is settled for a set of superpeers when every message is delivered, exactly the members
of the set are superpeers, each of them has an exact view of the ring, and every peer lists the
whole set.

What the nodes store is read slot by slot (`Overlay.read`). Applying a mutation at a node
(`mutateAt`) changes what this one node reads and nothing that settledness is about.
-/

namespace ChunkDirectory

namespace Node

variable {n : Node} {m : Mutation} {slot : Slot}

/-- The node after its directory was changed by a mutation. -/
def mutate (n : Node) (m : Mutation) : Node := n.mapDirectory fun d => (m.apply d).1

/-- What a node keeps when its directory changes. -/
def outlook (n : Node) : Config × Ring × Bool := (n.config, n.ring, n.isSuperpeer)

/-- A node's place on the ring. -/
def place (n : Node) : NodeId × NodeSet × Option NodeId × Option NodeId × Bool :=
  (n.ring.me, n.ring.superpeers, n.ring.predecessor, n.ring.successor, n.isSuperpeer)

/-- What the node stores in a slot; a peer stores nothing. -/
def read (n : Node) (slot : Slot) : Option slot.Content := n.directory?.bind (·.read slot)

@[simp] theorem ring_mapDirectory (f : Directory → Directory) :
    (n.mapDirectory f).ring = n.ring := by
  unfold mapDirectory
  cases n.role <;> rfl

@[simp] theorem config_mapDirectory (f : Directory → Directory) :
    (n.mapDirectory f).config = n.config := by
  unfold mapDirectory
  cases n.role <;> rfl

@[simp] theorem directory?_mapDirectory (f : Directory → Directory) :
    (n.mapDirectory f).directory? = n.directory?.map f := by
  unfold mapDirectory directory?
  cases hrole : n.role with
  | peer _ => simp only [hrole, Option.map_none]
  | superpeer _ => simp only [Option.map_some]

@[simp] theorem isSuperpeer_mapDirectory (f : Directory → Directory) :
    (n.mapDirectory f).isSuperpeer = n.isSuperpeer := by
  rw [isSuperpeer, isSuperpeer, directory?_mapDirectory, Option.isSome_map]

@[simp] theorem ring_mutate : (n.mutate m).ring = n.ring := ring_mapDirectory _

@[simp] theorem config_mutate : (n.mutate m).config = n.config := config_mapDirectory _

@[simp] theorem me_mutate : (n.mutate m).me = n.me := by
  rw [me, me, ring_mutate]

@[simp] theorem directory?_mutate :
    (n.mutate m).directory? = n.directory?.map fun d => (m.apply d).1 := directory?_mapDirectory _

@[simp] theorem isSuperpeer_mutate : (n.mutate m).isSuperpeer = n.isSuperpeer :=
  isSuperpeer_mapDirectory _

@[simp] theorem outlook_mutate : (n.mutate m).outlook = n.outlook := by
  rw [outlook, outlook, config_mutate, ring_mutate, isSuperpeer_mutate]

theorem place_of_outlook {n' : Node} (h : n'.outlook = n.outlook) : n'.place = n.place := by
  have hring : n'.ring = n.ring := congrArg (·.2.1) h
  have hrole : n'.isSuperpeer = n.isSuperpeer := congrArg (·.2.2) h
  rw [place, place, hring, hrole]

theorem isSuperpeer_of_place {n' : Node} (h : n'.place = n.place) :
    n'.isSuperpeer = n.isSuperpeer :=
  congrArg (·.2.2.2.2) h

/-- Whether a view of the ring is exact is a matter of the place. -/
theorem exact_of_place {n' : Node} {s : NodeSet} (h : n'.place = n.place)
    (hexact : n.ring.Exact s) : n'.ring.Exact s := by
  have hme : n'.ring.me = n.ring.me := congrArg (·.1) h
  have hlist : n'.ring.superpeers = n.ring.superpeers := congrArg (·.2.1) h
  have hp : n'.ring.predecessor = n.ring.predecessor := congrArg (·.2.2.1) h
  have hq : n'.ring.successor = n.ring.successor := congrArg (·.2.2.2.1) h
  refine ⟨⟨fun x => ?_, fun x => ?_⟩, ?_⟩
  · rw [hp, hme]
    exact hexact.predecessor x
  · rw [hq, hme]
    exact hexact.successor x
  · rw [hlist, hme]
    exact hexact.superpeers

theorem directory?_congr {n' : Node} (h : n'.role = n.role) : n'.directory? = n.directory? := by
  unfold directory?
  rw [h]

theorem isSuperpeer_congr {n' : Node} (h : n'.role = n.role) : n'.isSuperpeer = n.isSuperpeer := by
  rw [isSuperpeer, isSuperpeer, directory?_congr h]

theorem read_congr {n' : Node} (h : n'.role = n.role) : n'.read slot = n.read slot := by
  rw [read, read, directory?_congr h]

/-- A superpeer's directory. -/
theorem exists_directory (h : n.isSuperpeer = true) : ∃ d, n.directory? = some d :=
  Option.isSome_iff_exists.mp h

theorem read_of_directory? {d : Directory} (h : n.directory? = some d) :
    n.read slot = d.read slot := by
  rw [read, h, Option.bind_some]

/-- A superpeer's slots change as the mutation says. -/
theorem read_mutate (h : n.isSuperpeer = true) :
    (n.mutate m).read slot = m.change slot (n.read slot) := by
  obtain ⟨d, hd⟩ := exists_directory h
  have hd' : (n.mutate m).directory? = some (m.apply d).1 := by
    rw [directory?_mutate, hd, Option.map_some]
  rw [read_of_directory? hd, read_of_directory? hd', Mutation.read_apply]

/-- Applying a mutation is setting the directory it results in. -/
theorem mapDirectory_apply {d : Directory} (h : n.directory? = some d) :
    (n.mapDirectory fun _ => (m.apply d).1) = n.mutate m := by
  unfold mutate mapDirectory
  unfold directory? at h
  cases hrole : n.role with
  | peer _ => rfl
  | superpeer d' =>
    rw [hrole] at h
    cases h
    rfl

theorem mapDirectory_self {d : Directory} (h : n.directory? = some d) :
    (n.mapDirectory fun _ => d) = n := by
  unfold mapDirectory
  unfold directory? at h
  cases hrole : n.role with
  | peer _ => rfl
  | superpeer d' =>
    rw [hrole] at h
    cases h
    simp only
    rw [← hrole]

end Node

namespace Overlay

variable {ρ : Type} {s : NodeSet} {o : Overlay ρ} {id other : NodeId} {n : Node} {m : Mutation}
  {slot : Slot}

/-- Every message is delivered, the superpeers are the members of `s` and know the whole ring, and
every peer lists all of them. -/
structure Settled (s : NodeSet) (o : Overlay ρ) : Prop extends Calm o where
  inhabited : ∃ x, x ∈ s
  valid : ∀ x ∈ s, x.isReserved = false
  running : ∀ x ∈ s, ∃ n, o.node? x = some n
  superpeer_iff : ∀ id n, o.node? id = some n → (n.isSuperpeer = true ↔ id ∈ s)
  exact : ∀ id n, o.node? id = some n → id ∈ s → n.ring.Exact s
  lists : ∀ id n, o.node? id = some n → id ∉ s → n.ring.superpeers = s

/-- The same nodes are running, with the same configurations, roles and views of the ring. -/
def SameViews (o o' : Overlay ρ) : Prop :=
  ∀ id, (o'.node? id).map Node.outlook = (o.node? id).map Node.outlook

/-- What a node stores in a slot. -/
def read (o : Overlay ρ) (id : NodeId) (slot : Slot) : Option slot.Content :=
  (o.node? id).bind (·.read slot)

/-- Applies a mutation at one node. -/
def mutateAt (m : Mutation) (o : Overlay ρ) (id : NodeId) : Overlay ρ :=
  match o.node? id with
  | some n => o.put id (n.mutate m)
  | none => o

/-- Applies a mutation at each of some nodes. -/
def mutateEach (m : Mutation) (ids : List NodeId) (o : Overlay ρ) : Overlay ρ :=
  ids.foldl (mutateAt m) o

theorem mutateAt_of_node? (h : o.node? id = some n) : o.mutateAt m id = o.put id (n.mutate m) := by
  rw [mutateAt, h]

/-- Mutations change the states of nodes and nothing else. -/
theorem exists_nodes_mutateAt (o : Overlay ρ) (m : Mutation) (id : NodeId) :
    ∃ nodes, o.mutateAt m id = { o with nodes } := by
  cases hn : o.node? id with
  | none => exact ⟨o.nodes, by rw [mutateAt, hn]⟩
  | some n =>
    rw [mutateAt_of_node? hn, put]
    cases o.members.get? id with
    | none => exact ⟨o.nodes, rfl⟩
    | some member => exact ⟨_, rfl⟩

theorem exists_nodes_mutateEach (o : Overlay ρ) (m : Mutation) (ids : List NodeId) :
    ∃ nodes, o.mutateEach m ids = { o with nodes } := by
  induction ids generalizing o with
  | nil => exact ⟨o.nodes, rfl⟩
  | cons id rest ih =>
    obtain ⟨nodes, hfirst⟩ := exists_nodes_mutateAt o m id
    have hstep : o.mutateEach m (id :: rest) = (o.mutateAt m id).mutateEach m rest := rfl
    obtain ⟨nodes', hrest⟩ := ih { o with nodes }
    exact ⟨nodes', by rw [hstep, hfirst, hrest]⟩

theorem node?_change {condition : Condition} {add remove : List NodeId} :
    (o.change condition add remove).node? id = o.node? id := rfl

theorem holds_change_of_ne {condition other : Condition} {add remove : List NodeId}
    (hne : other ≠ condition) :
    (o.change condition add remove).holds other id = o.holds other id := by
  simp [holds, change, hne, Ne.symm hne]

theorem read_of_node? (h : o.node? id = some n) : o.read id slot = n.read slot := by
  rw [read, h, Option.bind_some]

namespace SameViews

variable {o₁ o₂ : Overlay ρ}

theorem rfl (o : Overlay ρ) : o.SameViews o := fun _ => Eq.refl _

theorem trans (h : o.SameViews o₁) (h₁ : o₁.SameViews o₂) : o.SameViews o₂ :=
  fun id => (h₁ id).trans (h id)

theorem symm (h : o.SameViews o₁) : o₁.SameViews o := fun id => (h id).symm

/-- Who runs in the one overlay runs in the other. -/
theorem exists_node? (h : o.SameViews o₁) (hn : o.node? id = some n) :
    ∃ n₁, o₁.node? id = some n₁ ∧ n₁.outlook = n.outlook := by
  have hview := h id
  rw [hn, Option.map_some] at hview
  exact Option.map_eq_some_iff.mp hview

end SameViews

/-- A node that is given a state with the same view. -/
theorem Calm.sameViews_put {m : Node} (h : o.Calm) (hn : o.node? id = some n)
    (hview : m.outlook = n.outlook) : o.SameViews (o.put id m) := by
  intro other
  by_cases heq : other = id
  · subst heq
    rw [node?_put_self hn, hn, Option.map_some, Option.map_some, hview]
  · rw [h.node?_put_of_ne heq]

/-- Applying a mutation at a node leaves the views of all nodes alone. -/
theorem Calm.sameViews_mutateAt (h : o.Calm) (id : NodeId) (m : Mutation) :
    o.SameViews (o.mutateAt m id) := by
  cases hn : o.node? id with
  | none =>
    rw [Overlay.mutateAt, hn]
    exact .rfl o
  | some n =>
    rw [mutateAt_of_node? hn]
    exact h.sameViews_put hn Node.outlook_mutate

namespace Settled

/-- Whether an overlay is settled is a question about the places of its nodes. -/
theorem of_places {o' : Overlay ρ} (h : o.Settled s) (hcalm : o'.Calm)
    (hplaces : ∀ id, (o'.node? id).map Node.place = (o.node? id).map Node.place) :
    o'.Settled s := by
  have hback : ∀ id n', o'.node? id = some n' → ∃ n, o.node? id = some n ∧ n'.place = n.place := by
    intro id n' hn'
    have hplace := hplaces id
    rw [hn', Option.map_some] at hplace
    obtain ⟨n, hn, hsame⟩ := Option.map_eq_some_iff.mp hplace.symm
    exact ⟨n, hn, hsame.symm⟩
  refine ⟨hcalm, h.inhabited, h.valid, fun x hx => ?_, fun id n' hn' => ?_, fun id n' hn' hid => ?_,
    fun id n' hn' hid => ?_⟩
  · obtain ⟨n, hn⟩ := h.running x hx
    have hplace := hplaces x
    rw [hn, Option.map_some] at hplace
    obtain ⟨n', hn', -⟩ := Option.map_eq_some_iff.mp hplace
    exact ⟨n', hn'⟩
  · obtain ⟨n, hn, hsame⟩ := hback id n' hn'
    rw [Node.isSuperpeer_of_place hsame]
    exact h.superpeer_iff id n hn
  · obtain ⟨n, hn, hsame⟩ := hback id n' hn'
    exact Node.exact_of_place hsame (h.exact id n hn hid)
  · obtain ⟨n, hn, hsame⟩ := hback id n' hn'
    have hlist : n'.ring.superpeers = n.ring.superpeers := congrArg (·.2.1) hsame
    rw [hlist]
    exact h.lists id n hn hid

theorem of_sameViews {o' : Overlay ρ} (h : o.Settled s) (hcalm : o'.Calm)
    (hviews : o.SameViews o') : o'.Settled s := by
  refine h.of_places hcalm fun id => ?_
  cases hn : o.node? id with
  | none =>
    have hview := hviews id
    rw [hn, Option.map_none] at hview
    rw [Option.map_eq_none_iff.mp hview]
  | some n =>
    obtain ⟨n', hn', hview⟩ := hviews.exists_node? hn
    rw [hn', Option.map_some, Option.map_some, Node.place_of_outlook hview]

/-- A node that is given a state with the same place on the ring. -/
theorem put_place {m : Node} (h : o.Settled s) (hn : o.node? id = some n)
    (hplace : m.place = n.place) : (o.put id m).Settled s := by
  have hme : m.ring.me = n.ring.me := congrArg (·.1) hplace
  refine h.of_places (h.put (hme.trans (h.me hn))) fun other => ?_
  by_cases heq : other = id
  · subst heq
    rw [node?_put_self hn, hn, Option.map_some, Option.map_some, hplace]
  · rw [h.node?_put_of_ne heq]

/-- A superpeer is running with a directory. -/
theorem exists_superpeer (h : o.Settled s) (hid : id ∈ s) :
    ∃ n, o.node? id = some n ∧ n.isSuperpeer = true := by
  obtain ⟨n, hn⟩ := h.running id hid
  exact ⟨n, hn, (h.superpeer_iff id n hn).mpr hid⟩

/-- Every key has an owner, which is running. -/
theorem exists_owner (h : o.Settled s) (key : NodeId) :
    ∃ owner n, s.Owns key owner ∧ o.node? owner = some n ∧ n.isSuperpeer = true := by
  obtain ⟨x, hx⟩ := h.inhabited
  obtain ⟨owner, hown⟩ := NodeSet.exists_owner hx key
  obtain ⟨n, hn, hrole⟩ := h.exists_superpeer hown.1
  exact ⟨owner, n, hown, hn, hrole⟩

/-- A node takes itself for the primary of exactly what it owns. -/
theorem isPrimaryFor_iff (h : o.Settled s) (hn : o.node? id = some n) (key : NodeId) :
    n.isPrimaryFor key = true ↔ s.Owns key id := by
  have hme := h.me hn
  by_cases hid : id ∈ s
  · have hrole := (h.superpeer_iff id n hn).mpr hid
    rw [Node.isPrimaryFor_iff hrole (h.exact id n hn hid).toPointed (by rw [hme]; exact hid), hme]
  · have hrole : n.isSuperpeer = false := by
      rw [← Bool.not_eq_true]
      exact fun hsuper => hid ((h.superpeer_iff id n hn).mp hsuper)
    rw [Node.isPrimaryFor_of_peer hrole]
    constructor
    · intro hfalse
      cases hfalse
    · intro hown
      exact absurd hown.1 hid

/-- It takes no note of conditions other than being cut off. -/
theorem change {condition : Condition} {add remove : List NodeId} (h : o.Settled s)
    (hne : condition ≠ .down) : (o.change condition add remove).Settled s := by
  refine ⟨⟨h.rules, h.queue, fun x member hmember => ?_, h.numbered⟩, h.inhabited, h.valid,
    h.running, h.superpeer_iff, h.exact, h.lists⟩
  rw [holds_change_of_ne (Ne.symm hne)]
  exact h.up x member hmember

/-- Applying a mutation somewhere keeps an overlay settled. -/
theorem mutateAt (h : o.Settled s) : (o.mutateAt m id).Settled s := by
  refine h.of_sameViews ?_ (h.sameViews_mutateAt id m)
  cases hn : o.node? id with
  | none =>
    rw [Overlay.mutateAt, hn]
    exact h.toCalm
  | some n =>
    rw [mutateAt_of_node? hn]
    exact h.put (by rw [Node.me_mutate]; exact h.me hn)

/-- A mutation changes what is stored where it is applied. -/
theorem read_mutateAt_self (h : o.Settled s) (hid : id ∈ s) :
    (o.mutateAt m id).read id slot = m.change slot (o.read id slot) := by
  obtain ⟨n, hn, hrole⟩ := h.exists_superpeer hid
  rw [mutateAt_of_node? hn, read_of_node? (node?_put_self hn), read_of_node? hn,
    Node.read_mutate hrole]

/-- A mutation changes nothing elsewhere. -/
theorem read_mutateAt_of_ne (h : o.Settled s) (hne : other ≠ id) :
    (o.mutateAt m id).read other slot = o.read other slot := by
  cases hn : o.node? id with
  | none => rw [Overlay.mutateAt, hn]
  | some n => rw [mutateAt_of_node? hn, read, read, h.node?_put_of_ne hne]

/-- Applying a mutation at several nodes keeps an overlay settled. -/
theorem mutateEach {ids : List NodeId} (h : o.Settled s) : (o.mutateEach m ids).Settled s := by
  induction ids generalizing o with
  | nil => exact h
  | cons id rest ih => exact ih h.mutateAt

theorem sameViews_mutateEach {ids : List NodeId} (h : o.Settled s) :
    o.SameViews (o.mutateEach m ids) := by
  induction ids generalizing o with
  | nil => exact .rfl o
  | cons id rest ih => exact (h.sameViews_mutateAt id m).trans (ih h.mutateAt)

/-- A mutation applied at several superpeers changes what these store and nothing else. -/
theorem read_mutateEach {ids : List NodeId} (h : o.Settled s) (hids : ∀ id ∈ ids, id ∈ s)
    (hnodup : ids.Nodup) :
    (o.mutateEach m ids).read id slot =
      if id ∈ ids then m.change slot (o.read id slot) else o.read id slot := by
  induction ids generalizing o with
  | nil => rfl
  | cons x rest ih =>
    obtain ⟨hx, hnodup⟩ := List.nodup_cons.mp hnodup
    have hrest : ∀ y ∈ rest, y ∈ s := fun y hy => hids y (List.mem_cons_of_mem x hy)
    have hstep : o.mutateEach m (x :: rest) = (o.mutateAt m x).mutateEach m rest := rfl
    rw [hstep, ih h.mutateAt hrest hnodup]
    by_cases hid : id = x
    · subst hid
      rw [if_neg hx, if_pos List.mem_cons_self, h.read_mutateAt_self (hids id List.mem_cons_self)]
    · rw [h.read_mutateAt_of_ne hid]
      simp only [List.mem_cons, hid, false_or]

end Settled

end Overlay

end ChunkDirectory
