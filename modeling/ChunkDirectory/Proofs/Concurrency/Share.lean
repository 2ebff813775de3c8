import ChunkDirectory.Proofs.Concurrency.Requests
import ChunkDirectory.Proofs.Protocol.Welcome

/-!
# The newcomer's share

What a promotion and an admission have in common. The snapshot that the owner takes holds what the
owner reads in every slot of the newcomer's share (`Node.carries_snapshotFor`). Whoever takes over
the snapshot holds this and applies further mutations to it (`Machine.Took`). Whoever is to answer
goes on quietly until it does (`Machine.Answers`). The superpeer before the owner is told of the
newcomer (`Machine.Steady.notice`).
-/

namespace ChunkDirectory

open NodeId

/-- `new` enters the ring `s` in front of `owner`. -/
structure Entrance (s : NodeSet) (owner new : NodeId) : Prop where
  owns : s.Owns new owner
  fresh : new ∉ s
  valid : ∀ x ∈ s.insert new, x.isReserved = false

namespace Entrance

variable {s ps : NodeSet} {owner new x : NodeId}

theorem ne (h : Entrance s owner new) (hx : x ∈ s) : x ≠ new := fun heq => h.fresh (heq ▸ hx)

/-- Everyone else in the ring may list the newcomer. -/
theorem admits (h : Entrance s owner new) {r : Ring} (hme : r.me ∈ s) : r.admits new = true :=
  Ring.admits_iff.mpr ⟨Ne.symm (h.ne hme), h.valid new (NodeSet.mem_insert.mpr (.inl rfl))⟩

/-- The newcomer may list everyone in the ring. -/
theorem admits_member (h : Entrance s owner new) {r : Ring} (hme : r.me = new) (hx : x ∈ s) :
    r.admits x = true :=
  Ring.admits_iff.mpr ⟨hme ▸ h.ne hx, h.valid x (NodeSet.mem_insert.mpr (.inr hx))⟩

/-- Whoever takes over the newcomer's place has exact pointers. -/
theorem adopt_pointed (h : Entrance s owner new) {p : NodeId} {snapshot : Snapshot}
    (hplaces : Node.Places s ps owner new p snapshot) {r : Ring} (hme : r.me = new) :
    (r.adopt snapshot).me = new ∧ (r.adopt snapshot).Pointed (s.insert new) := by
  obtain ⟨t, u, hadopt, -, -⟩ := Ring.adopt_eq hplaces.predecessor hplaces.successor
    (h.admits_member hme hplaces.member) (h.admits_member hme h.owns.1)
  have hafter := (NodeSet.owner_before h.owns h.fresh).after
    (NodeSet.mem_insert.mpr (.inr h.owns.1))
  have hbefore := hplaces.before
  subst hme
  rw [hadopt]
  exact ⟨rfl, .of_some rfl hbefore rfl hafter⟩

end Entrance

/-! ## Snapshots -/

/-- The snapshot has `content` for a slot: whoever takes it over finds this there, and what was
there before if this is nothing. -/
def Snapshot.Carries (snapshot : Snapshot) (slot : Slot) (content : Option slot.Content) : Prop :=
  ∀ d : Directory, (⟨d.trees.insertAll snapshot.trees, d.mappings.putAll snapshot.mappings⟩ :
    Directory).read slot = content.or (d.read slot)

/-- The area of a newcomer covers all it owns. -/
theorem Ring.area_contains {s : NodeSet} {r : Ring} {new id : NodeId} (hnew : new ∉ s)
    (hlisted : ∀ x ∈ r.superpeers, x ∈ s) (hown : (s.insert new).Owns id new) :
    (r.area new).contains id = true := by
  unfold area
  split
  case isTrue => rfl
  case isFalse =>
    cases hstart : (r.superpeers.roundFrom new).reverse[replicas]? with
    | none => rfl
    | some start =>
      have hmem : start ∈ s := by
        have hround := List.mem_reverse.mp (List.mem_of_getElem? hstart)
        exact hlisted start (NodeSet.mem_roundFrom.mp hround)
      have hne : start ≠ new := fun heq => hnew (heq ▸ hmem)
      show Arc.contains ⟨start, new, .upperClosed⟩ id = true
      rw [Arc.mem_upperClosed_iff hne]
      have hle := hown.2 start (NodeSet.mem_insert.mpr (.inr hmem))
      have hpass := clockwise_add_of_le hle
      have hturn := clockwise_add_swap hne
      have hlt := clockwise_lt id start
      omega

/-- A snapshot for a newcomer carries what the node reads in the newcomer's area. -/
theorem Node.carries_of_contains {n : Node} {new p : NodeId} {slot : Slot} (hkeyed : n.Keyed)
    (harea : (n.ring.area new).contains slot.position = true) :
    (n.snapshotFor p new).Carries slot (n.read slot) := by
  intro d
  have hother : (n.directory?.getD .empty).trees.Keyed ∧
      (n.directory?.getD .empty).read slot = n.read slot := by
    cases hd : n.directory? with
    | none =>
      rw [read, hd]
      refine ⟨fun creator tree htree => ?_, Directory.read_empty slot⟩
      cases htree
    | some other => exact ⟨hkeyed other hd, (read_of_directory? hd).symm⟩
  have htakeOver := Directory.read_takeOver (d := d) hother.1 (n.ring.area new).contains slot
  rw [if_pos harea, hother.2] at htakeOver
  exact htakeOver

/-- A snapshot for a newcomer carries what the owner reads in the newcomer's share. -/
theorem Node.carries_snapshotFor {s : NodeSet} {n : Node} {new p : NodeId} {slot : Slot}
    (hkeyed : n.Keyed) (hnew : new ∉ s) (hlisted : ∀ x ∈ n.ring.superpeers, x ∈ s)
    (hown : (s.insert new).Owns slot.position new) :
    (n.snapshotFor p new).Carries slot (n.read slot) :=
  carries_of_contains hkeyed (Ring.area_contains hnew hlisted hown)

/-- What a newcomer installs goes before what it holds. -/
theorem Node.read_install {n : Node} {snapshot : Snapshot} {slot : Slot}
    {content : Option slot.Content} (hrole : n.isSuperpeer = true)
    (hcarries : snapshot.Carries slot content) :
    (n.install snapshot).read slot = content.or (n.read slot) := by
  obtain ⟨d, hd⟩ := Node.exists_directory hrole
  have hinstalled : (n.install snapshot).directory? =
      some ⟨d.trees.insertAll snapshot.trees, d.mappings.putAll snapshot.mappings⟩ := by
    have hmap := directory?_mapDirectory (n := n.mapRing (·.adopt snapshot)) fun d =>
      ⟨d.trees.insertAll snapshot.trees, d.mappings.putAll snapshot.mappings⟩
    rw [show (n.mapRing (·.adopt snapshot)).directory? = n.directory? from rfl, hd] at hmap
    exact hmap
  rw [Node.read_of_directory? hinstalled, Node.read_of_directory? hd]
  exact hcarries d

/-! ## Taking over -/

namespace Machine

variable {s ps S : NodeSet} {owner new : NodeId} {nodes₀ nodes : NodeId → Node}
  {σ : Machine} {t : Thread} {trace during : List Segment}

/-- A superpeer `n` has taken over its share of the ring `S` and gone on from there. -/
structure Took (S : NodeSet) (new : NodeId) (content : (slot : Slot) → Option slot.Content)
    (during : List Segment) (n : Node) : Prop where
  role : n.isSuperpeer = true
  pointed : n.ring.Pointed S
  read : ∀ slot, S.Owns slot.position new →
    n.read slot = slot.replay (appliedBy new during) (content slot)
  accepted : ∀ g ∈ during, g.node = new → ∀ m, g.Accepts m → S.Owns m.key new

/-- A node has applied nothing. -/
def Idle (id : NodeId) (trace : List Segment) : Prop :=
  ∀ g ∈ trace, g.node = id → g.applied? = none

theorem Idle.append {id : NodeId} {trace' : List Segment} (h : Idle id trace)
    (h' : Idle id trace') : Idle id (trace ++ trace') := by
  intro g hg
  rcases List.mem_append.mp hg with hg | hg
  · exact h g hg
  · exact h' g hg

theorem Idle.appliedBy_eq {id : NodeId} (h : Idle id trace) : appliedBy id trace = [] := by
  refine List.filterMap_eq_nil_iff.mpr fun g hg => ?_
  obtain ⟨hg, hnode⟩ := List.mem_filter.mp hg
  exact h g hg (of_decide_eq_true hnode)

/-- What happened before and did not concern the node can be counted in. -/
theorem Took.of_idle {content : (slot : Slot) → Option slot.Content} {n : Node}
    (h : Took S new content [] n) (hidle : Idle new during) : Took S new content during n := by
  refine ⟨h.role, h.pointed, ?_, ?_⟩
  · intro slot hown
    rw [hidle.appliedBy_eq]
    exact h.read slot hown
  · intro g hg hnode m hm
    have happlied := hidle g hg hnode
    rw [hm.applied?] at happlied
    cases happlied

/-- A step leaves all nodes alone but the one that goes on. -/
theorem evolves_of_ne {id : NodeId} (h : id ≠ t.node) :
    (σ.nodes id).Evolves ((σ.advance t).nodes id) (appliedBy id [σ.segment t]) := by
  rw [nodes_advance_of_ne h, appliedBy_of_ne h]
  exact Node.evolves_of_core rfl

theorem Took.advance {content : (slot : Slot) → Option slot.Content}
    (h : Took S new content during (σ.nodes new)) (hme : (σ.nodes new).me = new) (hnew : new ∈ S)
    (hevolves : (σ.nodes new).Evolves ((σ.advance t).nodes new) (appliedBy new [σ.segment t])) :
    Took S new content (during ++ [σ.segment t]) ((σ.advance t).nodes new) := by
  refine ⟨hevolves.role.trans h.role, ?_, ?_, ?_⟩
  · rw [hevolves.ring]
    exact h.pointed
  · intro slot hown
    rw [appliedBy_append, Slot.replay_append, ← h.read slot hown]
    exact hevolves.read h.role slot
  · intro g hg hnode m hm
    rcases List.mem_append.mp hg with hg | hg
    · exact h.accepted g hg hnode m hm
    · rw [List.mem_singleton.mp hg] at hnode hm
      have hprimary : (σ.nodes t.node).isPrimaryFor m.key = true := hm.isPrimaryFor
      rw [show t.node = new from hnode] at hprimary
      have hown := (Node.isPrimaryFor_iff h.role h.pointed (by rw [hme]; exact hnew)).mp hprimary
      rw [hme] at hown
      exact hown

/-- What the owner holds at first and after some segments. -/
def held (owner : NodeId) (nodes₀ : NodeId → Node) (before : List Segment) (slot : Slot) :
    Option slot.Content :=
  slot.replay (appliedBy owner before) ((nodes₀ owner).read slot)

/-- A peer applies nothing. -/
theorem Quiet.idle {id : NodeId} (h : σ.Quiet S t) (hrole : (σ.nodes id).isSuperpeer = false) :
    Idle id [σ.segment t] := by
  intro g hg hnode
  rw [List.mem_singleton.mp hg] at hnode ⊢
  cases happlied : (σ.segment t).applied? with
  | none => rfl
  | some m =>
    have hsuperpeer := h.role m happlied
    rw [show t.node = id from hnode, hrole] at hsuperpeer
    cases hsuperpeer

/-- The superpeers of the ring `s` accept a newcomer's share as the owner's, and nothing has been
decided yet. -/
structure Undivided (s ps : NodeSet) (nodes : NodeId → Node) (trace : List Segment) : Prop where
  formed : ∀ x ∈ s, (nodes x).ring.Formed s ps
  plain : ∀ g ∈ trace, g.cue.isPlain = true

/-- A step in which no view of the ring changes and nothing is decided. -/
structure Settles (s : NodeSet) (σ : Machine) (t : Thread) : Prop where
  ring : ∀ x ∈ s, ((σ.advance t).nodes x).ring = (σ.nodes x).ring
  plain : t.cue.isPlain = true

theorem Undivided.advance (h : Undivided s ps σ.nodes σ.trace) (hsettles : Settles s σ t) :
    Undivided s ps (σ.advance t).nodes (σ.advance t).trace := by
  constructor
  · intro x hx
    rw [hsettles.ring x hx]
    exact h.formed x hx
  · intro g hg
    rcases List.mem_append.mp hg with hg | hg
    · exact h.plain g hg
    · rw [List.mem_singleton.mp hg]
      exact hsettles.plain

/-- The owner's predecessor is the superpeer before it. -/
theorem Undivided.before_of_predecessor (h : Undivided s ps nodes trace) (howner : owner ∈ s)
    (hme : (nodes owner).me = owner) {old : NodeId}
    (hold : (nodes owner).ring.predecessor = some old) : s.Before owner old := by
  have hbefore := ((h.formed owner howner).predecessor old).mp hold
  rw [show (nodes owner).ring.me = owner from hme] at hbefore
  exact hbefore

theorem Quiet.settles (h : σ.Quiet S t) : Settles s σ t :=
  ⟨fun x _ => (h.evolves x).ring, h.plain⟩

/-- The owner has split its range at the beginning of `rest`, and accepts only what it keeps. -/
structure Divided (s ps : NodeSet) (owner new : NodeId) (rest : List Segment)
    (nodes : NodeId → Node) : Prop where
  formed : (nodes owner).ring.Formed (s.insert new) ps
  late : ∀ g ∈ rest, g.node = owner → ∀ m, g.Accepts m → (s.insert new).Owns m.key owner

theorem Divided.advance {rest : List Segment} (h : Divided s ps owner new rest σ.nodes)
    (hsteady : Steady s ps new nodes₀ σ.nodes σ.trace) (howner : owner ∈ s)
    (hevolves : (σ.nodes owner).Evolves ((σ.advance t).nodes owner)
      (appliedBy owner [σ.segment t])) :
    Divided s ps owner new (rest ++ [σ.segment t]) (σ.advance t).nodes := by
  constructor
  · rw [hevolves.ring]
    exact h.formed
  · intro g hg hnode m hm
    rcases List.mem_append.mp hg with hg | hg
    · exact h.late g hg hnode m hm
    · rw [List.mem_singleton.mp hg] at hnode hm
      have hprimary : (σ.nodes t.node).isPrimaryFor m.key = true := hm.isPrimaryFor
      rw [show t.node = owner from hnode] at hprimary
      have hme : (σ.nodes owner).me = owner := hsteady.me owner
      have hown := (Node.isPrimaryFor_iff (hsteady.role owner howner) h.formed.toPointed
        (by rw [hme]; exact NodeSet.mem_insert.mpr (.inr howner))).mp hprimary
      rw [hme] at hown
      exact hown

/-- What is left to do at `home` goes on, or `f` is given the answer it waits for. -/
def Answers (σ : Machine) (S : NodeSet) (home : NodeId) (f : Frame) (answer : Message) (t : Thread)
    (x : Oracle) : Prop :=
  σ.next t x = .inr ⟨f.node, .reply answer, f.resume (.ok answer), []⟩ ∨
    ∃ t', σ.next t x = .inr t' ∧ t'.Tame S (Replies (· = answer)) home [f]

theorem answers_of_tame {home : NodeId} {f : Frame} {answer : Message}
    (h : t.Tame S (Replies (· = answer)) home [f]) (x : Oracle) :
    σ.Quiet S t ∧ σ.Answers S home f answer t x := by
  obtain ⟨hquiet, hnext⟩ := h.reply_or (σ := σ) x
  refine ⟨hquiet, hnext.imp_left ?_⟩
  rintro ⟨reply, n, rfl, hcallers, -, hnext⟩
  rw [hnext, Thread.next, hcallers]

/-- Nothing but the end of the operation is left to do. -/
def Closes (S : NodeSet) (owner : NodeId) (t : Thread) : Prop :=
  t.Tame S (Replies fun _ => True) owner []

theorem Closes.step (h : Closes S owner t) (x : Oracle) :
    σ.Quiet S t ∧ ∀ t', (σ.next t x).getRight? = some t' → Closes S owner t' := by
  obtain ⟨hquiet, hnext⟩ := Thread.Tame.reply_or (σ := σ) h x
  refine ⟨hquiet, fun t' ht' => ?_⟩
  rcases hnext with ⟨reply, n, -, hcallers, -, hnext⟩ | ⟨t₁, ht₁, htame⟩
  · rw [hnext, Thread.next, hcallers] at ht'
    cases ht'
  · rw [ht₁] at ht'
    cases ht'
    exact htame

/-- A step of the newcomer changes no other view of the ring. -/
theorem settles_of_new (he : Entrance s owner new) (hnode : t.node = new)
    (hplain : t.cue.isPlain = true) : Settles s σ t := by
  refine ⟨fun x hx => ?_, hplain⟩
  rw [nodes_advance_of_ne (hnode ▸ he.ne hx)]

/-! ## Telling the superpeer before -/

/-- The note that a superpeer is sent when `new` has come between it and the owner. -/
def notice (owner new old : NodeId) (callers : List Frame) : Thread :=
  .arrival owner old (.notifyAboutNewSuccessor new) callers

theorem next_notice {old : NodeId} {f : Frame} {rest : List Frame} (x : Oracle) :
    σ.next (notice owner new old (f :: rest)) x =
      .inr ⟨f.node, .reply .ack, f.resume (.ok .ack), rest⟩ := rfl

/-- The superpeer before the owner takes note of the newcomer, unless it knows it already. -/
theorem Steady.notice (h : Steady s ps new nodes₀ σ.nodes σ.trace) (he : Entrance s owner new)
    {old : NodeId} (hold : s.Before owner old) (callers : List Frame) :
    Steady s ps new nodes₀ (σ.advance (notice owner new old callers)).nodes
      (σ.advance (notice owner new old callers)).trace := by
  have hme : (σ.nodes old).me = old := h.me old
  have hmem : (σ.nodes old).ring.me ∈ s := by
    rw [show (σ.nodes old).ring.me = old from hme]
    exact hold.1
  have hbefore : s.Before owner (σ.nodes old).me := by
    rw [hme]
    exact hold
  have hrole := Node.role_noticeSuccessor (σ.nodes old) new
  suffices hring : ((σ.nodes old).noticeSuccessor new).me = old ∧
      ((σ.nodes old).noticeSuccessor new).ring.Formed (s.insert new) ps from
    h.reshape he.fresh (t := Machine.notice owner new old callers) hold.1 rfl rfl hring.1 hrole
      hring.2
  rcases h.formed old hold.1 with hformed | hformed
  · obtain ⟨hme', -, hformed'⟩ := Node.noticeSuccessor_formed hformed (h.role old hold.1) hmem
      he.owns he.fresh hbefore (he.admits hmem)
    exact ⟨hme'.trans hme, hformed'⟩
  · have hafter := (NodeSet.before_newcomer he.owns he.fresh hbefore).insert_self.after
      (NodeSet.mem_insert.mpr (.inl rfl))
    have hsuccessor := (hformed.successor new).mpr hafter
    have hsame : (σ.nodes old).noticeSuccessor new = σ.nodes old := by
      unfold Node.noticeSuccessor
      simp only [hsuccessor, ne_eq, not_true, decide_false, Bool.and_false, Bool.false_eq_true,
        if_false, ite_self]
    rw [hsame]
    exact ⟨hme, hformed⟩

end Machine

end ChunkDirectory
