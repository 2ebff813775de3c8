import ChunkDirectory.Proofs.Overlay.Steps
import ChunkDirectory.Proofs.Protocol.Admission

/-!
# Formation of a ring

Joins alone build the ring: after a superpeer has founded it, every newcomer joins at its first
attempt, through whichever superpeer it asks, and after each join the ring is as it should be
(`joins_form_ring`). No upkeep is needed for that.
-/

namespace ChunkDirectory

/-- A node that joins through a contact. -/
structure Newcomer where
  config : Config
  contact : NodeId
  holdsData : Bool

namespace Newcomer

variable {ρ : Type}

def id (j : Newcomer) : NodeId := j.config.nodeId

def isSuperpeer (j : Newcomer) : Bool := j.config.role = .superpeer

/-- The step in which it joins. -/
def step (j : Newcomer) : Step ρ := .add j.config (some j.contact) true j.holdsData

end Newcomer

namespace Membership

/-- The members of a ring that was just founded. -/
def founded (founder : NodeId) : Membership := ⟨(∅ : NodeSet).insert founder, ∅⟩

theorem mem_founded {founder x : NodeId} : x ∈ (founded founder).superpeers ↔ x = founder := by
  rw [founded, NodeSet.mem_insert]
  refine or_iff_left fun h => ?_
  cases h

/-- The members after a newcomer has joined. -/
def after (r : Membership) (j : Newcomer) : Membership := r.join j.id j.isSuperpeer

/-- The newcomer has an identifier of its own, its contact is a superpeer of the ring, and there are
no more superpeers than it expects. -/
structure Allows (r : Membership) (j : Newcomer) : Prop extends r.Fresh j.id where
  contact : j.contact ∈ r.superpeers
  room : r.superpeers.size ≤ j.config.expectedSuperpeers

/-- Each newcomer is allowed by the ring as it is when its turn comes. -/
def AllowsAll (r : Membership) : List Newcomer → Prop
  | [] => True
  | j :: rest => r.Allows j ∧ (r.after j).AllowsAll rest

theorem AllowsAll.take {r : Membership} {joins : List Newcomer} (h : r.AllowsAll joins) (k : Nat) :
    r.AllowsAll (joins.take k) := by
  induction joins generalizing r k with
  | nil =>
    rw [List.take_nil]
    exact h
  | cons j rest ih =>
    cases k with
    | zero => exact trivial
    | succ k => exact ⟨h.1, ih h.2 k⟩

end Membership

/-- A founder is alone on the ring. -/
theorem Ring.formed_founded (id bootstrap : NodeId) (expected : Nat) :
    (Ring.new id bootstrap expected).Formed (Membership.founded id).superpeers
      (Membership.founded id).peers :=
  .alone (fun _ hx => Membership.mem_founded.mp hx) (Membership.mem_founded.mpr rfl) rfl rfl
    rfl fun _ => Iff.rfl

namespace Overlay

variable {ρ : Type} {o o₁ : Overlay ρ} {r : Membership} {c : Config} {contact : Option NodeId}
  {holdsData : Bool} {events : List (Event ρ)}

/-- A node that is created and joins. -/
theorem Ends.add
    (h : Does (o.create c contact holdsData).2 c.nodeId Protocol.joinOverlay (.ok ()) o₁ events) :
    Ends (fun fuel => takeStep fuel (.add c contact true holdsData)) o .done (o₁.noteJoined c)
      events := by
  obtain ⟨conditions, heq, -⟩ := create_eq o c contact holdsData
  obtain ⟨member, n, hmember, hnode, hpath, -⟩ := h
  have hnumber : member.node = o.nodes.size := by
    rw [heq, SortedMap.get?_insert_self] at hmember
    cases hmember
    rfl
  rw [hnumber] at hnode hpath
  have hcreate : ∀ past, Overlay.create { o with events := past } c contact holdsData =
      (o.nodes.size, { (o.create c contact holdsData).2 with events := past }) := by
    intro past
    cases holdsData <;> rfl
  refine Ends.succ (fun _ => by rw [takeStep]) ?_
  refine Ends.compute hcreate (Ends.look (fun _ _ => rfl) ?_)
  rw [hnode]
  have hnoted : ∀ past, ({ o₁ with events := past } : Overlay ρ).noteJoined c =
      { o₁.noteJoined c with events := past } := by
    intro past
    unfold noteJoined
    by_cases hrole : c.role = .superpeer
    · simp only [if_pos hrole]
    · simp only [if_neg hrole]
  rw [← List.nil_append events]
  exact hpath.ends.bind ((Ends.change hnoted).silent_bind Ends.pure)

/-- What is seen of newcomers that join one after the other: each walks to its place and comes
nowhere twice on the way. -/
inductive Joined : Membership → List Newcomer → List (StepResult ρ × List (Event ρ)) → Prop
  | nil {r : Membership} : Joined r [] []
  | cons {r : Membership} {j : Newcomer} {joins : List Newcomer} {contacts : List NodeId}
      {events : List (Event ρ)} {rs : List (StepResult ρ × List (Event ρ))} :
      Walk r.superpeers j.id j.isSuperpeer (j.contact :: contacts) events →
      (j.contact :: contacts).Nodup → Joined (r.after j) joins rs →
      Joined r (j :: joins) ((.done, events) :: rs)

/-- Every superpeer knows its neighbours on the ring, and every peer is listed by the superpeer that
is primary for it and by no other. -/
structure IsRing (r : Membership) (o : Overlay ρ) : Prop where
  superpeer : ∀ x ∈ r.superpeers, ∃ n, o.node? x = some n ∧ n.me = x ∧ n.isSuperpeer = true ∧
    n.ring.Pointed r.superpeers
  peer : ∀ id ∈ r.peers, ∃ x ∈ r.superpeers, ∃ n, o.node? x = some n ∧
    n.isPrimaryFor id = true ∧ id ∈ n.ring.peers ∧
    ∀ y ∈ r.superpeers, ∀ m, o.node? y = some m → id ∈ m.ring.peers → y = x

namespace Grown

theorem noteJoined (h : o.Grown r) (c : Config) : (o.noteJoined c).Grown r := by
  unfold Overlay.noteJoined
  by_cases hrole : c.role = .superpeer
  · rw [if_pos hrole]
    exact ⟨⟨h.rules, h.queue, h.up, h.numbered⟩, h.inhabited, h.valid, h.superpeer, h.peer⟩
  · rw [if_neg hrole]
    exact h

/-- In a grown overlay the ring is as it should be. -/
theorem isRing (h : o.Grown r) : o.IsRing r := by
  have hprimary : ∀ x ∈ r.superpeers, ∀ n, o.node? x = some n → n.isSuperpeer = true ∧
      n.ring.Formed r.superpeers r.peers ∧
      ∀ id, n.isPrimaryFor id = true ↔ r.superpeers.Owns id x := by
    intro x hx n hn
    obtain ⟨n', hn', hrole, hformed⟩ := h.superpeer x hx
    rw [hn] at hn'
    cases hn'
    have hme : n.me = x := h.me hn
    refine ⟨hrole, hformed, fun id => ?_⟩
    rw [Node.isPrimaryFor_iff hrole hformed.toPointed (by rw [hme]; exact hx), hme]
  have hlists : ∀ x ∈ r.superpeers, ∀ n, o.node? x = some n → ∀ id ∈ r.peers,
      (id ∈ n.ring.peers ↔ r.superpeers.Owns id x) := by
    intro x hx n hn id hid
    have hme : n.ring.me = x := h.me hn
    rw [(hprimary x hx n hn).2.1.peers, hme]
    exact and_iff_right hid
  constructor
  · intro x hx
    obtain ⟨n, hn, hrole, hformed⟩ := h.superpeer x hx
    exact ⟨n, hn, h.me hn, hrole, hformed.toPointed⟩
  · intro id hid
    obtain ⟨y, hy⟩ := h.inhabited
    obtain ⟨x, hown⟩ := NodeSet.exists_owner hy id
    obtain ⟨n, hn, -, -⟩ := h.superpeer x hown.1
    refine ⟨x, hown.1, n, hn, ((hprimary x hown.1 n hn).2.2 id).mpr hown,
      (hlists x hown.1 n hn id hid).mpr hown, fun z hz m hm hlisted => ?_⟩
    exact ((hlists z hz m hm id hid).mp hlisted).unique hown

end Grown

theorem calm_empty (numbers : List Nat) : (empty numbers : Overlay ρ).Calm := by
  refine ⟨rfl, rfl, ?_, ?_⟩
  · intro _ _ hmember
    cases hmember
  · intro _ _ hmember
    cases hmember

/-- The ring is founded by a superpeer that is its own contact. -/
theorem ends_found (h : o.Calm) (hfirst : o.founder = none) (hrole : c.role = .superpeer)
    (hvalid : c.nodeId.isReserved = false) (holdsData : Bool) :
    ∃ o₁, Ends (fun fuel => takeStep fuel (.add c none true holdsData)) o .done o₁ [] ∧
      o₁.Grown (.founded c.nodeId) := by
  have hself := o.node?_create_self c none holdsData
  have hkind : (o.created c none).isSuperpeer = true := by
    rw [isSuperpeer_created, hrole]
    rfl
  have hmem : ∀ x, x ∈ (Membership.founded c.nodeId).superpeers ↔ x = c.nodeId :=
    fun _ => Membership.mem_founded
  have hfounded : (o.create c none holdsData).2.Grown (.founded c.nodeId) := by
    refine ⟨h.create, ⟨c.nodeId, (hmem _).mpr rfl⟩, ?_, ?_, fun x hx => by cases hx⟩
    · intro x hx
      rcases hx with hx | hx
      · rw [(hmem x).mp hx]
        exact hvalid
      · cases hx
    · intro x hx
      rw [(hmem x).mp hx]
      exact ⟨_, hself, hkind, Ring.formed_founded ..⟩
  obtain ⟨workers, hstart⟩ := Does.startWorker hself
  have hdoes : Does (o.create c none holdsData).2 c.nodeId Protocol.joinOverlay (.ok ())
      { (o.create c none holdsData).2 with workers } [] := by
    have hbootstrap : (o.created c none).ring.bootstrap = (o.created c none).me := by
      show (o.founder.getD c.nodeId) = c.nodeId
      rw [hfirst]
      rfl
    unfold Protocol.joinOverlay
    apply Does.node_bind hself
    rw [if_pos hbootstrap, if_pos hkind]
    refine hstart.bind_silent ?_
    exact Does.pure hself
  exact ⟨_, Ends.add hdoes, (hfounded.workers workers).noteJoined c⟩

namespace Grown

/-- A newcomer joins. -/
theorem ends_join {j : Newcomer} (h : o.Grown r) (hj : r.Allows j) :
    ∃ contacts events o₁, Ends (fun fuel => takeStep fuel j.step) o .done o₁ events ∧
      Walk r.superpeers j.id j.isSuperpeer (j.contact :: contacts) events.reverse ∧
      o₁.Grown (r.after j) := by
  have hcreated : (o.create j.config (some j.contact) j.holdsData).2.Grown r :=
    h.create hj.toFresh
  have hkind : (o.created j.config (some j.contact)).isSuperpeer = j.isSuperpeer :=
    o.isSuperpeer_created j.config (some j.contact)
  obtain ⟨contacts, events, o₁, hdoes, hwalk, hgrown⟩ :=
    hcreated.does_joinOverlay hj.toFresh (node?_create_self ..) hj.contact hj.room
  rw [hkind] at hwalk hgrown
  exact ⟨contacts, events, _, Ends.add hdoes, hwalk, hgrown.noteJoined j.config⟩

/-- Newcomers join one after the other. -/
theorem takes_joins {joins : List Newcomer} (h : o.Grown r) (hjoins : r.AllowsAll joins) :
    ∃ rs o₁, o.Takes (joins.map Newcomer.step) rs o₁ ∧ Joined r joins rs ∧
      o₁.Grown (joins.foldl Membership.after r) := by
  induction joins generalizing o r with
  | nil => exact ⟨[], o, .nil, .nil, h⟩
  | cons j rest ih =>
    obtain ⟨contacts, events, o₁, hends, hwalk, hgrown⟩ := h.ends_join hjoins.1
    obtain ⟨rs, o₂, htakes, hjoined, hgrown₂⟩ := ih hgrown hjoins.2
    exact ⟨_, o₂, .cons hends hgrown.queue htakes, .cons hwalk hwalk.nodup hjoined, hgrown₂⟩

end Grown

/-- From a founder on, any newcomers form a ring by joining, and it is a ring after each of them. -/
theorem joins_form_ring (numbers : List Nat) (founder : Config) (holdsData : Bool)
    (joins : List Newcomer) (hrole : founder.role = .superpeer)
    (hvalid : founder.nodeId.isReserved = false)
    (hjoins : (Membership.founded founder.nodeId).AllowsAll joins) (k : Nat) :
    ∃ rs, ∃ o : Overlay ρ,
      (empty numbers).Takes
        (.add founder none true holdsData :: (joins.take k).map Newcomer.step)
        ((.done, []) :: rs) o ∧
      Joined (.founded founder.nodeId) (joins.take k) rs ∧
      o.IsRing ((joins.take k).foldl Membership.after (.founded founder.nodeId)) := by
  have hcalm : (empty numbers : Overlay ρ).Calm := calm_empty numbers
  obtain ⟨o₁, hends, hgrown⟩ := ends_found hcalm rfl hrole hvalid holdsData
  obtain ⟨rs, o, htakes, hjoined, hgrown₁⟩ := hgrown.takes_joins (hjoins.take k)
  exact ⟨rs, o, .cons hends hgrown.queue htakes, hjoined, hgrown₁.isRing⟩

/-- A superpeer and a peer that join a ring of two. -/
def twoNewcomers : List Newcomer :=
  [⟨{ Config.default with nodeId := ⟨1000⟩, expectedSuperpeers := 2 }, ⟨0⟩, true⟩,
    ⟨{ Config.default with nodeId := ⟨500⟩, expectedSuperpeers := 2, role := .peer }, ⟨0⟩, true⟩]

theorem joins_form_ring_twoNewcomers :
    ∃ rs, ∃ o : Overlay Unit,
      (empty []).Takes (.add Config.default none true false ::
        (twoNewcomers.take 2).map Newcomer.step) ((.done, []) :: rs) o ∧
      Joined (.founded ⟨0⟩) (twoNewcomers.take 2) rs ∧
      o.IsRing ((twoNewcomers.take 2).foldl Membership.after (.founded ⟨0⟩)) := by
  refine joins_form_ring [] Config.default false twoNewcomers rfl rfl ?_ 2
  exact ⟨⟨⟨by decide, by decide, rfl⟩, by decide, by decide⟩,
    ⟨⟨by decide, by decide, rfl⟩, by decide, by decide⟩, trivial⟩

end Overlay

end ChunkDirectory
