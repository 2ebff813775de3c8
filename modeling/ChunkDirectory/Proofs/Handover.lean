import ChunkDirectory.Proofs.Concurrency.Joining
import ChunkDirectory.Proofs.Concurrency.Promoting

/-!
# What a hand-over keeps and loses

A promotion or an admission gives a part of a superpeer's range to a newcomer, while requests for
mutations reach the superpeers of the ring and the newcomer at any time. Every request that is
answered to be applied was applied by the node that answers, but this need not be reflected in what
the later primary holds.

In a promotion the owner takes its snapshot when it makes the offer and gives the range up when the
candidate has accepted. What it applies in between is not in the snapshot and is lost for the
candidate's share (`Machine.Promoted`). In an admission the snapshot is taken when the range is
given up. Here the newcomer is primary for everything until it installs the snapshot, so that what
it applies before is lost unless it belongs to its share and the snapshot has nothing for the slot
(`Machine.Admitted`). Nothing else is lost.
-/

namespace ChunkDirectory

open Protocol

namespace Machine

variable {s ps : NodeSet} {owner new : NodeId} {nodes : NodeId → Node} {σ : Machine}
  {before during after : List Segment}

/-- An operation that begins among nodes at rest. -/
def start (nodes : NodeId → Node) (node : NodeId) (task : Task Message) : Machine where
  nodes
  operation := some ⟨node, .start, task, []⟩
  requests := []
  trace := []
  answers := []

/-- The members of `s` are the superpeers of a ring. -/
structure IsRing (s ps : NodeSet) (nodes : NodeId → Node) : Prop where
  me : ∀ x, (nodes x).me = x
  role : ∀ x ∈ s, (nodes x).isSuperpeer = true
  formed : ∀ x ∈ s, (nodes x).ring.Formed s ps
  keyed : ∀ x ∈ s, (nodes x).Keyed

/-- In these segments a node accepts no request but for what it owns in `S`. -/
def AcceptsOwn (S : NodeSet) (trace : List Segment) (id : NodeId) : Prop :=
  ∀ g ∈ trace, g.node = id → ∀ m, g.Accepts m → S.Owns m.key id

/-- The members of `s` are primary for what they own in it. -/
def ArePrimary (s : NodeSet) (σ : Machine) : Prop :=
  ∀ x ∈ s, ∀ id, (σ.nodes x).isPrimaryFor id = true ↔ s.Owns id x

/-- What holds whatever becomes of the operation: who answers that a request is applied has applied
it, and the superpeers of the ring hold all they applied and accept only what they own. -/
structure Accounts (s : NodeSet) (new : NodeId) (nodes : NodeId → Node) (σ : Machine) : Prop where
  answered : ∀ a ∈ σ.answers, a.1 ∈ s.insert new ∧ Acknowledged σ.trace a.1 a.2.1 a.2.2
  content : ∀ x ∈ s, ∀ slot, (σ.nodes x).read slot = held x nodes σ.trace slot
  accepted : ∀ x ∈ s, AcceptsOwn s σ.trace x
  copies : ∀ g ∈ σ.trace, ∀ m, g.handled? = some (m, true) → ¬ (s.insert new).Owns m.key g.node

/-- A promotion that took effect. The owner makes its offer at the beginning of `during` and gives
the share up at the beginning of `after`. Requests for the share that it accepts during this time
are what is missing in the share. -/
structure Promoted (s : NodeSet) (owner new : NodeId) (nodes : NodeId → Node) (σ : Machine)
    (before during after : List Segment) : Prop where
  split : σ.trace = before ++ during ++ after
  offer : ∃ g rest, during = g :: rest ∧ g.IsOffer owner new
  commit : ∃ g rest, after = g :: rest ∧ g.IsCommit owner
  primary : ArePrimary (s.insert new) σ
  share : ∀ slot, (s.insert new).Owns slot.position new →
    (σ.nodes new).read slot =
      slot.replay (appliedBy new (during ++ after)) (slot.mark new (held owner nodes before slot))
  idle : Idle new before
  requests : ∀ g ∈ σ.trace, g.node ∈ s.insert new → ∀ m, g.Accepts m →
    (s.insert new).Owns m.key g.node ∨
      (s.insert new).Owns m.key new ∧ g.node = owner ∧ (g ∈ before ∨ g ∈ during)

/-- An admission that took effect. The owner gives the share up at the beginning of `during`, and
the newcomer takes it over at the beginning of `after`. What the newcomer applied by then remains
only in the share, and only where the owner has nothing. -/
structure Admitted (s : NodeSet) (owner new : NodeId) (nodes : NodeId → Node) (σ : Machine)
    (before during after : List Segment) : Prop where
  split : σ.trace = before ++ during ++ after
  welcome : ∃ g rest, during = g :: rest ∧ g.IsWelcome owner new
  installation : ∃ g rest, after = g :: rest ∧ g.IsInstallation new
  primary : ArePrimary (s.insert new) σ
  share : ∀ slot, (s.insert new).Owns slot.position new →
    (σ.nodes new).read slot = slot.replay (appliedBy new after)
      ((held owner nodes before slot).or (held new nodes (before ++ during) slot))
  requests : ∀ g ∈ σ.trace, g.node ∈ s.insert new → ∀ m, g.Accepts m →
    (s.insert new).Owns m.key g.node ∨
      (s.insert new).Owns m.key new ∧ g.node = owner ∧ g ∈ before ∨
      g.node = new ∧ g ∈ before ++ during

/-- What becomes of a promotion. Unless it takes effect it leaves the ring as it is, and the
candidate a peer in the end. -/
structure PromotionOutcome (s : NodeSet) (owner new : NodeId) (nodes : NodeId → Node)
    (σ : Machine) : Prop extends Accounts s new nodes σ where
  committed : (∃ g ∈ σ.trace, g.IsCommit owner) →
    ∃ before during after, σ.Promoted s owner new nodes before during after
  uncommitted : (¬ ∃ g ∈ σ.trace, g.IsCommit owner) →
    ArePrimary s σ ∧ (σ.operation = none → (σ.nodes new).isSuperpeer = false)

/-- What becomes of an admission. Unless it takes effect it leaves the ring as it is in the end. -/
structure AdmissionOutcome (s : NodeSet) (owner new : NodeId) (nodes : NodeId → Node)
    (σ : Machine) : Prop extends Accounts s new nodes σ where
  installed : (∃ g ∈ σ.trace, g.IsInstallation new) →
    ∃ before during after, σ.Admitted s owner new nodes before during after
  uninstalled : (¬ ∃ g ∈ σ.trace, g.IsInstallation new) → σ.operation = none → ArePrimary s σ

namespace IsRing

theorem steady (h : IsRing s ps nodes) (hproper : (nodes new).Proper (s.insert new)) :
    Steady s ps new nodes nodes [] := by
  refine ⟨h.me, h.role, fun x hx => .inl (h.formed x hx), hproper, h.keyed, fun _ _ _ => rfl,
    ?_, ?_⟩
  · intro g hg
    cases hg
  · intro g hg
    cases hg

theorem undivided (h : IsRing s ps nodes) : Undivided s ps nodes [] := by
  refine ⟨h.formed, fun g hg => ?_⟩
  cases hg

end IsRing

theorem sound_start {S : NodeSet} (nodes : NodeId → Node) (node : NodeId) (task : Task Message) :
    (start nodes node task).Sound S := by
  constructor
  · intro job hjob
    cases hjob
  · intro a ha
    cases ha

namespace Steady

theorem accounts (h : Steady s ps new nodes σ.nodes σ.trace) (hsound : σ.Sound (s.insert new)) :
    σ.Accounts s new nodes := by
  refine ⟨hsound.answers, h.content, fun x hx g hg hnode m hm => ?_, h.copies⟩
  subst hnode
  exact h.accepted g hg hx m hm

/-- Once the owner and the newcomer know their place, everyone is primary for what it owns. -/
theorem arePrimary (h : Steady s ps new nodes σ.nodes σ.trace) (he : Entrance s owner new)
    (howner : (σ.nodes owner).ring.Formed (s.insert new) ps)
    (hrole : (σ.nodes new).isSuperpeer = true)
    (hnew : (σ.nodes new).ring.Pointed (s.insert new)) : σ.ArePrimary (s.insert new) := by
  intro x hx id
  have hme : (σ.nodes x).me = x := h.me x
  have hmember : (σ.nodes x).me ∈ s.insert new := hme.symm ▸ hx
  rcases NodeSet.mem_insert.mp hx with rfl | hxs
  · rw [Node.isPrimaryFor_iff hrole hnew hmember, hme]
  have hrole' := h.role x hxs
  by_cases hxo : x = owner
  · subst hxo
    rw [Node.isPrimaryFor_iff hrole' howner.toPointed hmember, hme]
  · rcases h.formed x hxs with hformed | hformed
    · rw [Node.isPrimaryFor_iff hrole' hformed.toPointed (hme.symm ▸ hxs), hme]
      exact (NodeSet.owns_insert_iff_of_ne he.owns he.fresh hxs hxo).symm
    · rw [Node.isPrimaryFor_iff hrole' hformed.toPointed hmember, hme]

end Steady

theorem Undivided.arePrimary (h : Undivided s ps σ.nodes σ.trace)
    (hsteady : Steady s ps new nodes σ.nodes σ.trace) : σ.ArePrimary s := by
  intro x hx id
  have hme : (σ.nodes x).me = x := hsteady.me x
  rw [Node.isPrimaryFor_iff (hsteady.role x hx) (h.formed x hx).toPointed (hme.symm ▸ hx), hme]

theorem Undivided.uncommitted (h : Undivided s ps σ.nodes σ.trace) :
    ¬ ∃ g ∈ σ.trace, g.IsCommit owner := by
  rintro ⟨g, hg, -, hcue⟩
  have hplain := h.plain g hg
  rw [hcue] at hplain
  cases hplain

/-- A superpeer of the ring that accepts a request owns the key in the larger ring as well, unless
it is the owner and has not given up the newcomer's share yet. -/
theorem Divided.owns_or {early late : List Segment} (h : Divided s ps owner new late σ.nodes)
    (hsplit : σ.trace = early ++ late) (haccounts : σ.Accounts s new nodes)
    (he : Entrance s owner new) {g : Segment} (hg : g ∈ σ.trace) (hnode : g.node ∈ s)
    {m : Mutation} (hm : g.Accepts m) :
    (s.insert new).Owns m.key g.node ∨
      (s.insert new).Owns m.key new ∧ g.node = owner ∧ g ∈ early := by
  have hown : s.Owns m.key g.node := haccounts.accepted g.node hnode g hg rfl m hm
  by_cases howner : g.node = owner
  · rw [hsplit, List.mem_append] at hg
    rcases hg with hearly | hlate
    · obtain ⟨x, hx⟩ := NodeSet.exists_owner (NodeSet.mem_insert.mpr (.inl rfl)) m.key
      rcases NodeSet.mem_insert.mp hx.1 with rfl | hxs
      · exact .inr ⟨hx, howner, hearly⟩
      · have hsame := ((NodeSet.owns_insert_iff he.fresh hxs).mp hx).1.unique hown
        exact .inl (hsame ▸ hx)
    · have hkept := h.late g hlate howner m hm
      exact .inl (howner.symm ▸ hkept)
  · exact .inl ((NodeSet.owns_insert_iff_of_ne he.owns he.fresh hnode howner).mpr hown)

theorem Committed.promoted (h : Committed s ps owner new nodes before during after σ.nodes σ.trace)
    (hsteady : Steady s ps new nodes σ.nodes σ.trace) (haccounts : σ.Accounts s new nodes)
    (he : Entrance s owner new) : σ.Promoted s owner new nodes before during after := by
  refine ⟨h.split, h.offer, h.commit,
    hsteady.arePrimary he h.divided.formed h.took.role h.took.pointed, h.took.read, h.idle,
    fun g hg hnode m hm => ?_⟩
  rcases NodeSet.mem_insert.mp hnode with hnew | hnode
  · -- The candidate applies nothing before the offer, and afterwards only what it owns.
    rw [h.split, List.append_assoc, List.mem_append] at hg
    rcases hg with hearly | hlate
    · have happlied := h.idle g hearly hnew
      rw [hm.applied?] at happlied
      cases happlied
    · have hown := h.took.accepted g hlate hnew m hm
      exact .inl (hnew.symm ▸ hown)
  · rw [← List.mem_append]
    exact h.divided.owns_or h.split haccounts he hg hnode hm

theorem Installed.admitted (h : Installed s ps owner new nodes before during after σ.nodes σ.trace)
    (hsteady : Steady s ps new nodes σ.nodes σ.trace) (haccounts : σ.Accounts s new nodes)
    (he : Entrance s owner new) : σ.Admitted s owner new nodes before during after := by
  refine ⟨h.split, h.welcome, h.installation,
    hsteady.arePrimary he h.divided.formed h.took.role h.took.pointed, h.took.read,
    fun g hg hnode m hm => ?_⟩
  rcases NodeSet.mem_insert.mp hnode with hnew | hnode
  · rw [h.split, List.mem_append] at hg
    rcases hg with hearly | hlate
    · exact .inr (.inr ⟨hnew, hearly⟩)
    · have hown := h.took.accepted g hlate hnew m hm
      exact .inl (hnew.symm ▸ hown)
  · have hsplit : σ.trace = before ++ (during ++ after) := by rw [h.split, List.append_assoc]
    have hcases := h.divided.owns_or hsplit haccounts he hg hnode hm
    exact hcases.imp_right .inl

/-- A promotion, and whatever else happens meanwhile. -/
theorem promotion_outcome (hring : IsRing s ps nodes) (he : Entrance s owner new)
    (hrole : (nodes new).isSuperpeer = false) (safe : Bool) {moves : List Move}
    (hmoves : ∀ move ∈ moves, move.Allowed (s.insert new))
    (hσ : σ = (start nodes owner (promotion new safe)).run moves) :
    σ.PromotionOutcome s owner new nodes := by
  have hidle : Idle new [] := fun g hg => by cases hg
  have hbegin : (start nodes owner (promotion new safe)).Underway s ps new nodes
      (Promoting s ps owner new nodes) :=
    ⟨hring.steady (Node.proper_of_peer hrole), sound_start .., .searching
      (.home rfl (tame_promotion new safe)) hring.undivided hrole hidle⟩
  obtain ⟨hsteady, hsound, hphase⟩ := hbegin.run (promoting_kept he) he.fresh hmoves
  rw [← hσ] at hsteady hsound hphase
  have haccounts := hsteady.accounts hsound
  rcases hphase.split_or with ⟨before, during, after, hcommitted⟩ | ⟨hundivided, hpeer⟩
  · refine ⟨haccounts, fun _ => ⟨before, during, after, hcommitted.promoted hsteady haccounts he⟩,
      fun hnone => ?_⟩
    obtain ⟨g, rest, hafter, hcommit⟩ := hcommitted.commit
    refine absurd ⟨g, ?_, hcommit⟩ hnone
    rw [hcommitted.split, hafter]
    exact List.mem_append_right _ List.mem_cons_self
  · exact ⟨haccounts, fun hsome => absurd hsome hundivided.uncommitted,
      fun _ => ⟨hundivided.arePrimary hsteady, hpeer⟩⟩

/-- An admission, and whatever else happens meanwhile. -/
theorem admission_outcome (hring : IsRing s ps nodes) (he : Entrance s owner new)
    (hrole : (nodes new).isSuperpeer = true) (hempty : (nodes new).ring.superpeers.isEmpty = true)
    (hbootstrap : (nodes new).ring.bootstrap ∈ s) {moves : List Move}
    (hmoves : ∀ move ∈ moves, move.Allowed (s.insert new))
    (hσ : σ = (start nodes new joining).run moves) : σ.AdmissionOutcome s owner new nodes := by
  have hseeks (n : Node) (hn : n.isSuperpeer = true) (hcontact : n.ring.bootstrap ∈ s)
      (hme : n.me = new) : (joining n).Seeks s n :=
    seeks_joining hn hcontact (hme ▸ he.ne hcontact)
  have hbegin : (start nodes new joining).Underway s ps new nodes (Joining s ps owner new nodes) :=
    ⟨hring.steady (Node.proper_of_isEmpty hempty), sound_start .., .seeking rfl rfl rfl hseeks
      hring.undivided ⟨hrole, hempty, hbootstrap, fun _ => rfl⟩⟩
  obtain ⟨hsteady, hsound, hphase⟩ := hbegin.run (joining_kept he) he.fresh hmoves
  rw [← hσ] at hsteady hsound hphase
  have haccounts := hsteady.accounts hsound
  rcases hphase.installed_or with ⟨before, during, after, hinstalled⟩ | ⟨hplain, hundivided⟩
  · refine ⟨haccounts, fun _ => ⟨before, during, after, hinstalled.admitted hsteady haccounts he⟩,
      fun hnone => ?_⟩
    obtain ⟨g, rest, hafter, hinstallation⟩ := hinstalled.installation
    refine absurd ⟨g, ?_, hinstallation⟩ hnone
    rw [hinstalled.split, hafter]
    exact List.mem_append_right _ List.mem_cons_self
  · refine ⟨haccounts, ?_, fun _ hover => (hundivided hover).arePrimary hsteady⟩
    rintro ⟨g, hg, -, snapshot, hcue⟩
    have hdecided := hplain g hg
    rw [hcue] at hdecided
    cases hdecided

/-- What becomes of the requests that the superpeers of a ring and a newcomer handle while the owner
of the newcomer's position promotes it, or the newcomer joins as a superpeer through one of them:
whatever the order of events, all of what is answered to be applied is kept, but for what
`Promoted.requests` and `Admitted.requests` say a hand-over that takes effect leaves behind, and for
what a newcomer applied whose hand-over does not take effect. -/
theorem handover_outcome (hring : IsRing s ps nodes) (he : Entrance s owner new)
    {moves : List Move} (hmoves : ∀ move ∈ moves, move.Allowed (s.insert new)) :
    ((nodes new).isSuperpeer = false → ∀ safe,
      ((start nodes owner (promotion new safe)).run moves).PromotionOutcome s owner new nodes) ∧
    ((nodes new).isSuperpeer = true → (nodes new).ring.superpeers.isEmpty = true →
      (nodes new).ring.bootstrap ∈ s →
      ((start nodes new joining).run moves).AdmissionOutcome s owner new nodes) :=
  ⟨fun hrole safe => promotion_outcome hring he hrole safe hmoves rfl,
    fun hrole hempty hbootstrap => admission_outcome hring he hrole hempty hbootstrap hmoves rfl⟩

/-! ## A superpeer that is alone -/

/-- A superpeer that is alone with its peers, and a node that may become the second one. -/
def around (newcomer : Node) (id : NodeId) : Node :=
  if id = ⟨1000⟩ then
    { Node.new { Config.default with nodeId := id } with
      ring := { Ring.new id id 1 with peers := .ofList [⟨500⟩, ⟨600⟩] } }
  else if id = ⟨500⟩ then newcomer
  else Node.new { Config.default with nodeId := id, role := .peer }

/-- A peer that may be promoted. -/
def candidate : Node := .new { Config.default with nodeId := ⟨500⟩, role := .peer }

/-- A superpeer that may join. -/
def joiner : Node := .new { Config.default with nodeId := ⟨500⟩, bootstrap := ⟨1000⟩ }

/-- A request for the tree of a creator. -/
def treeRequest (creator : NodeId) : Message :=
  .initRange (.created (.make creator 0)) creator ⟨[]⟩ false

/-- What a node is asked for before the operation goes on to its end. -/
def requestFirst (node : NodeId) (message : Message) : List Move :=
  .request ⟨600⟩ node message :: .serve 0 .plain :: List.replicate 7 (.operate .plain)

/-- A promotion in which the owner handles a request right after its offer. -/
def promotionRun : Machine :=
  (start (around candidate) ⟨1000⟩ (promotion ⟨500⟩ true)).run
    (.operate .plain :: .operate .plain :: requestFirst ⟨1000⟩ (treeRequest ⟨100⟩))

/-- An admission in which the newcomer handles a request before it asks for it. -/
def admissionRun : Machine :=
  (start (around joiner) ⟨500⟩ joining).run (requestFirst ⟨500⟩ (treeRequest ⟨700⟩))

theorem isRing_around {newcomer : Node} (hme : newcomer.me = ⟨500⟩) :
    IsRing (.ofList [⟨1000⟩]) (.ofList [⟨500⟩, ⟨600⟩]) (around newcomer) := by
  have hmem : ∀ x ∈ NodeSet.ofList [⟨1000⟩], x = ⟨1000⟩ := fun x hx =>
    List.mem_singleton.mp (NodeSet.mem_ofList.mp hx)
  refine ⟨?_, ?_, ?_, ?_⟩
  · intro x
    unfold around
    split
    case isTrue => rfl
    case isFalse =>
      split
      case isTrue heq => rw [hme, heq]
      case isFalse => rfl
  · intro x hx
    rw [hmem x hx]
    rfl
  · intro x hx
    rw [hmem x hx]
    exact .alone hmem (NodeSet.mem_ofList.mpr List.mem_cons_self) rfl rfl rfl fun _ => Iff.rfl
  · intro x hx
    rw [hmem x hx]
    intro d hd creator tree htree
    cases hd
    cases htree

theorem entrance_around : Entrance (.ofList [⟨1000⟩]) ⟨1000⟩ ⟨500⟩ :=
  ⟨⟨by decide, by decide⟩, by decide, by decide⟩

theorem allowed_requestFirst {S : NodeSet} {node : NodeId} (hnode : node ∈ S) (creator : NodeId) :
    ∀ move ∈ requestFirst node (treeRequest creator), move.Allowed S := by
  intro move hmove
  rcases List.mem_cons.mp hmove with rfl | hmove
  · exact ⟨hnode, rfl⟩
  rcases List.mem_cons.mp hmove with rfl | hmove
  · exact trivial
  · rw [List.eq_of_mem_replicate hmove]
    exact trivial

/-- Both operations take effect here, and both lose a request that was answered to be applied. -/
theorem handover_outcome_around :
    (promotionRun.PromotionOutcome (.ofList [⟨1000⟩]) ⟨1000⟩ ⟨500⟩ (around candidate) ∧
      promotionRun.answers = [(⟨1000⟩, treeRequest ⟨100⟩, .status .applied)] ∧
      (promotionRun.nodes ⟨500⟩).isPrimaryFor ⟨100⟩ = true ∧
      (promotionRun.nodes ⟨500⟩).read (.tree ⟨100⟩) = none) ∧
    (admissionRun.AdmissionOutcome (.ofList [⟨1000⟩]) ⟨1000⟩ ⟨500⟩ (around joiner) ∧
      admissionRun.answers = [(⟨500⟩, treeRequest ⟨700⟩, .status .applied)] ∧
      (admissionRun.nodes ⟨1000⟩).isPrimaryFor ⟨700⟩ = true ∧
      (admissionRun.nodes ⟨1000⟩).read (.tree ⟨700⟩) = none) := by
  refine ⟨⟨?_, rfl, rfl, rfl⟩, ⟨?_, rfl, rfl, rfl⟩⟩
  · refine (handover_outcome (isRing_around rfl) entrance_around fun move hmove => ?_).1 rfl true
    rcases List.mem_cons.mp hmove with rfl | hmove
    · exact trivial
    rcases List.mem_cons.mp hmove with rfl | hmove
    · exact trivial
    · exact allowed_requestFirst (by decide) ⟨100⟩ move hmove
  · refine (handover_outcome (isRing_around rfl) entrance_around ?_).2 rfl rfl (by decide)
    exact allowed_requestFirst (by decide) ⟨700⟩

end Machine

end ChunkDirectory
