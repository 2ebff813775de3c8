import ChunkDirectory.Proofs.Concurrency.Meeting
import ChunkDirectory.Proofs.Handover

/-!
# A promotion and an admission that cross

A superpeer promotes one of its peers while another superpeer seeks admission to its range, and both
take effect. What the ring is like afterwards depends on when the newcomer is welcomed
(`Machine.InOrder`).

* If the owner has given up the candidate's share by then, the newcomer finds its place next to the
  candidate, on whichever side.
* If the owner has not yet made its offer, the candidate finds its place between the newcomer and
  the owner. It goes wrong if the newcomer comes between the candidate and the owner, since the
  offer names the newcomer as the candidate's predecessor all the same.
* In between it goes wrong always. The offer does not know of the newcomer, and the owner takes
  the candidate for its predecessor when it gives up the share, whoever that was meanwhile.

Where it goes wrong two superpeers claim the same position. Even where it does not, a newcomer that
is told of the candidate before it has taken its place forgets it again (`Overtaken`).
-/

namespace ChunkDirectory

open Protocol

namespace Machine

variable {s ps : NodeSet} {owner candidate newcomer : NodeId} {nodes : NodeId → Node} {σ : Machine}
  {early late : List Segment} {g : Segment}

/-- A promotion that begins while a newcomer seeks admission, among nodes at rest. -/
def startBoth (nodes : NodeId → Node) (owner candidate newcomer : NodeId) (safe : Bool) : Machine :=
  { start nodes owner (promotion candidate safe) with
    requests := [⟨newcomer, .ack, ⟨newcomer, .start, joining, []⟩⟩] }

/-- The newcomer is welcomed after these segments at a moment that suits the promotion: the owner
has given up the candidate's share, or has not offered it and is left with it by the newcomer. -/
def InOrder (s : NodeSet) (owner candidate newcomer : NodeId) (early : List Segment) : Prop :=
  (∃ g ∈ early, g.IsCommit owner) ∨
    (∀ g ∈ early, ¬ g.IsOffer owner candidate) ∧ (s.insert newcomer).Owns candidate owner

/-- Each member of `s` has its neighbours in it for predecessor and successor. -/
def ArePointed (s : NodeSet) (σ : Machine) : Prop := ∀ x ∈ s, (σ.nodes x).ring.Pointed s

/-- A promotion and an admission that have both taken effect. The newcomer was welcomed in the
segment after `early`. -/
structure Crossed (s : NodeSet) (owner candidate newcomer : NodeId) (σ : Machine)
    (early : List Segment) (g : Segment) (late : List Segment) : Prop where
  split : σ.trace = early ++ g :: late
  welcome : g.IsWelcome owner newcomer ∨
    g.IsWelcome candidate newcomer ∧ ∃ g ∈ early, g.IsCommit owner
  pointed : σ.ArePointed ((s.insert candidate).insert newcomer) ↔
    InOrder s owner candidate newcomer early ∧ ¬ Overtaken owner candidate newcomer σ.trace
  primary : σ.ArePrimary ((s.insert candidate).insert newcomer) ↔
    InOrder s owner candidate newcomer early
  members : InOrder s owner candidate newcomer early → ∀ x ∈ s.insert candidate,
    (σ.nodes x).ring.Pointed ((s.insert candidate).insert newcomer)
  overtaken : InOrder s owner candidate newcomer early →
    Overtaken owner candidate newcomer σ.trace →
    (σ.nodes newcomer).ring.Pointed (s.insert newcomer)
  overlap : ¬ InOrder s owner candidate newcomer early → ∃ id,
    (σ.nodes candidate).isPrimaryFor id = true ∧
      ((σ.nodes newcomer).isPrimaryFor id = true ∨ (σ.nodes owner).isPrimaryFor id = true)

/-- Whether the moment suits the promotion can be told from what happened before. -/
theorem inOrder_iff {moment : Moment} (h : moment.At owner candidate early) :
    InOrder s owner candidate newcomer early ↔ moment.Fits s owner candidate newcomer := by
  have hnone (huncommitted : ∀ g ∈ early, ¬ g.IsCommit owner) :
      ¬ ∃ g ∈ early, g.IsCommit owner := by
    rintro ⟨g, hg, hcommit⟩
    exact huncommitted g hg hcommit
  cases moment with
  | early =>
    rw [InOrder, or_iff_right (hnone h.2)]
    exact and_iff_right h.1
  | between =>
    obtain ⟨⟨g, hg, hoffer⟩, huncommitted⟩ := h
    rw [InOrder, or_iff_right (hnone huncommitted)]
    exact iff_of_false (fun hearly => hearly.1 g hg hoffer) id
  | late => exact iff_of_true (.inl h) trivial
  | relayed => exact iff_of_true (.inl h) trivial

/-- At first everyone sees the ring as it is. -/
theorem meeting_start (hring : IsRing s ps nodes) (hr : Rivals s owner candidate newcomer)
    (hpeer : (nodes candidate).isSuperpeer = false) (hrole : (nodes newcomer).isSuperpeer = true)
    (hbootstrap : (nodes newcomer).ring.bootstrap ∈ s) (safe : Bool) :
    (startBoth nodes owner candidate newcomer safe).Meeting s ps owner candidate newcomer none
      .searching .asking := by
  have hlone : Lone s ps owner candidate newcomer (views nodes) .searching :=
    ⟨hring.formed owner hr.first.owns.1, fun x hx _ => .inl ⟨hring.formed x hx, nofun⟩, trivial,
      nofun, nofun, hbootstrap⟩
  have hrecord : Recorded owner candidate newcomer none .searching .asking [] := by
    refine ⟨⟨?_, ?_⟩, fun _ => ?_, nofun, iff_of_false nofun ?_, nofun⟩ <;> simp
  refine ⟨.searching (.home rfl (tame_promotion candidate safe)), Nat.le_refl 1,
    .seeking rfl rfl rfl fun v _ n hn hcontact hother hme => seeks_joining hn hcontact ?_,
    hring.me, fun x hx => ?_, hpeer, .lone hlone, hrecord⟩
  · rw [hme]
    exact hother
  · rcases hx with hx | rfl
    · exact hring.role x hx
    · exact hrole

theorem ArePointed.arePrimary {S : NodeSet} (h : σ.ArePointed S) (hme : ∀ x, (σ.nodes x).me = x)
    (hrole : ∀ x ∈ S, (σ.nodes x).isSuperpeer = true) : σ.ArePrimary S := by
  intro x hx id
  rw [Node.isPrimaryFor_iff (hrole x hx) (h x hx) ((hme x).symm ▸ hx), hme]

/-- Who sees the ring claims what it owns there, and a newcomer that was overtaken does as well. -/
theorem arePrimary_of_reconciled {b : Bool} (hr : Rivals s owner candidate newcomer)
    (hme : ∀ x, (σ.nodes x).me = x)
    (hrole : ∀ x ∈ (s.insert candidate).insert newcomer, (σ.nodes x).isSuperpeer = true)
    (h : Reconciled s owner candidate newcomer b (views σ.nodes)) :
    σ.ArePrimary ((s.insert candidate).insert newcomer) := by
  intro x hx id
  rcases NodeSet.mem_insert.mp hx with rfl | hmember
  case inr =>
    rw [Node.isPrimaryFor_iff (hrole x hx) (h.members x hmember) ((hme x).symm ▸ hx), hme]
  have hview := h.newcomerView
  cases b with
  | false =>
    rw [if_neg Bool.false_ne_true] at hview
    rw [Node.isPrimaryFor_iff (hrole x hx) hview ((hme x).symm ▸ hx), hme]
  | true =>
    have hmem : x ∈ s.insert x := NodeSet.mem_insert.mpr (.inl rfl)
    rw [Node.isPrimaryFor_iff (hrole x hx) hview ((hme x).symm ▸ hmem), hme, NodeSet.insert_comm]
    exact (NodeSet.owns_insert_iff_of_ne (h.fits rfl) hr.symm.fresh hmem
      (Ne.symm (hr.second.ne hr.first.owns.1))).symm

/-- In a ring nobody claims a position with another. -/
theorem not_arePrimary (hr : Rivals s owner candidate newcomer) {id : NodeId}
    (hcandidate : (σ.nodes candidate).isPrimaryFor id = true)
    (hother : (σ.nodes newcomer).isPrimaryFor id = true ∨ (σ.nodes owner).isPrimaryFor id = true) :
    ¬ σ.ArePrimary ((s.insert candidate).insert newcomer) := by
  intro hprimary
  have hmember {x : NodeId} (hx : x ∈ s.insert candidate) :
      x ∈ (s.insert candidate).insert newcomer := NodeSet.mem_insert.mpr (.inr hx)
  have hown := (hprimary candidate (hmember (NodeSet.mem_insert.mpr (.inl rfl))) id).mp hcandidate
  rcases hother with hother | hother
  · have hown' := (hprimary newcomer (NodeSet.mem_insert.mpr (.inl rfl)) id).mp hother
    exact hr.ne (hown.unique hown')
  · have howner := hr.first.owns.1
    have hown' := (hprimary owner (hmember (NodeSet.mem_insert.mpr (.inr howner))) id).mp hother
    exact hr.first.ne howner (hown'.unique hown)

section

variable {b : Bool}

/-- The newcomer was welcomed by the owner, or by the candidate once it had its place. -/
theorem welcome_or {moment : Moment} (hat : moment.At owner candidate early)
    (hwelcome : g.IsWelcome (moment.host owner candidate) newcomer) :
    g.IsWelcome owner newcomer ∨
      g.IsWelcome candidate newcomer ∧ ∃ g ∈ early, g.IsCommit owner := by
  cases moment with
  | relayed => exact .inr ⟨hwelcome, hat⟩
  | _ => exact .inl hwelcome

variable (hr : Rivals s owner candidate newcomer) (hme : ∀ x, (σ.nodes x).me = x)
  (hrole : ∀ x ∈ (s.insert candidate).insert newcomer, (σ.nodes x).isSuperpeer = true)
  (hsplit : σ.trace = early ++ g :: late)
  (hwelcome : g.IsWelcome owner newcomer ∨
    g.IsWelcome candidate newcomer ∧ ∃ g ∈ early, g.IsCommit owner)

include hr hme hrole hsplit hwelcome

/-- What is reconciled in the end was in order. -/
theorem crossed_of_reconciled (horder : InOrder s owner candidate newcomer early)
    (hovertaken : b = true ↔ Overtaken owner candidate newcomer σ.trace)
    (h : Reconciled s owner candidate newcomer b (views σ.nodes)) :
    Crossed s owner candidate newcomer σ early g late := by
  have hprimary := arePrimary_of_reconciled hr hme hrole h
  refine ⟨hsplit, hwelcome, ?_, iff_of_true hprimary horder, fun _ => h.members,
    fun _ hlate => ?_, fun hnot => absurd horder hnot⟩
  · rw [and_iff_right horder, ← hovertaken]
    cases b with
    | true =>
      refine iff_of_false (fun hpointed => ?_) (fun hnot => hnot rfl)
      exact h.not_pointed hr hme (hpointed newcomer (NodeSet.mem_insert.mpr (.inl rfl)))
    | false =>
      refine iff_of_true (fun x hx => ?_) Bool.false_ne_true
      rcases NodeSet.mem_insert.mp hx with rfl | hx
      · exact h.newcomerView
      · exact h.members x hx
  · have hview := h.newcomerView
    rw [if_pos (hovertaken.mpr hlate)] at hview
    exact hview

/-- Where the candidate's range meets another, it was not in order. -/
theorem crossed_of_overlap (hunordered : ¬ InOrder s owner candidate newcomer early) {id : NodeId}
    (hcandidate : (σ.nodes candidate).ring.Covers id)
    (hother : (σ.nodes newcomer).ring.Covers id ∨ (σ.nodes owner).ring.Covers id) :
    Crossed s owner candidate newcomer σ early g late := by
  have hmember {x : NodeId} (hx : x ∈ s.insert candidate) :
      x ∈ (s.insert candidate).insert newcomer := NodeSet.mem_insert.mpr (.inr hx)
  have hcandidate' := Node.isPrimaryFor_of_covers
    (hrole candidate (hmember (NodeSet.mem_insert.mpr (.inl rfl)))) hcandidate
  have hother' : (σ.nodes newcomer).isPrimaryFor id = true ∨
      (σ.nodes owner).isPrimaryFor id = true :=
    hother.imp
      (Node.isPrimaryFor_of_covers (hrole newcomer (NodeSet.mem_insert.mpr (.inl rfl))))
      (Node.isPrimaryFor_of_covers
        (hrole owner (hmember (NodeSet.mem_insert.mpr (.inr hr.first.owns.1)))))
  have hnot := not_arePrimary hr hcandidate' hother'
  refine ⟨hsplit, hwelcome, iff_of_false ?_ fun h => hunordered h.1,
    iff_of_false hnot hunordered, fun h => absurd h hunordered, fun h => absurd h hunordered,
    fun _ => ⟨id, hcandidate', hother'⟩⟩
  exact fun hpointed => hnot (hpointed.arePrimary hme hrole)

end

/-- A promotion that has taken effect is over when no operation runs any more. -/
theorem PromotionAt.eq_done {φ : PromotionPhase} (h : PromotionAt owner candidate φ none)
    (hcommitted : φ.committed = true) : ∃ b, φ = .done b := by
  generalize hnone : (none : Option Thread) = operation at h
  cases h with
  | closing hφ =>
    refine hφ.resolve_left ?_
    rintro rfl
    cases hcommitted
  | _ => cases hnone

/-- What becomes of a promotion and an admission in the same range when both take effect. Everyone
claims what it owns in the ring with both newcomers exactly if the newcomer was welcomed at a moment
that suits the promotion, and has its neighbours right exactly if the newcomer was not overtaken
either. Otherwise the candidate claims a position that the newcomer or the owner claims as well. -/
theorem crossing_outcome (hring : IsRing s ps nodes) (hr : Rivals s owner candidate newcomer)
    (hpeer : (nodes candidate).isSuperpeer = false) (hrole : (nodes newcomer).isSuperpeer = true)
    (hbootstrap : (nodes newcomer).ring.bootstrap ∈ s) (safe : Bool) {moves : List Move}
    (hmoves : ∀ move ∈ moves, move.isInner = true)
    (hσ : σ = (startBoth nodes owner candidate newcomer safe).run moves)
    (hended : σ.operation = none) (hpromoted : ∃ g ∈ σ.trace, g.IsCommit owner)
    (hadmitted : ∃ g ∈ σ.trace, g.IsInstallation newcomer) :
    ∃ early g late, Crossed s owner candidate newcomer σ early g late := by
  obtain ⟨m, φ, ψ, hpromotion, -, -, hscene⟩ :=
    (meeting_start hring hr hpeer hrole hbootstrap safe).run hr hmoves
  rw [← hσ] at hpromotion hscene
  obtain rfl : ψ = .done := hscene.record.installed.mpr hadmitted
  rw [hended] at hpromotion
  obtain ⟨b, rfl⟩ := hpromotion.eq_done (hscene.record.past.committed_iff.mpr hpromoted)
  obtain ⟨moment, hm, houtcome⟩ := hscene.sight.outcome hr hscene.me
  obtain ⟨early, g, late, hsplit, hwelcome, hat⟩ := hscene.record.welcomed moment hm
  have hfits : InOrder s owner candidate newcomer early ↔
      moment.Fits s owner candidate newcomer := inOrder_iff hat
  have hsuperpeer : ∀ x ∈ (s.insert candidate).insert newcomer,
      (σ.nodes x).isSuperpeer = true := by
    intro x hx
    rcases NodeSet.mem_insert.mp hx with rfl | hx
    · exact hscene.member x (.inr rfl)
    rcases NodeSet.mem_insert.mp hx with rfl | hx
    · exact hscene.promoted
    · exact hscene.member x (.inl hx)
  refine ⟨early, g, late, ?_⟩
  rcases houtcome with ⟨hfit, hreconciled⟩ | ⟨hunfit, id, hcandidate, hother⟩
  · have hovertaken : b = true ↔ Overtaken owner candidate newcomer σ.trace := by
      rw [← hscene.record.overtaken rfl, PromotionPhase.done.injEq]
    exact crossed_of_reconciled hr hscene.me hsuperpeer hsplit (welcome_or hat hwelcome)
      (hfits.mpr hfit) hovertaken hreconciled
  · exact crossed_of_overlap hr hscene.me hsuperpeer hsplit (welcome_or hat hwelcome)
      (fun horder => hunfit (hfits.mp horder)) hcandidate hother

/-! ## A superpeer that is alone -/

theorem IsRing.congr {nodes' : NodeId → Node} (h : IsRing s ps nodes)
    (hme : ∀ x, (nodes' x).me = x) (hsame : ∀ x ∈ s, nodes' x = nodes x) : IsRing s ps nodes' :=
  ⟨hme, fun x hx => hsame x hx ▸ h.role x hx, fun x hx => hsame x hx ▸ h.formed x hx,
    fun x hx => hsame x hx ▸ h.keyed x hx⟩

/-- A superpeer that is alone with its peers, and a superpeer that may join. -/
def aroundBoth (id : NodeId) : Node :=
  if id = ⟨700⟩ then .new { Config.default with nodeId := ⟨700⟩, bootstrap := ⟨1000⟩ }
  else around Machine.candidate id

/-- The newcomer joins between the offer to the candidate and the answer. -/
def crossingRun : Machine :=
  (startBoth aroundBoth ⟨1000⟩ ⟨500⟩ ⟨700⟩ true).run
    (List.replicate 2 (.operate .plain) ++ List.replicate 5 (.serve 0 .plain) ++
      List.replicate 6 (.operate .plain))

/-- The newcomer joins after the promotion. -/
def successiveRun : Machine :=
  (startBoth aroundBoth ⟨1000⟩ ⟨500⟩ ⟨700⟩ true).run
    (List.replicate 8 (.operate .plain) ++ List.replicate 7 (.serve 0 .plain))

theorem isRing_aroundBoth :
    IsRing (.ofList [⟨1000⟩]) (.ofList [⟨500⟩, ⟨600⟩]) aroundBoth := by
  have hring : IsRing _ _ (around Machine.candidate) := isRing_around rfl
  refine hring.congr (fun x => ?_) fun x hx => ?_
  · unfold aroundBoth
    split
    case isTrue heq =>
      rw [heq]
      rfl
    case isFalse => exact hring.me x
  · obtain rfl := List.mem_singleton.mp (NodeSet.mem_ofList.mp hx)
    rfl

theorem rivals_aroundBoth : Rivals (.ofList [⟨1000⟩]) ⟨1000⟩ ⟨500⟩ ⟨700⟩ :=
  ⟨entrance_around, ⟨⟨by decide, by decide⟩, by decide, by decide⟩, by decide⟩

/-- Both take effect in both runs. When they cross, the candidate and the newcomer claim the
candidate's position. -/
theorem crossing_outcome_around :
    ((∃ early g late, Crossed (.ofList [⟨1000⟩]) ⟨1000⟩ ⟨500⟩ ⟨700⟩ crossingRun early g late) ∧
      (crossingRun.nodes ⟨500⟩).isPrimaryFor ⟨500⟩ = true ∧
      (crossingRun.nodes ⟨700⟩).isPrimaryFor ⟨500⟩ = true) ∧
    ((∃ early g late, Crossed (.ofList [⟨1000⟩]) ⟨1000⟩ ⟨500⟩ ⟨700⟩ successiveRun early g late) ∧
      (successiveRun.nodes ⟨500⟩).isPrimaryFor ⟨500⟩ = true ∧
      (successiveRun.nodes ⟨700⟩).isPrimaryFor ⟨500⟩ = false) := by
  refine ⟨⟨?_, rfl, rfl⟩, ⟨?_, rfl, rfl⟩⟩
  · exact crossing_outcome isRing_aroundBoth rivals_aroundBoth rfl rfl (by decide) true
      (by decide) rfl rfl ⟨crossingRun.trace[12], List.getElem_mem _, rfl, rfl⟩
      ⟨crossingRun.trace[5], List.getElem_mem _, rfl, _, rfl⟩
  · exact crossing_outcome isRing_aroundBoth rivals_aroundBoth rfl rfl (by decide) true
      (by decide) rfl rfl ⟨successiveRun.trace[7], List.getElem_mem _, rfl, rfl⟩
      ⟨successiveRun.trace[13], List.getElem_mem _, rfl, _, rfl⟩

end Machine

end ChunkDirectory
