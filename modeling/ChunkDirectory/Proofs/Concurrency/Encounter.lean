import ChunkDirectory.Proofs.Concurrency.Phases

/-!
# A promotion and an admission in one range

A superpeer promotes one of its peers while another superpeer joins in its range. What the views of
the ring come to is decided when the newcomer is welcomed (`Moment`).

* Before the offer, the newcomer stands between the candidate and the owner's old predecessor, or it
  is left out: the offer takes for granted that the candidate comes next to the owner (`Early`).
* After the offer and before the split, neither of the two is told of the other (`Clash`).
* After the split, the newcomer comes to a ring that has the candidate already. Either the owner
  welcomes it (`Late`) or it is sent on to the candidate (`Relayed`).

`Encounter` is the invariant. One lemma for each point at which a view changes says that it is kept.
-/

namespace ChunkDirectory

open NodeId Protocol

section

variable (s ps : NodeSet) (owner candidate newcomer : NodeId) (rings : NodeId → Ring)

/-- The newcomer has not been welcomed. -/
structure Lone (φ : PromotionPhase) : Prop where
  ownerView : (rings owner).Formed (φ.ring s candidate) ps
  others : Around s ps owner candidate (φ.committed = true) (φ.ended = true) rings
  candidateView : φ.Enters s ps owner candidate rings
  told : ∀ old, φ = .telling old → s.Before owner old
  punctual : φ ≠ .done true
  bootstrap : (rings newcomer).bootstrap ∈ s

/-- The newcomer was welcomed before the offer, and the candidate comes between it and the owner. -/
structure Early (φ : PromotionPhase) (ψ : AdmissionPhase) : Prop where
  fits : φ ≠ .searching → (s.insert newcomer).Owns candidate owner
  ownerView : (rings owner).Formed (φ.ring (s.insert newcomer) candidate) ps
  others : Around s ps owner newcomer True (ψ.told = true) rings
  candidateView : φ.Enters (s.insert newcomer) ps owner candidate rings
  newcomerView :
    ψ.Enters s ps owner newcomer rings (φ.heard (s.insert newcomer) candidate)
  overtaken : ψ ≠ .done → ∀ b, φ = .done b → b = true
  told : ∀ old, φ = .telling old → old = newcomer
  tells : ∀ snapshot old, ψ = .telling snapshot old → s.Before owner old

/-- The candidate has the predecessor it would have without the newcomer, or the newcomer itself
although it comes before it. -/
structure Clash (m : Moment) (φ : PromotionPhase) (ψ : AdmissionPhase) : Prop where
  ownerView : (rings owner).predecessor = some (if φ.committed then candidate else newcomer)
  candidateView : ∃ p, φ.Follows candidate rings p ∧
    (m = .between ∧ (s.insert candidate).Before candidate p ∨
      m = .early ∧ p = newcomer ∧ ¬ (s.insert newcomer).Owns candidate owner)
  newcomerView : ∃ p, ψ.Follows newcomer rings p ∧ (s.insert newcomer).Before newcomer p
  told : ∀ old, φ = .telling old → old = newcomer
  tells : ∀ snapshot old, ψ = .telling snapshot old → s.Before owner old

/-- The newcomer was welcomed after the split, and comes between the candidate and the owner. -/
structure Late (φ : PromotionPhase) (ψ : AdmissionPhase) : Prop where
  fits : (s.insert candidate).Owns newcomer owner
  committed : φ.committed = true
  ownerView : (rings owner).Formed ((s.insert candidate).insert newcomer) ps
  others : Around s ps owner candidate True (φ.ended = true) rings
  candidateView : (rings candidate).Pointed
    (if ψ.told then (s.insert candidate).insert newcomer else s.insert candidate)
  newcomerView : ψ.Enters (s.insert candidate) ps owner newcomer rings
    ((s.insert candidate).insert newcomer)
  told : ∀ old, φ = .telling old → s.Before owner old
  punctual : φ ≠ .done true
  tells : ∀ snapshot old, ψ = .telling snapshot old → old = candidate

/-- The newcomer was welcomed by the candidate after the split. -/
structure Relayed (φ : PromotionPhase) (ψ : AdmissionPhase) : Prop where
  fits : (s.insert candidate).Owns newcomer candidate
  committed : φ.committed = true
  others : AroundBoth s ps owner candidate newcomer (φ.ended = true) (ψ.told = true) rings
  candidateView : (rings candidate).Pointed ((s.insert candidate).insert newcomer)
  newcomerView : ∃ ps, ψ.Enters (s.insert candidate) ps candidate newcomer rings
    ((s.insert candidate).insert newcomer)
  told : ∀ old, φ = .telling old → s.Before owner old
  punctual : φ ≠ .done true
  tells : ∀ snapshot old, ψ = .telling snapshot old → (s.insert candidate).Before candidate old

/-- What everyone sees of the ring while a promotion and an admission are under way. -/
inductive Encounter : Option Moment → PromotionPhase → AdmissionPhase → Prop
  | lone {φ : PromotionPhase} :
      Lone s ps owner candidate newcomer rings φ → Encounter none φ .asking
  | early {φ : PromotionPhase} {ψ : AdmissionPhase} :
      Early s ps owner candidate newcomer rings φ ψ → Encounter (some .early) φ ψ
  | clash {m : Moment} {φ : PromotionPhase} {ψ : AdmissionPhase} :
      Clash s owner candidate newcomer rings m φ ψ → Encounter (some m) φ ψ
  | late {φ : PromotionPhase} {ψ : AdmissionPhase} :
      Late s ps owner candidate newcomer rings φ ψ → Encounter (some .late) φ ψ
  | relayed {φ : PromotionPhase} {ψ : AdmissionPhase} :
      Relayed s ps owner candidate newcomer rings φ ψ → Encounter (some .relayed) φ ψ
  /-- The promotion has failed after the newcomer was welcomed. -/
  | void {m : Option Moment} {ψ : AdmissionPhase} : ψ ≠ .asking → Encounter m .failed ψ

end

section

variable {s ps : NodeSet} {owner candidate newcomer new old : NodeId} {rings rings' : NodeId → Ring}
  {m : Option Moment} {φ : PromotionPhase} {ψ : AdmissionPhase} {snapshot : Snapshot} {alone : Bool}
  (hr : Rivals s owner candidate newcomer) (hme : ∀ x, (rings x).me = x)

/-! ## Before the newcomer is welcomed -/

namespace Lone

include hr

/-- The promotion fails, and the candidate may be what it was. -/
theorem fail (h : Lone s ps owner candidate newcomer rings φ) (hcommitted : φ.committed = false)
    (hsame : ∀ x, x ≠ candidate → rings' x = rings x) :
    Lone s ps owner candidate newcomer rings' .failed := by
  have hmember : ∀ x ∈ s, rings' x = rings x := fun x hx => hsame x (hr.first.ne hx)
  have hview := h.ownerView
  rw [PromotionPhase.ring_of_not_committed hcommitted, ← hmember owner hr.first.owns.1] at hview
  refine ⟨hview, h.others.mono ?_ nofun fun x hx _ => hmember x hx, trivial, nofun, nofun, ?_⟩
  · rw [hcommitted]
    exact id
  · rw [hsame newcomer (Ne.symm hr.ne)]
    exact h.bootstrap

include hme

theorem offer (h : Lone s ps owner candidate newcomer rings .searching) {n : Node}
    (hn : n.ring = rings owner) :
    Lone s ps owner candidate newcomer rings
      (.offered (Protocol.offer candidate n) n.ring.superpeers.isEmpty) :=
  ⟨h.ownerView, h.others, .offer hr.first hme hn h.ownerView, nofun, nofun, h.bootstrap⟩

theorem accept (h : Lone s ps owner candidate newcomer rings (.offered snapshot alone))
    (hchange : Changes rings candidate ((rings candidate).adopt snapshot) rings') :
    Lone s ps owner candidate newcomer rings' (.accepted snapshot alone) := by
  have hmember : ∀ x ∈ s, rings' x = rings x := fun x hx => hchange.other x (hr.first.ne hx)
  refine ⟨?_, h.others.mono id id fun x hx _ => hmember x hx,
    h.candidateView.accept hr.first hme hchange, nofun, nofun, ?_⟩
  · rw [hmember owner hr.first.owns.1]
    exact h.ownerView
  · rw [hchange.other newcomer (Ne.symm hr.ne)]
    exact h.bootstrap

/-- The owner splits its range, and goes on to tell the superpeer before if there is one. -/
theorem commit (h : Lone s ps owner candidate newcomer rings (.accepted snapshot alone)) {n : Node}
    (hn : n.ring = rings owner)
    (hchange : Changes rings owner
      (Node.splitRing (rings owner) snapshot.peers candidate alone) rings') :
    Lone s ps owner candidate newcomer rings'
      (.split (if alone then none else (rings owner).predecessor)) := by
  obtain ⟨hformed, hsees, hold⟩ := h.candidateView.commit hr.first hme hn h.ownerView hchange
  have hmember : ∀ x ∈ s, x ≠ owner → rings' x = rings x := fun x _ hne => hchange.other x hne
  have hbootstrap : (rings' newcomer).bootstrap ∈ s := by
    rw [hchange.other newcomer (Ne.symm (hr.second.ne hr.first.owns.1))]
    exact h.bootstrap
  rw [hold]
  cases hp : (rings owner).predecessor with
  | none =>
    refine ⟨hformed, fun x hx hne => ?_, hsees, nofun, nofun, hbootstrap⟩
    exact absurd ((h.ownerView.eq_me hp hx).trans (hme owner)) hne
  | some old =>
    refine ⟨hformed, h.others.mono nofun id hmember, hsees, ?_, nofun, hbootstrap⟩
    rintro _ ⟨⟩
    exact hme owner ▸ (h.ownerView.predecessor old).mp hp

theorem tell (h : Lone s ps owner candidate newcomer rings (.telling old))
    (hchange : Changes rings old ((rings old).noted candidate) rings') :
    Lone s ps owner candidate newcomer rings' (.done false) := by
  have hbefore := h.told old rfl
  have hothers := h.others.note hr.first hme hbefore hchange
  have hsame : ∀ x, x ∉ s ∨ x = owner → rings' x = rings x := by
    rintro x (hx | rfl)
    · exact hchange.other x fun heq => hx (heq ▸ hbefore.1)
    · exact hchange.other x (Ne.symm hbefore.2.1)
  refine ⟨?_, hothers.mono (fun _ => rfl) (fun _ => trivial) fun _ _ _ => rfl, ?_, nofun, nofun, ?_⟩
  · rw [hsame owner (.inr rfl)]
    exact h.ownerView
  · show (rings' candidate).Sees (s.insert candidate)
    rw [hsame candidate (.inl hr.first.fresh)]
    exact h.candidateView
  · rw [hsame newcomer (.inl hr.second.fresh)]
    exact h.bootstrap

/-! ### The owner welcomes the newcomer -/

omit hr in
theorem before_of_predecessor (h : Lone s ps owner candidate newcomer rings φ)
    (hcommitted : φ.committed = false) {x : NodeId} :
    (rings owner).predecessor = some x ↔ s.Before owner x := by
  have hview := h.ownerView
  rw [PromotionPhase.ring_of_not_committed hcommitted] at hview
  rw [hview.predecessor, hme]

omit hr in
/-- Nobody but the owner knows of the newcomer at first. -/
theorem around (h : Lone s ps owner candidate newcomer rings φ) (hcommitted : φ.committed = false)
    {r : Ring} (hchange : Changes rings owner r rings') :
    Around s ps owner newcomer True
      ((AdmissionPhase.welcomed snapshot (rings owner).predecessor).told = true) rings' := by
  intro x hx hne
  rw [hchange.other x hne]
  rcases h.others x hx hne with ⟨hformed, -⟩ | ⟨hc, -⟩
  · refine .inl ⟨hformed, fun htold hbefore => ?_⟩
    rw [(h.before_of_predecessor hme hcommitted).mpr hbefore] at htold
    cases htold
  · rw [hcommitted] at hc
    cases hc

omit hr in
/-- Only the superpeer before the owner is told. -/
theorem tells (h : Lone s ps owner candidate newcomer rings φ) (hcommitted : φ.committed = false)
    (snapshot' : Snapshot) (old : NodeId)
    (hold : AdmissionPhase.welcomed snapshot (rings owner).predecessor = .telling snapshot' old) :
    s.Before owner old := by
  refine (h.before_of_predecessor hme hcommitted).mp ?_
  cases hp : (rings owner).predecessor with
  | none =>
    rw [hp] at hold
    cases hold
  | some p =>
    rw [hp] at hold
    cases hold
    rfl

omit hr in
/-- Before the offer. -/
theorem early (h : Lone s ps owner candidate newcomer rings .searching)
    (hplaces : ∃ p, Node.Places s ps owner newcomer p snapshot) {r : Ring}
    (hformed : r.Formed (s.insert newcomer) ps) (hchange : Changes rings owner r rings') :
    Early s ps owner candidate newcomer rings' .searching
      (.welcomed snapshot (rings owner).predecessor) := by
  refine ⟨fun hnot => absurd rfl hnot, ?_, h.around hme rfl hchange, trivial, ?_, nofun, nofun,
    h.tells hme rfl⟩
  · rw [hchange.self]
    exact hformed
  · cases (rings owner).predecessor <;> exact hplaces

/-- After the offer, before the split. -/
theorem clash (h : Lone s ps owner candidate newcomer rings φ) (hφ : φ.moment = some .between)
    (hplaces : ∃ p, Node.Places s ps owner newcomer p snapshot) {r : Ring}
    (hformed : r.Formed (s.insert newcomer) ps) (hrme : r.me = owner)
    (hchange : Changes rings owner r rings') :
    Clash s owner candidate newcomer rings' .between φ
      (.welcomed snapshot (rings owner).predecessor) := by
  have hcommitted : φ.committed = false := by cases φ <;> first | rfl | cases hφ
  have htold : ∀ old, φ ≠ .telling old := by
    rintro old rfl
    cases hφ
  have hpredecessor : r.predecessor = some newcomer := by
    rw [hformed.predecessor, hrme]
    exact NodeSet.owner_before hr.second.owns hr.second.fresh
  obtain ⟨p, hp, hbefore⟩ := h.candidateView.exists_follows hme hφ
  obtain ⟨q, hq⟩ := hplaces
  refine ⟨?_, ⟨p, hp.congr ?_, .inl ⟨rfl, hbefore⟩⟩, ⟨q, ?_, hq.before⟩,
    fun old hold => absurd hold (htold old), h.tells hme hcommitted⟩
  · rw [hchange.self, hpredecessor, if_neg (by rw [hcommitted]; exact Bool.false_ne_true)]
  · exact hchange.other candidate (Ne.symm (hr.first.ne hr.first.owns.1))
  · cases (rings owner).predecessor <;> exact hq.predecessor

/-- After the split. -/
theorem late (h : Lone s ps owner candidate newcomer rings φ) (hcommitted : φ.committed = true)
    (hfits : (s.insert candidate).Owns newcomer owner)
    (hplaces : ∃ p, Node.Places (s.insert candidate) ps owner newcomer p snapshot) {r : Ring}
    (hformed : r.Formed ((s.insert candidate).insert newcomer) ps)
    (hchange : Changes rings owner r rings') :
    Late s ps owner candidate newcomer rings' φ
      (.welcomed snapshot (rings owner).predecessor) := by
  have hview := h.ownerView
  rw [PromotionPhase.ring_of_committed hcommitted] at hview
  have hpredecessor : (rings owner).predecessor = some candidate := by
    rw [hview.predecessor, hme]
    exact NodeSet.owner_before hr.first.owns hr.first.fresh
  rw [hpredecessor]
  refine ⟨hfits, hcommitted, ?_, h.others.mono (fun _ => trivial) id fun x _ hne =>
    hchange.other x hne, ?_, hplaces, h.told, h.punctual, ?_⟩
  · rw [hchange.self]
    exact hformed
  · rw [hchange.other candidate (Ne.symm (hr.first.ne hr.first.owns.1))]
    exact (h.candidateView.sees hcommitted).pointed
  · rintro _ _ ⟨⟩
    rfl

/-- After the split the candidate welcomes those whose positions it has taken over. -/
theorem relayed (h : Lone s ps owner candidate newcomer rings φ) (hcommitted : φ.committed = true)
    (hfits : (s.insert candidate).Owns newcomer candidate)
    (hplaces : ∃ ps p, Node.Places (s.insert candidate) ps candidate newcomer p snapshot) {r : Ring}
    (hpointed : r.Pointed ((s.insert candidate).insert newcomer))
    (hchange : Changes rings candidate r rings') :
    Relayed s ps owner candidate newcomer rings' φ
      (.welcomed snapshot (rings candidate).predecessor) := by
  have hview := (h.candidateView.sees hcommitted).pointed
  have howner : owner ∈ s.insert candidate := NodeSet.mem_insert.mpr (.inr hr.first.owns.1)
  obtain ⟨p, hp⟩ := NodeSet.exists_before howner (hr.first.ne hr.first.owns.1)
  have hpredecessor : (rings candidate).predecessor = some p := by
    rw [hview.predecessor, hme]
    exact hp
  rw [hpredecessor]
  obtain ⟨ps', hplaces⟩ := hplaces
  refine ⟨hfits, hcommitted, fun x hx => .inl ⟨?_, nofun⟩, ?_, ⟨ps', hplaces⟩, h.told, h.punctual,
    ?_⟩
  · rw [hchange.other x (hr.first.ne hx)]
    by_cases hne : x = owner
    · subst hne
      have hformed := h.ownerView
      rw [PromotionPhase.ring_of_committed hcommitted] at hformed
      exact .inr hformed
    · exact (h.others x hx hne).imp (fun hformed => ⟨hne, hformed⟩) fun hformed => hformed.2
  · rw [hchange.self]
    exact hpointed
  · rintro _ _ ⟨⟩
    exact hp

end Lone

/-! ## The newcomer welcomed before the offer -/

namespace Early

include hme in
theorem predecessor_owner (h : Early s ps owner candidate newcomer rings φ ψ)
    (he : Entrance s owner newcomer) (hcommitted : φ.committed = false) :
    (rings owner).predecessor = some newcomer := by
  have hview := h.ownerView
  rw [PromotionPhase.ring_of_not_committed hcommitted] at hview
  refine (hview.predecessor newcomer).mpr ?_
  rw [hme]
  exact NodeSet.owner_before he.owns he.fresh

include hr hme

theorem offer (h : Early s ps owner candidate newcomer rings .searching ψ)
    (hfits : (s.insert newcomer).Owns candidate owner) {n : Node} (hn : n.ring = rings owner) :
    Early s ps owner candidate newcomer rings
      (.offered (Protocol.offer candidate n) n.ring.superpeers.isEmpty) ψ :=
  ⟨fun _ => hfits, h.ownerView, h.others, .offer (hr.symm.entrance hfits) hme hn h.ownerView,
    h.newcomerView, nofun, nofun, h.tells⟩

/-- The owner offers the candidate the newcomer as its predecessor, on whichever side it is. -/
theorem misled (h : Early s ps owner candidate newcomer rings .searching ψ)
    (hnot : ¬ (s.insert newcomer).Owns candidate owner) {n : Node} (hn : n.ring = rings owner) :
    Clash s owner candidate newcomer rings .early
      (.offered (Protocol.offer candidate n) n.ring.superpeers.isEmpty) ψ := by
  have hpredecessor := h.predecessor_owner hme hr.second rfl
  have hempty : ¬ n.ring.superpeers.isEmpty = true := by
    rw [hn, h.ownerView.isEmpty_iff, hpredecessor]
    exact Option.some_ne_none newcomer
  refine ⟨hpredecessor, ⟨newcomer, ?_, .inr ⟨rfl, rfl, hnot⟩⟩,
    h.newcomerView.exists_follows hr.second hme, nofun, h.tells⟩
  show some (if n.ring.superpeers.isEmpty then n.me else n.ring.predecessor.getD n.me) = _
  rw [if_neg hempty, hn, hpredecessor]
  rfl

theorem accept (h : Early s ps owner candidate newcomer rings (.offered snapshot alone) ψ)
    (hchange : Changes rings candidate ((rings candidate).adopt snapshot) rings') :
    Early s ps owner candidate newcomer rings' (.accepted snapshot alone) ψ := by
  have hmember : ∀ x ∈ s, rings' x = rings x := fun x hx => hchange.other x (hr.first.ne hx)
  have hfits := h.fits nofun
  refine ⟨fun _ => hfits, ?_, h.others.mono id id fun x hx _ => hmember x hx,
    h.candidateView.accept (hr.symm.entrance hfits) hme hchange,
    h.newcomerView.congr (hchange.other newcomer (Ne.symm hr.ne)), nofun, nofun, h.tells⟩
  rw [hmember owner hr.first.owns.1]
  exact h.ownerView

theorem commit (h : Early s ps owner candidate newcomer rings (.accepted snapshot alone) ψ)
    {n : Node} (hn : n.ring = rings owner)
    (hchange : Changes rings owner
      (Node.splitRing (rings owner) snapshot.peers candidate alone) rings') :
    Early s ps owner candidate newcomer rings'
      (.split (if alone then none else (rings owner).predecessor)) ψ := by
  have hfits := h.fits nofun
  obtain ⟨hformed, hsees, hold⟩ :=
    h.candidateView.commit (hr.symm.entrance hfits) hme hn h.ownerView hchange
  rw [hold, h.predecessor_owner hme hr.second rfl]
  refine ⟨fun _ => hfits, hformed, h.others.mono id id fun x _ hne => hchange.other x hne, hsees,
    h.newcomerView.congr (hchange.other newcomer (Ne.symm (hr.second.ne hr.first.owns.1))), nofun,
    ?_, h.tells⟩
  rintro _ ⟨⟩
  rfl

/-- The newcomer is told of the candidate. It loses sight of the candidate again if it takes its
place only afterwards. -/
theorem tell (h : Early s ps owner candidate newcomer rings (.telling old) ψ) {b : Bool}
    (hb : b = true ↔ ψ ≠ .done)
    (hchange : Changes rings old ((rings old).noted candidate) rings') :
    Early s ps owner candidate newcomer rings' (.done b) ψ := by
  obtain rfl := h.told old rfl
  have hfits := h.fits nofun
  have howner : (rings' owner).Formed ((s.insert old).insert candidate) ps := by
    rw [hchange.other owner (hr.second.ne hr.first.owns.1)]
    exact h.ownerView
  have hothers := h.others.mono id id fun x hx _ => hchange.other x (hr.second.ne hx)
  have hcandidate : (rings' candidate).Sees ((s.insert old).insert candidate) := by
    rw [hchange.other candidate hr.ne]
    exact h.candidateView
  cases b with
  | false =>
    obtain rfl : ψ = .done := by simpa using hb
    have hview : (rings old).Pointed (s.insert old) := h.newcomerView
    have hnewcomer : (rings' old).Pointed ((s.insert old).insert candidate) := by
      rw [hchange.self]
      refine hview.noted ?_ hfits hr.symm.fresh ?_
      all_goals rw [hme]
      · exact NodeSet.mem_insert.mpr (.inl rfl)
      · exact NodeSet.owner_before hr.second.owns hr.second.fresh
    exact ⟨fun _ => hfits, howner, hothers, hcandidate, hnewcomer, fun hnot => absurd rfl hnot,
      nofun, h.tells⟩
  | true =>
    refine ⟨fun _ => hfits, howner, hothers, hcandidate, h.newcomerView.of_ne_done (hb.mp rfl), ?_,
      nofun, h.tells⟩
    rintro - _ ⟨⟩
    rfl

/-- The superpeer before the newcomer is told. -/
theorem note (h : Early s ps owner candidate newcomer rings φ (.telling snapshot old))
    (hchange : Changes rings old ((rings old).noted newcomer) rings') :
    Early s ps owner candidate newcomer rings' φ (.answering snapshot) := by
  have hbefore := h.tells snapshot old rfl
  have hothers := h.others.note hr.second hme hbefore hchange
  have howner := hchange.other owner (Ne.symm hbefore.2.1)
  refine ⟨h.fits, ?_, hothers.mono id (fun _ => trivial) fun _ _ _ => rfl,
    h.candidateView.congr howner (hchange.other candidate (Ne.symm (hr.first.ne hbefore.1))),
    h.newcomerView, fun _ => h.overtaken nofun, h.told, nofun⟩
  rw [howner]
  exact h.ownerView

/-- The newcomer takes its place. -/
theorem install (h : Early s ps owner candidate newcomer rings φ (.answering snapshot))
    (hchange : Changes rings newcomer ((rings newcomer).adopt snapshot) rings') :
    Early s ps owner candidate newcomer rings' φ .done := by
  have howner := hchange.other owner (hr.second.ne hr.first.owns.1)
  have hheard : φ.heard (s.insert newcomer) candidate = s.insert newcomer := by
    cases φ with
    | done b =>
      rw [h.overtaken nofun b rfl]
      rfl
    | _ => rfl
  refine ⟨h.fits, ?_, h.others.mono id id fun x hx _ => hchange.other x (hr.second.ne hx),
    h.candidateView.congr howner (hchange.other candidate hr.ne), ?_,
    fun hnot => absurd rfl hnot, h.told, nofun⟩
  · rw [howner]
    exact h.ownerView
  · obtain ⟨p, hplaces⟩ := h.newcomerView
    show (rings' newcomer).Pointed _
    rw [hheard, hchange.self]
    exact (hr.second.adopt_pointed hplaces (hme newcomer)).2

end Early

/-! ## The newcomer welcomed before the split -/

namespace Clash

variable {m : Moment}

include hr hme

theorem accept (h : Clash s owner candidate newcomer rings m (.offered snapshot alone) ψ)
    (hchange : Changes rings candidate ((rings candidate).adopt snapshot) rings') :
    Clash s owner candidate newcomer rings' m (.accepted snapshot alone) ψ := by
  obtain ⟨p, hp, hcase⟩ := h.candidateView
  obtain ⟨q, hq, hbefore⟩ := h.newcomerView
  have hne : p ≠ candidate := by
    rcases hcase with ⟨-, hcase⟩ | ⟨-, rfl, -⟩
    · exact hcase.2.1
    · exact Ne.symm hr.ne
  refine ⟨?_, ⟨p, ?_, hcase⟩, ⟨q, hq.congr ?_, hbefore⟩, nofun, h.tells⟩
  · rw [hchange.other owner (hr.first.ne hr.first.owns.1)]
    exact h.ownerView
  · show (rings' candidate).predecessor = some p
    rw [hchange.self]
    exact Ring.predecessor_adopt hp ((hme candidate).symm ▸ hne)
  · rw [hchange.other newcomer (Ne.symm hr.ne)]
    exact id

theorem commit (h : Clash s owner candidate newcomer rings m (.accepted snapshot alone) ψ)
    (hchange : Changes rings owner
      (Node.splitRing (rings owner) snapshot.peers candidate alone) rings') :
    Clash s owner candidate newcomer rings' m
      (.split (if alone then none else (rings owner).predecessor)) ψ := by
  obtain ⟨p, hp, hcase⟩ := h.candidateView
  obtain ⟨q, hq, hbefore⟩ := h.newcomerView
  have hne : candidate ≠ owner := Ne.symm (hr.first.ne hr.first.owns.1)
  have hpredecessor : (rings' owner).predecessor = some candidate := by
    rw [hchange.self]
    exact Ring.predecessor_splitRing _ _ ((hme owner).symm ▸ hne)
  have hfollows : (rings' candidate).predecessor = some p := by
    rw [hchange.other candidate hne]
    exact hp
  have hkept : (rings newcomer).predecessor = some q → (rings' newcomer).predecessor = some q := by
    rw [hchange.other newcomer (Ne.symm (hr.second.ne hr.first.owns.1))]
    exact id
  have hnewcomer : ∃ q, ψ.Follows newcomer rings' q ∧ (s.insert newcomer).Before newcomer q :=
    ⟨q, hq.congr hkept, hbefore⟩
  rw [show (rings owner).predecessor = some newcomer from h.ownerView]
  cases alone with
  | true => exact ⟨hpredecessor, ⟨p, hfollows, hcase⟩, hnewcomer, nofun, h.tells⟩
  | false =>
    refine ⟨hpredecessor, ⟨p, hfollows, hcase⟩, hnewcomer, ?_, h.tells⟩
    rintro _ ⟨⟩
    rfl

omit hme in
/-- To be told of a successor makes no difference to what a superpeer claims. -/
theorem tell (h : Clash s owner candidate newcomer rings m (.telling old) ψ) {b : Bool}
    (hchange : Changes rings old ((rings old).noted candidate) rings') :
    Clash s owner candidate newcomer rings' m (.done b) ψ := by
  obtain rfl := h.told old rfl
  obtain ⟨p, hp, hcase⟩ := h.candidateView
  obtain ⟨q, hq, hbefore⟩ := h.newcomerView
  refine ⟨?_, ⟨p, ?_, hcase⟩, ⟨q, hq.congr fun hq => ?_, hbefore⟩, nofun, h.tells⟩
  · rw [hchange.other owner (hr.second.ne hr.first.owns.1)]
    exact h.ownerView
  · show (rings' candidate).predecessor = some p
    rw [hchange.other candidate hr.ne]
    exact hp
  · rw [hchange.self]
    exact Ring.predecessor_noted hq candidate

omit hme in
theorem note (h : Clash s owner candidate newcomer rings m φ (.telling snapshot old))
    (hchange : Changes rings old ((rings old).noted newcomer) rings') :
    Clash s owner candidate newcomer rings' m φ (.answering snapshot) := by
  have hbefore := h.tells snapshot old rfl
  obtain ⟨p, hp, hcase⟩ := h.candidateView
  refine ⟨?_, ⟨p, hp.congr (hchange.other candidate (Ne.symm (hr.first.ne hbefore.1))), hcase⟩,
    h.newcomerView, h.told, nofun⟩
  rw [hchange.other owner (Ne.symm hbefore.2.1)]
  exact h.ownerView

theorem install (h : Clash s owner candidate newcomer rings m φ (.answering snapshot))
    (hchange : Changes rings newcomer ((rings newcomer).adopt snapshot) rings') :
    Clash s owner candidate newcomer rings' m φ .done := by
  obtain ⟨p, hp, hcase⟩ := h.candidateView
  obtain ⟨q, hq, hbefore⟩ := h.newcomerView
  refine ⟨?_, ⟨p, hp.congr (hchange.other candidate hr.ne), hcase⟩, ⟨q, ?_, hbefore⟩, h.told,
    nofun⟩
  · rw [hchange.other owner (hr.second.ne hr.first.owns.1)]
    exact h.ownerView
  · show (rings' newcomer).predecessor = some q
    rw [hchange.self]
    exact Ring.predecessor_adopt hq ((hme newcomer).symm ▸ hbefore.2.1)

end Clash

/-! ## The newcomer welcomed after the split -/

namespace Late

include hr hme

theorem tell (h : Late s ps owner candidate newcomer rings (.telling old) ψ)
    (hchange : Changes rings old ((rings old).noted candidate) rings') :
    Late s ps owner candidate newcomer rings' (.done false) ψ := by
  have hbefore := h.told old rfl
  have hothers := h.others.note hr.first hme hbefore hchange
  refine ⟨h.fits, rfl, ?_, hothers.mono id (fun _ => trivial) fun _ _ _ => rfl, ?_,
    h.newcomerView.congr (hchange.other newcomer (Ne.symm (hr.second.ne hbefore.1))), nofun, nofun,
    h.tells⟩
  · rw [hchange.other owner (Ne.symm hbefore.2.1)]
    exact h.ownerView
  · rw [hchange.other candidate (Ne.symm (hr.first.ne hbefore.1))]
    exact h.candidateView

/-- The candidate is told of the newcomer. -/
theorem note (h : Late s ps owner candidate newcomer rings φ (.telling snapshot old))
    (hchange : Changes rings old ((rings old).noted newcomer) rings') :
    Late s ps owner candidate newcomer rings' φ (.answering snapshot) := by
  obtain rfl := h.tells snapshot old rfl
  refine ⟨h.fits, h.committed, ?_, h.others.mono id id fun x hx _ =>
    hchange.other x (hr.first.ne hx), ?_, h.newcomerView, h.told, h.punctual, nofun⟩
  · rw [hchange.other owner (hr.first.ne hr.first.owns.1)]
    exact h.ownerView
  · rw [hchange.self]
    refine h.candidateView.noted ?_ h.fits hr.fresh ?_
    all_goals rw [hme]
    · exact NodeSet.mem_insert.mpr (.inl rfl)
    · exact NodeSet.owner_before hr.first.owns hr.first.fresh

theorem install (h : Late s ps owner candidate newcomer rings φ (.answering snapshot))
    (hchange : Changes rings newcomer ((rings newcomer).adopt snapshot) rings') :
    Late s ps owner candidate newcomer rings' φ .done := by
  obtain ⟨p, hplaces⟩ := h.newcomerView
  refine ⟨h.fits, h.committed, ?_, h.others.mono id id fun x hx _ =>
    hchange.other x (hr.second.ne hx), ?_, ?_, h.told, h.punctual, nofun⟩
  · rw [hchange.other owner (hr.second.ne hr.first.owns.1)]
    exact h.ownerView
  · rw [hchange.other candidate hr.ne]
    exact h.candidateView
  · show (rings' newcomer).Pointed ((s.insert candidate).insert newcomer)
    rw [hchange.self]
    exact ((hr.entrance h.fits).adopt_pointed hplaces (hme newcomer)).2

end Late

/-! ## The newcomer sent on to the candidate -/

namespace Relayed

include hr hme

theorem tell (h : Relayed s ps owner candidate newcomer rings (.telling old) ψ)
    (hchange : Changes rings old ((rings old).noted candidate) rings') :
    Relayed s ps owner candidate newcomer rings' (.done false) ψ := by
  have hbefore := h.told old rfl
  have hothers := h.others.noteFirst hr hme h.fits hbefore hchange
  obtain ⟨ps', hview⟩ := h.newcomerView
  refine ⟨h.fits, rfl, hothers.mono (fun _ => trivial) .rfl fun _ _ => rfl, ?_,
    ⟨ps', hview.congr (hchange.other newcomer (Ne.symm (hr.second.ne hbefore.1)))⟩, nofun, nofun,
    h.tells⟩
  rw [hchange.other candidate (Ne.symm (hr.first.ne hbefore.1))]
  exact h.candidateView

omit hr hme in
/-- Who is told of the newcomer was a member before. -/
theorem tells_member (h : Relayed s ps owner candidate newcomer rings φ (.telling snapshot old)) :
    old ∈ s := by
  have hbefore := h.tells snapshot old rfl
  exact (NodeSet.mem_insert.mp hbefore.1).resolve_left hbefore.2.1

theorem note (h : Relayed s ps owner candidate newcomer rings φ (.telling snapshot old))
    (hchange : Changes rings old ((rings old).noted newcomer) rings') :
    Relayed s ps owner candidate newcomer rings' φ (.answering snapshot) := by
  have hold := h.tells_member
  have huntold := h.others.mono id (iff_of_false id nofun) fun _ _ => rfl
  have htold := huntold.noteSecond hr hme h.fits (h.tells snapshot old rfl) hchange
  refine ⟨h.fits, h.committed, htold.mono id (iff_of_true rfl trivial) fun _ _ => rfl, ?_,
    h.newcomerView, h.told, h.punctual, nofun⟩
  rw [hchange.other candidate (Ne.symm (hr.first.ne hold))]
  exact h.candidateView

theorem install (h : Relayed s ps owner candidate newcomer rings φ (.answering snapshot))
    (hchange : Changes rings newcomer ((rings newcomer).adopt snapshot) rings') :
    Relayed s ps owner candidate newcomer rings' φ .done := by
  obtain ⟨ps', p, hplaces⟩ := h.newcomerView
  refine ⟨h.fits, h.committed, h.others.mono id .rfl fun x hx =>
    hchange.other x (hr.second.ne hx), ?_, ⟨ps', ?_⟩, h.told, h.punctual, nofun⟩
  · rw [hchange.other candidate hr.ne]
    exact h.candidateView
  · show (rings' newcomer).Pointed ((s.insert candidate).insert newcomer)
    rw [hchange.self]
    exact ((hr.entrance h.fits).adopt_pointed hplaces (hme newcomer)).2

end Relayed

/-! ## All together -/

namespace Encounter

include hr

theorem fail (h : Encounter s ps owner candidate newcomer rings m φ ψ)
    (hcommitted : φ.committed = false) (hsame : ∀ x, x ≠ candidate → rings' x = rings x) :
    Encounter s ps owner candidate newcomer rings' m .failed ψ := by
  cases h with
  | lone h => exact .lone (h.fail hr hcommitted hsame)
  | early h => exact .void h.newcomerView.ne_asking
  | clash h =>
    obtain ⟨p, hp, -⟩ := h.newcomerView
    exact .void hp.ne_asking
  | late h => exact .void h.newcomerView.ne_asking
  | relayed h =>
    obtain ⟨_, hview⟩ := h.newcomerView
    exact .void hview.ne_asking
  | void h => exact .void h

include hme

theorem offer (h : Encounter s ps owner candidate newcomer rings m .searching ψ) {n : Node}
    (hn : n.ring = rings owner) :
    Encounter s ps owner candidate newcomer rings m
      (.offered (Protocol.offer candidate n) n.ring.superpeers.isEmpty) ψ := by
  cases h with
  | lone h => exact .lone (h.offer hr hme hn)
  | early h =>
    by_cases hfits : (s.insert newcomer).Owns candidate owner
    · exact .early (h.offer hr hme hfits hn)
    · exact .clash (h.misled hr hme hfits hn)
  | clash h =>
    obtain ⟨p, hp, -⟩ := h.candidateView
    cases hp
  | late h => cases h.committed
  | relayed h => cases h.committed

theorem accept (h : Encounter s ps owner candidate newcomer rings m (.offered snapshot alone) ψ)
    (hchange : Changes rings candidate ((rings candidate).adopt snapshot) rings') :
    Encounter s ps owner candidate newcomer rings' m (.accepted snapshot alone) ψ := by
  cases h with
  | lone h => exact .lone (h.accept hr hme hchange)
  | early h => exact .early (h.accept hr hme hchange)
  | clash h => exact .clash (h.accept hr hme hchange)
  | late h => cases h.committed
  | relayed h => cases h.committed

theorem commit (h : Encounter s ps owner candidate newcomer rings m (.accepted snapshot alone) ψ)
    {n : Node} (hn : n.ring = rings owner)
    (hchange : Changes rings owner
      (Node.splitRing (rings owner) snapshot.peers candidate alone) rings') :
    Encounter s ps owner candidate newcomer rings' m
      (.split (if alone then none else (rings owner).predecessor)) ψ := by
  cases h with
  | lone h => exact .lone (h.commit hr hme hn hchange)
  | early h => exact .early (h.commit hr hme hn hchange)
  | clash h => exact .clash (h.commit hr hme hchange)
  | late h => cases h.committed
  | relayed h => cases h.committed

/-- The superpeer before the candidate is told. -/
theorem tell (h : Encounter s ps owner candidate newcomer rings m (.telling old) ψ) {b : Bool}
    (hb : b = true ↔ ψ ≠ .done ∧ old = newcomer)
    (hchange : old ∈ s ∨ old = newcomer →
      Changes rings old ((rings old).noted candidate) rings') :
    Encounter s ps owner candidate newcomer rings' m (.done b) ψ := by
  have hpunctual (hold : old ∈ s) : b = false := by
    rw [← Bool.not_eq_true, hb]
    exact fun hlate => hr.second.ne hold hlate.2
  cases h with
  | lone h =>
    have hold := (h.told old rfl).1
    rw [hpunctual hold]
    exact .lone (h.tell hr hme (hchange (.inl hold)))
  | early h =>
    have hold := h.told old rfl
    exact .early (h.tell hr hme (by rw [hb, and_iff_left hold]) (hchange (.inr hold)))
  | clash h => exact .clash (h.tell hr (hchange (.inr (h.told old rfl))))
  | late h =>
    have hold := (h.told old rfl).1
    rw [hpunctual hold]
    exact .late (h.tell hr hme (hchange (.inl hold)))
  | relayed h =>
    have hold := (h.told old rfl).1
    rw [hpunctual hold]
    exact .relayed (h.tell hr hme (hchange (.inl hold)))

omit hr hme in
theorem lone_of_asking (h : Encounter s ps owner candidate newcomer rings m φ .asking) :
    Lone s ps owner candidate newcomer rings φ := by
  cases h with
  | lone h => exact h
  | early h => exact absurd rfl h.newcomerView.ne_asking
  | clash h =>
    obtain ⟨p, hp, -⟩ := h.newcomerView
    exact absurd rfl hp.ne_asking
  | late h => exact absurd rfl h.newcomerView.ne_asking
  | relayed h =>
    obtain ⟨_, hview⟩ := h.newcomerView
    exact absurd rfl hview.ne_asking
  | void h => exact absurd rfl h

/-- The owner welcomes the newcomer if it owns its position in the ring it sees. -/
theorem welcome (h : Encounter s ps owner candidate newcomer rings m φ .asking) {n : Node}
    (hn : n.ring = rings owner) (hown : (φ.ring s candidate).Owns newcomer owner) :
    ∃ n' snapshot, n.welcome newcomer true = (.superpeer snapshot n.ring.predecessor, n') ∧
      n'.me = owner ∧ n'.role = n.role ∧ ∀ rings', Changes rings owner n'.ring rings' →
        Encounter s ps owner candidate newcomer rings' φ.moment φ
          (.welcomed snapshot n.ring.predecessor) := by
  have hlone := h.lone_of_asking
  have hnme : n.me = owner := (congrArg Ring.me hn).trans (hme owner)
  have he : Entrance (φ.ring s candidate) owner newcomer := by
    cases hc : φ.committed with
    | false =>
      rw [PromotionPhase.ring_of_not_committed hc]
      exact hr.second
    | true =>
      rw [PromotionPhase.ring_of_committed hc] at hown ⊢
      exact hr.entrance hown
  have hmem : n.me ∈ φ.ring s candidate := hnme.symm ▸ he.owns.1
  obtain ⟨n', p, hwelcome, hplaces, hme', hrole, hformed⟩ := Node.welcome_superpeer
    (hn ▸ hlone.ownerView) (hnme.symm ▸ he.owns) he.fresh (he.admits hmem)
  rw [hnme] at hplaces hme'
  refine ⟨n', _, hwelcome, hme', hrole, fun rings' hchange => ?_⟩
  rw [hn]
  cases φ with
  | searching => exact .early (hlone.early hme ⟨p, hplaces⟩ hformed hchange)
  | failed =>
    refine .void ?_
    cases (rings owner).predecessor <;> exact nofun
  | offered => exact .clash (hlone.clash hr hme rfl ⟨p, hplaces⟩ hformed hme' hchange)
  | accepted => exact .clash (hlone.clash hr hme rfl ⟨p, hplaces⟩ hformed hme' hchange)
  | telling => exact .late (hlone.late hr hme rfl hown ⟨p, hplaces⟩ hformed hchange)
  | done => exact .late (hlone.late hr hme rfl hown ⟨p, hplaces⟩ hformed hchange)

/-- After the split the candidate welcomes the newcomer if it has taken over its position. -/
theorem relay (h : Encounter s ps owner candidate newcomer rings m φ .asking) {n : Node}
    (hn : n.ring = rings candidate) (hcommitted : φ.committed = true)
    (hown : (s.insert candidate).Owns newcomer candidate) :
    ∃ n' snapshot, n.welcome newcomer true = (.superpeer snapshot n.ring.predecessor, n') ∧
      n'.me = candidate ∧ n'.role = n.role ∧ ∀ rings', Changes rings candidate n'.ring rings' →
        Encounter s ps owner candidate newcomer rings' (some .relayed) φ
          (.welcomed snapshot n.ring.predecessor) := by
  have hlone := h.lone_of_asking
  have hnme : n.me = candidate := (congrArg Ring.me hn).trans (hme candidate)
  obtain ⟨ps', hview⟩ := hlone.candidateView.sees hcommitted
  have he := hr.entrance hown
  obtain ⟨n', p, hwelcome, hplaces, hme', hrole, hformed⟩ := Node.welcome_superpeer (hn ▸ hview)
    (hnme.symm ▸ he.owns) he.fresh (he.admits (hnme.symm ▸ he.owns.1))
  rw [hnme] at hplaces hme'
  refine ⟨n', _, hwelcome, hme', hrole, fun rings' hchange => ?_⟩
  rw [hn]
  exact .relayed
    (hlone.relayed hr hme hcommitted hown ⟨ps', p, hplaces⟩ hformed.toPointed hchange)

omit hr hme in
/-- Who is told of the newcomer, if the promotion does not fail. -/
theorem tells_mem (h : Encounter s ps owner candidate newcomer rings m φ (.telling snapshot old))
    (hφ : φ ≠ .failed) : old ∈ s ∨ φ.committed = true ∧ old = candidate := by
  cases h with
  | early h => exact .inl (h.tells snapshot old rfl).1
  | clash h => exact .inl (h.tells snapshot old rfl).1
  | late h => exact .inr ⟨h.committed, h.tells snapshot old rfl⟩
  | relayed h => exact .inl h.tells_member
  | void => exact absurd rfl hφ

/-- The superpeer before the newcomer is told. -/
theorem note (h : Encounter s ps owner candidate newcomer rings m φ (.telling snapshot old))
    (hchange : old ∈ s ∨ φ.committed = true ∧ old = candidate →
      Changes rings old ((rings old).noted newcomer) rings') :
    Encounter s ps owner candidate newcomer rings' m φ (.answering snapshot) := by
  by_cases hφ : φ = .failed
  · subst hφ
    cases h with
    | late h => cases h.committed
    | relayed h => cases h.committed
    | early => exact .void nofun
    | clash => exact .void nofun
    | void => exact .void nofun
  have hchange := hchange (h.tells_mem hφ)
  cases h with
  | early h => exact .early (h.note hr hme hchange)
  | clash h => exact .clash (h.note hr hchange)
  | late h => exact .late (h.note hr hme hchange)
  | relayed h => exact .relayed (h.note hr hme hchange)
  | void => exact absurd rfl hφ

theorem install (h : Encounter s ps owner candidate newcomer rings m φ (.answering snapshot))
    (hchange : Changes rings newcomer ((rings newcomer).adopt snapshot) rings') :
    Encounter s ps owner candidate newcomer rings' m φ .done := by
  cases h with
  | early h => exact .early (h.install hr hme hchange)
  | clash h => exact .clash (h.install hr hme hchange)
  | late h => exact .late (h.install hr hme hchange)
  | relayed h => exact .relayed (h.install hr hme hchange)
  | void => exact .void nofun

end Encounter

/-! ## When both have taken effect -/

/-- The newcomer is welcomed at a moment at which all can still be told of one another. -/
def Moment.Fits (s : NodeSet) (owner candidate newcomer : NodeId) : Moment → Prop
  | .early => (s.insert newcomer).Owns candidate owner
  | .between => False
  | .late | .relayed => True

/-- Everyone sees the candidate and the newcomer, but a newcomer that was overtaken sees the ring
without the candidate. -/
structure Reconciled (s : NodeSet) (owner candidate newcomer : NodeId) (overtaken : Bool)
    (rings : NodeId → Ring) : Prop where
  members : ∀ x ∈ s.insert candidate, (rings x).Pointed ((s.insert candidate).insert newcomer)
  newcomerView : (rings newcomer).Pointed
    (if overtaken then s.insert newcomer else (s.insert candidate).insert newcomer)
  fits : overtaken = true → (s.insert newcomer).Owns candidate owner

include hr hme

theorem Early.reconciled {b : Bool}
    (h : Early s ps owner candidate newcomer rings (.done b) .done) :
    Reconciled s owner candidate newcomer b rings := by
  have hfits := h.fits nofun
  have hothers : Around s ps owner newcomer True True rings :=
    h.others.mono id (fun _ => rfl) fun _ _ _ => rfl
  refine ⟨fun x hx => ?_, ?_, fun _ => hfits⟩
  · rw [NodeSet.insert_comm]
    rcases NodeSet.mem_insert.mp hx with rfl | hx
    · exact (h.candidateView.sees rfl).pointed
    by_cases hne : x = owner
    · rw [hne]
      exact h.ownerView.toPointed
    · refine (hr.symm.formed_elsewhere hfits (hothers.formed hr.second hme hx hne) ?_ ?_).toPointed
      all_goals rw [hme]
      · exact hx
      · exact hne
  · have hview : (rings newcomer).Pointed
        (PromotionPhase.heard (s.insert newcomer) candidate (.done b)) := h.newcomerView
    cases b with
    | true => exact hview
    | false =>
      rw [if_neg Bool.false_ne_true, NodeSet.insert_comm]
      exact hview

theorem Late.reconciled (h : Late s ps owner candidate newcomer rings (.done false) .done) :
    Reconciled s owner candidate newcomer false rings := by
  have hothers : Around s ps owner candidate True True rings :=
    h.others.mono id (fun _ => rfl) fun _ _ _ => rfl
  refine ⟨fun x hx => ?_, h.newcomerView, nofun⟩
  rcases NodeSet.mem_insert.mp hx with rfl | hx
  · exact h.candidateView
  by_cases hne : x = owner
  · rw [hne]
    exact h.ownerView.toPointed
  · refine (hr.formed_elsewhere h.fits (hothers.formed hr.first hme hx hne) ?_ ?_).toPointed
    all_goals rw [hme]
    · exact hx
    · exact hne

theorem Relayed.reconciled (h : Relayed s ps owner candidate newcomer rings (.done false) .done) :
    Reconciled s owner candidate newcomer false rings := by
  have hothers : AroundBoth s ps owner candidate newcomer True True rings :=
    h.others.mono (fun _ => rfl) (iff_of_true trivial rfl) fun _ _ => rfl
  obtain ⟨_, hview⟩ := h.newcomerView
  refine ⟨fun x hx => ?_, hview, nofun⟩
  rcases NodeSet.mem_insert.mp hx with rfl | hx
  · exact h.candidateView
  · exact (hothers.formed hr hme h.fits hx).toPointed

/-- A newcomer that was overtaken has the owner for its successor. -/
theorem Reconciled.not_pointed (h : Reconciled s owner candidate newcomer true rings) :
    ¬ (rings newcomer).Pointed ((s.insert candidate).insert newcomer) := by
  intro hpointed
  have howner : owner ∈ s := hr.first.owns.1
  have hbefore := NodeSet.owner_before hr.second.owns hr.second.fresh
  have hafter := hbefore.after (NodeSet.mem_insert.mpr (.inr howner))
  have hafter' := (NodeSet.before_newcomer (h.fits rfl) hr.symm.fresh hbefore).insert_self.after
    (NodeSet.mem_insert.mpr (.inl rfl))
  rw [NodeSet.insert_comm] at hpointed
  have hsuccessor := (h.newcomerView.successor owner).mpr ((hme newcomer).symm ▸ hafter)
  have hsuccessor' := (hpointed.successor candidate).mpr ((hme newcomer).symm ▸ hafter')
  rw [hsuccessor] at hsuccessor'
  exact hr.first.ne howner (Option.some.inj hsuccessor')

/-- Two of the three cover one position. -/
theorem Clash.overlap {b : Bool} {moment : Moment}
    (h : Clash s owner candidate newcomer rings moment (.done b) .done) :
    ¬ moment.Fits s owner candidate newcomer ∧
      ∃ id, (rings candidate).Covers id ∧
        ((rings newcomer).Covers id ∨ (rings owner).Covers id) := by
  have howner : owner ∈ s := hr.first.owns.1
  obtain ⟨p, hp, hcase⟩ := h.candidateView
  obtain ⟨q, hq, hbefore⟩ := h.newcomerView
  have hpredecessor : (rings owner).predecessor = some candidate := h.ownerView
  have hp : (rings candidate).predecessor = some p := hp
  have hq : (rings newcomer).predecessor = some q := hq
  have hself {x z : NodeId} (hz : (rings x).predecessor = some z) (hne : z ≠ x) :
      (rings x).Covers x := by
    have hcovers := Ring.covers_me hz (by rw [hme]; exact hne)
    rwa [hme] at hcovers
  have howns {x z id : NodeId} {t : NodeSet} (hz : (rings x).predecessor = some z)
      (hbefore : t.Before x z) (hown : t.Owns id x) : (rings x).Covers id :=
    Ring.covers_of_owns hz (by rw [hme]; exact hbefore) (by rw [hme]; exact hown)
  rcases hcase with ⟨rfl, hcase⟩ | ⟨rfl, rfl, hnot⟩
  · refine ⟨id, ?_⟩
    rcases hr.owns_or with hown | hown
    · exact ⟨newcomer, howns hp hcase hown, .inl (hself hq hbefore.2.1)⟩
    · exact ⟨candidate, hself hp hcase.2.1, .inl (howns hq hbefore (hr.owns_swap hown))⟩
  · -- The candidate comes before its predecessor, and goes round almost the whole ring.
    refine ⟨hnot, owner, ⟨p, hp, ?_⟩, .inr (hself hpredecessor (Ne.symm (hr.first.ne howner)))⟩
    have hown := hr.symm.owns_or.resolve_right hnot
    have hpass := clockwise_add_of_le (hown.2 owner (NodeSet.mem_insert.mpr (.inr howner)))
    have hpos := clockwise_pos (Ne.symm (hr.second.ne howner))
    have hround := clockwise_add_swap hr.ne
    have hround' := clockwise_add_swap (hr.first.ne howner)
    rw [hme]
    omega

/-- What becomes of it is decided when the newcomer is welcomed. -/
theorem Encounter.outcome {b : Bool}
    (h : Encounter s ps owner candidate newcomer rings m (.done b) .done) :
    ∃ moment, m = some moment ∧
      (moment.Fits s owner candidate newcomer ∧ Reconciled s owner candidate newcomer b rings ∨
        ¬ moment.Fits s owner candidate newcomer ∧ ∃ id, (rings candidate).Covers id ∧
          ((rings newcomer).Covers id ∨ (rings owner).Covers id)) := by
  cases h with
  | early h => exact ⟨.early, rfl, .inl ⟨h.fits nofun, h.reconciled hr hme⟩⟩
  | @clash moment _ _ h => exact ⟨moment, rfl, .inr (h.overlap hr hme)⟩
  | late h =>
    obtain rfl : b = false := by simpa using h.punctual
    exact ⟨.late, rfl, .inl ⟨trivial, h.reconciled hr hme⟩⟩
  | relayed h =>
    obtain rfl : b = false := by simpa using h.punctual
    exact ⟨.relayed, rfl, .inl ⟨trivial, h.reconciled hr hme⟩⟩

end

end ChunkDirectory
