import ChunkDirectory.Proofs.Concurrency.Encounter
import ChunkDirectory.Proofs.Concurrency.Promotion

/-!
# A promotion and an admission on stage

What everyone is and sees while a promotion and an admission are under way, and what the trace says
of the moment at which the newcomer was welcomed (`Machine.Scene`). A quiet segment changes none of
this (`Machine.Scene.still`). A segment that changes a view is followed by the next phase.
-/

namespace ChunkDirectory

open Protocol

/-! ## What the trace says -/

/-- The segment in which `old` is told of its new successor. -/
def Segment.IsNotice (g : Segment) (sender new old : NodeId) : Prop :=
  g.node = old ∧ g.cue = .message sender (.notifyAboutNewSuccessor new)

/-- The newcomer was told of the candidate when it had not yet taken its place. -/
def Overtaken (owner candidate newcomer : NodeId) (trace : List Segment) : Prop :=
  ∃ early g late, trace = early ++ g :: late ∧ g.IsNotice owner candidate newcomer ∧
    ∀ g ∈ early, ¬ g.IsInstallation newcomer

/-- The moment in a promotion at which these segments end. -/
def Moment.At (owner candidate : NodeId) (trace : List Segment) : Moment → Prop
  | .early => (∀ g ∈ trace, ¬ g.IsOffer owner candidate) ∧ ∀ g ∈ trace, ¬ g.IsCommit owner
  | .between => (∃ g ∈ trace, g.IsOffer owner candidate) ∧ ∀ g ∈ trace, ¬ g.IsCommit owner
  | .late | .relayed => ∃ g ∈ trace, g.IsCommit owner

/-- Who welcomes the newcomer. -/
def Moment.host (owner candidate : NodeId) : Moment → NodeId
  | .relayed => candidate
  | _ => owner

/-- What has happened in a promotion by a phase. -/
def PromotionPhase.Past (owner candidate : NodeId) (trace : List Segment) : PromotionPhase → Prop
  | .searching => Moment.early.At owner candidate trace
  | .failed => ∀ g ∈ trace, ¬ g.IsCommit owner
  | .offered .. | .accepted .. => Moment.between.At owner candidate trace
  | .telling _ | .done _ => Moment.late.At owner candidate trace

variable {s ps : NodeSet} {owner candidate newcomer old : NodeId} {trace : List Segment}
  {g : Segment} {m m' : Option Moment} {φ φ' : PromotionPhase} {ψ ψ' : AdmissionPhase}

theorem forall_mem_append_singleton {P : Segment → Prop} (h : ∀ g ∈ trace, P g) (hg : P g) :
    ∀ g' ∈ trace ++ [g], P g' := by
  intro g' hg'
  rcases List.mem_append.mp hg' with hg' | hg'
  · exact h g' hg'
  · exact List.mem_singleton.mp hg' ▸ hg

/-- A phase goes on with a segment that does not end it. -/
theorem PromotionPhase.Past.append (h : φ.Past owner candidate trace)
    (hoffer : φ = .searching → ¬ g.IsOffer owner candidate)
    (hcommit : φ.committed = false → ¬ g.IsCommit owner) :
    φ.Past owner candidate (trace ++ [g]) := by
  have hkept {P : Segment → Prop} (h : ∃ g ∈ trace, P g) : ∃ g' ∈ trace ++ [g], P g' := by
    obtain ⟨g', hg', hP⟩ := h
    exact ⟨g', List.mem_append_left _ hg', hP⟩
  cases φ with
  | searching =>
    exact ⟨forall_mem_append_singleton h.1 (hoffer rfl),
      forall_mem_append_singleton h.2 (hcommit rfl)⟩
  | failed => exact forall_mem_append_singleton h (hcommit rfl)
  | offered => exact ⟨hkept h.1, forall_mem_append_singleton h.2 (hcommit rfl)⟩
  | accepted => exact ⟨hkept h.1, forall_mem_append_singleton h.2 (hcommit rfl)⟩
  | telling => exact hkept h
  | done => exact hkept h

/-- A promotion that has not committed may have failed. -/
theorem PromotionPhase.Past.uncommitted (h : φ.Past owner candidate trace)
    (hcommitted : φ.committed = false) : ∀ g ∈ trace, ¬ g.IsCommit owner := by
  cases φ with
  | searching => exact h.2
  | failed => exact h
  | offered => exact h.2
  | accepted => exact h.2
  | telling => cases hcommitted
  | done => cases hcommitted

/-- Where in its past the promotion is when the owner welcomes the newcomer. -/
theorem PromotionPhase.Past.moment (h : φ.Past owner candidate trace) {moment : Moment}
    (hφ : φ.moment = some moment) :
    moment.host owner candidate = owner ∧ moment.At owner candidate trace := by
  cases φ with
  | failed => cases hφ
  | _ =>
    cases hφ
    exact ⟨rfl, h⟩

/-- The owner has split its range if the trace says so. -/
theorem PromotionPhase.Past.committed_iff (h : φ.Past owner candidate trace) :
    φ.committed = true ↔ ∃ g ∈ trace, g.IsCommit owner := by
  cases hφ : φ.committed with
  | false =>
    refine iff_of_false Bool.false_ne_true ?_
    rintro ⟨g, hg, hcommit⟩
    exact h.uncommitted hφ g hg hcommit
  | true =>
    refine iff_of_true rfl ?_
    cases φ <;> first | exact h | cases hφ

/-- What the trace says of both. -/
structure Recorded (owner candidate newcomer : NodeId) (m : Option Moment) (φ : PromotionPhase)
    (ψ : AdmissionPhase) (trace : List Segment) : Prop where
  past : φ.Past owner candidate trace
  untold : φ.ended = false → ∀ g ∈ trace, ¬ g.IsNotice owner candidate newcomer
  overtaken : φ.ended = true → (φ = .done true ↔ Overtaken owner candidate newcomer trace)
  installed : ψ = .done ↔ ∃ g ∈ trace, g.IsInstallation newcomer
  welcomed : ∀ moment, m = some moment → ∃ early g late, trace = early ++ g :: late ∧
    g.IsWelcome (moment.host owner candidate) newcomer ∧ moment.At owner candidate early

/-- Only when it is told can the newcomer be overtaken. -/
theorem overtaken_append (hg : ¬ g.IsNotice owner candidate newcomer) :
    Overtaken owner candidate newcomer (trace ++ [g]) ↔
      Overtaken owner candidate newcomer trace := by
  constructor
  · rintro ⟨early, word, late, heq, hword, hearly⟩
    rcases List.eq_nil_or_concat late with rfl | ⟨late, last, rfl⟩
    · obtain ⟨-, rfl⟩ := List.append_singleton_inj.mp heq
      exact absurd hword hg
    · have heq : trace ++ [g] = (early ++ word :: late) ++ [last] := by simpa using heq
      obtain ⟨rfl, -⟩ := List.append_singleton_inj.mp heq
      exact ⟨early, word, late, rfl, hword, hearly⟩
  · rintro ⟨early, word, late, rfl, hword, hearly⟩
    exact ⟨early, word, late ++ [g], by simp, hword, hearly⟩

theorem exists_mem_append_singleton {P : Segment → Prop} :
    (∃ g' ∈ trace ++ [g], P g') ↔ (∃ g' ∈ trace, P g') ∨ P g := by
  simp [or_and_right, exists_or]

/-- One more segment in which the newcomer is not welcomed, and not told. -/
theorem Recorded.append (h : Recorded owner candidate newcomer m φ ψ trace)
    (hpast : φ'.Past owner candidate (trace ++ [g]))
    (hover : φ' = φ ∨ φ.ended = false ∧ φ' ≠ .done true)
    (hword : ¬ g.IsNotice owner candidate newcomer)
    (hinstall : ψ' = .done ↔ ψ = .done ∨ g.IsInstallation newcomer) :
    Recorded owner candidate newcomer m φ' ψ' (trace ++ [g]) := by
  refine ⟨hpast, fun hφ' => ?_, fun hφ' => ?_, ?_, fun moment hm => ?_⟩
  · have hφ : φ.ended = false := by
      rcases hover with rfl | ⟨hφ, -⟩
      · exact hφ'
      · exact hφ
    exact forall_mem_append_singleton (h.untold hφ) hword
  · rw [overtaken_append hword]
    rcases hover with rfl | ⟨hφ, hne⟩
    · exact h.overtaken hφ'
    · refine iff_of_false hne ?_
      rintro ⟨early, word, late, rfl, hword', -⟩
      exact h.untold hφ word (by simp) hword'
  · rw [hinstall, h.installed, exists_mem_append_singleton]
  · obtain ⟨early, welcome, late, rfl, hwelcome, hearly⟩ := h.welcomed moment hm
    exact ⟨early, welcome, late ++ [g], by simp, hwelcome, hearly⟩

/-- The superpeer before the candidate is told. -/
theorem Recorded.tell (h : Recorded owner candidate newcomer m (.telling old) ψ trace)
    (hg : g.IsNotice owner candidate old) {b : Bool}
    (hb : b = true ↔ ψ ≠ .done ∧ old = newcomer) :
    Recorded owner candidate newcomer m (.done b) ψ (trace ++ [g]) := by
  have hlate : Moment.late.At owner candidate trace := h.past
  refine ⟨exists_mem_append_singleton.mpr (.inl hlate), nofun, fun _ => ?_, ?_, fun moment hm => ?_⟩
  · rw [PromotionPhase.done.injEq, hb, ne_eq, h.installed]
    constructor
    · rintro ⟨hnot, rfl⟩
      exact ⟨trace, g, [], rfl, hg, fun g' hg' hinstall => hnot ⟨g', hg', hinstall⟩⟩
    · rintro ⟨early, word, late, heq, hword, hearly⟩
      rcases List.eq_nil_or_concat late with rfl | ⟨late, last, rfl⟩
      · obtain ⟨rfl, rfl⟩ := List.append_singleton_inj.mp heq
        exact ⟨fun ⟨g', hg', hinstall⟩ => hearly g' hg' hinstall, hg.1.symm.trans hword.1⟩
      · have heq : trace ++ [g] = (early ++ word :: late) ++ [last] := by simpa using heq
        obtain ⟨rfl, -⟩ := List.append_singleton_inj.mp heq
        exact absurd hword (h.untold rfl word (by simp))
  · rw [h.installed, exists_mem_append_singleton, or_iff_left]
    rintro ⟨-, snapshot, hcue⟩
    rw [hg.2] at hcue
    cases hcue
  · obtain ⟨early, welcome, late, rfl, hwelcome, hearly⟩ := h.welcomed moment hm
    exact ⟨early, welcome, late ++ [g], by simp, hwelcome, hearly⟩

/-- The newcomer is welcomed. -/
theorem Recorded.welcome (h : Recorded owner candidate newcomer m φ .asking trace) {host : NodeId}
    (hg : g.IsWelcome host newcomer)
    (hm' : ∀ moment, m' = some moment →
      moment.host owner candidate = host ∧ moment.At owner candidate trace)
    (hpast : φ.Past owner candidate (trace ++ [g])) (hψ : ψ ≠ .done) :
    Recorded owner candidate newcomer m' φ ψ (trace ++ [g]) := by
  have hword : ¬ g.IsNotice owner candidate newcomer := by
    rintro ⟨-, hcue⟩
    rw [hg.2] at hcue
    cases hcue
  have hinstall : ¬ g.IsInstallation newcomer := by
    rintro ⟨-, snapshot, hcue⟩
    rw [hg.2] at hcue
    cases hcue
  have hnext := h.append hpast (.inl rfl) hword (iff_of_false hψ fun h => h.elim nofun hinstall)
  refine ⟨hnext.past, hnext.untold, hnext.overtaken, hnext.installed, fun moment hm => ?_⟩
  obtain ⟨rfl, hat⟩ := hm' moment hm
  exact ⟨trace, g, [], rfl, hg, hat⟩

namespace Segment

theorem not_isCommit_of_isPlain (h : g.cue.isPlain = true) : ¬ g.IsCommit owner := by
  rintro ⟨-, hcue⟩
  rw [hcue] at h
  cases h

theorem not_isInstallation_of_isPlain (h : g.cue.isPlain = true) :
    ¬ g.IsInstallation newcomer := by
  rintro ⟨-, snapshot, hcue⟩
  rw [hcue] at h
  cases h

theorem not_isNotice_of_isSilent (h : g.cue.isSilent = true) :
    ¬ g.IsNotice owner candidate newcomer := by
  rintro ⟨-, hcue⟩
  rw [hcue] at h
  cases h

end Segment

/-- One more segment in which nothing is decided about the newcomer. -/
theorem Recorded.plain (h : Recorded owner candidate newcomer m φ ψ trace)
    (hplain : g.cue.isPlain = true) (hword : ¬ g.IsNotice owner candidate newcomer)
    (hover : φ' = φ ∨ φ.ended = false ∧ φ' ≠ .done true)
    (hpast : φ'.Past owner candidate (trace ++ [g])) :
    Recorded owner candidate newcomer m φ' ψ (trace ++ [g]) :=
  h.append hpast hover hword (or_iff_left (Segment.not_isInstallation_of_isPlain hplain)).symm

/-- The promotion remains in its phase in a segment in which nothing is decided. -/
theorem PromotionPhase.Past.plain (h : φ.Past owner candidate trace)
    (hplain : g.cue.isPlain = true) (hoffer : φ = .searching → ¬ g.IsOffer owner candidate) :
    φ.Past owner candidate (trace ++ [g]) :=
  h.append hoffer fun _ => Segment.not_isCommit_of_isPlain hplain

/-- Whether the candidate is a superpeer. -/
def PromotionPhase.promoted : PromotionPhase → Bool
  | .accepted .. | .telling _ | .done _ => true
  | _ => false

namespace Machine

variable {nodes : NodeId → Node} {σ : Machine} {t : Thread} {operation : Option Thread}
  {snapshot : Snapshot} {alone : Bool} {S : NodeSet}

/-- Everyone's view of the ring. -/
def views (nodes : NodeId → Node) (x : NodeId) : Ring := (nodes x).ring

/-- What everyone is and sees, and what has happened. -/
structure Scene (s ps : NodeSet) (owner candidate newcomer : NodeId) (m : Option Moment)
    (φ : PromotionPhase) (ψ : AdmissionPhase) (nodes : NodeId → Node) (trace : List Segment) :
    Prop where
  me : ∀ x, (nodes x).me = x
  member : ∀ x, x ∈ s ∨ x = newcomer → (nodes x).isSuperpeer = true
  promoted : (nodes candidate).isSuperpeer = φ.promoted
  sight : Encounter s ps owner candidate newcomer (views nodes) m φ ψ
  record : Recorded owner candidate newcomer m φ ψ trace

/-- The members of the ring are superpeers. -/
theorem Scene.isSuperpeer (h : Scene s ps owner candidate newcomer m φ ψ nodes trace) {x : NodeId}
    (hx : x ∈ φ.ring s candidate) : (nodes x).isSuperpeer = true := by
  rcases PromotionPhase.mem_ring_iff.mp hx with hx | ⟨hcommitted, rfl⟩
  · exact h.member x (.inl hx)
  · rw [h.promoted]
    cases φ <;> first | rfl | cases hcommitted

theorem changes_advance : Changes (views σ.nodes) t.node (t.task (σ.nodes t.node)).state.ring
    (views (σ.advance t).nodes) :=
  ⟨congrArg Node.ring nodes_advance_self, fun _ hy => congrArg Node.ring (nodes_advance_of_ne hy)⟩

/-- The node that goes on changes its view, and the candidate may change its role. -/
theorem Scene.advance (h : Scene s ps owner candidate newcomer m φ ψ σ.nodes σ.trace)
    (hr : Rivals s owner candidate newcomer)
    (hme : (t.task (σ.nodes t.node)).state.me = t.node)
    (hrole : t.node ≠ candidate →
      (t.task (σ.nodes t.node)).state.isSuperpeer = (σ.nodes t.node).isSuperpeer)
    (hpromoted : ((σ.advance t).nodes candidate).isSuperpeer = φ'.promoted)
    (hsight : Encounter s ps owner candidate newcomer (views (σ.advance t).nodes) m' φ' ψ')
    (hrecord : Recorded owner candidate newcomer m' φ' ψ' (σ.trace ++ [σ.segment t])) :
    Scene s ps owner candidate newcomer m' φ' ψ' (σ.advance t).nodes (σ.advance t).trace := by
  refine ⟨forall_advance (P := fun x n => n.me = x) h.me fun _ => hme, fun x hx => ?_, hpromoted,
    hsight, hrecord⟩
  by_cases hnode : x = t.node
  · subst hnode
    rw [nodes_advance_self, hrole ?_]
    · exact h.member _ hx
    · rcases hx with hx | hx
      · exact hr.first.ne hx
      · exact hx ▸ Ne.symm hr.ne
  · rw [nodes_advance_of_ne hnode]
    exact h.member x hx

/-- The node that goes on changes its view, and not its role. -/
theorem Scene.reshape (h : Scene s ps owner candidate newcomer m φ ψ σ.nodes σ.trace)
    (hr : Rivals s owner candidate newcomer)
    (hme : (t.task (σ.nodes t.node)).state.me = t.node)
    (hrole : (t.task (σ.nodes t.node)).state.isSuperpeer = (σ.nodes t.node).isSuperpeer)
    (hpromoted : φ'.promoted = φ.promoted)
    (hsight : Encounter s ps owner candidate newcomer (views (σ.advance t).nodes) m' φ' ψ')
    (hrecord : Recorded owner candidate newcomer m' φ' ψ' (σ.trace ++ [σ.segment t])) :
    Scene s ps owner candidate newcomer m' φ' ψ' (σ.advance t).nodes (σ.advance t).trace := by
  refine h.advance hr hme (fun _ => hrole) ?_ hsight hrecord
  by_cases hnode : candidate = t.node
  · rw [hnode, nodes_advance_self, hrole, ← hnode, h.promoted, hpromoted]
  · rw [nodes_advance_of_ne hnode, h.promoted, hpromoted]

/-- Nobody changes its view or role. -/
theorem Scene.quiet (h : Scene s ps owner candidate newcomer m φ ψ σ.nodes σ.trace)
    (hquiet : σ.Quiet S t) (hpromoted : φ'.promoted = φ.promoted)
    (hsight : Encounter s ps owner candidate newcomer (views σ.nodes) m φ ψ →
      Encounter s ps owner candidate newcomer (views σ.nodes) m φ' ψ')
    (hrecord : Recorded owner candidate newcomer m φ' ψ' (σ.trace ++ [σ.segment t])) :
    Scene s ps owner candidate newcomer m φ' ψ' (σ.advance t).nodes (σ.advance t).trace := by
  have hviews : views (σ.advance t).nodes = views σ.nodes :=
    funext fun x => (hquiet.evolves x).ring
  refine ⟨fun x => ?_, fun x hx => ?_, ?_, ?_, hrecord⟩
  · rw [Node.me, (hquiet.evolves x).ring]
    exact h.me x
  · rw [(hquiet.evolves x).role]
    exact h.member x hx
  · rw [(hquiet.evolves candidate).role, hpromoted]
    exact h.promoted
  · rw [hviews]
    exact hsight h.sight

/-- Nothing changes that matters. -/
theorem Scene.still (h : Scene s ps owner candidate newcomer m φ ψ σ.nodes σ.trace)
    (hquiet : σ.Quiet S t) (hword : ¬ (σ.segment t).IsNotice owner candidate newcomer)
    (hoffer : φ = .searching → ¬ (σ.segment t).IsOffer owner candidate) :
    Scene s ps owner candidate newcomer m φ ψ (σ.advance t).nodes (σ.advance t).trace :=
  h.quiet hquiet rfl id
    (h.record.plain hquiet.plain hword (.inl rfl) (h.record.past.plain hquiet.plain hoffer))

/-! ## Who makes an offer -/

/-- After an offer the message is on its way. -/
theorem next_of_isOffer (h : (σ.segment t).IsOffer owner candidate) (x : Oracle) :
    ∃ sender snapshot replacement callers, σ.next t x =
      .inr (.arrival sender candidate (.promotePeer snapshot replacement) callers) := by
  obtain ⟨-, snapshot, replacement, hasked⟩ := h
  have hasked : (t.task (σ.nodes t.node)).asked =
      some (.call candidate (.promotePeer snapshot replacement)) := hasked
  rw [next]
  cases hp : t.task (σ.nodes t.node) with
  | done a n =>
    rw [hp] at hasked
    cases hasked
  | enter n r k =>
    rw [hp] at hasked
    cases hasked
  | wait n r k =>
    rw [hp] at hasked
    obtain rfl : r = .call candidate (.promotePeer snapshot replacement) := Option.some.inj hasked
    exact ⟨_, _, _, _, rfl⟩

/-- A tame task that remains tame has made no offer. -/
theorem not_isOffer_of_tame {goal : Node → Progress Message → Prop} {home : NodeId}
    {callers : List Frame} {t' : Thread} {x : Oracle} (hnext : σ.next t x = .inr t')
    (htame : t'.Tame S goal home callers) : ¬ (σ.segment t).IsOffer owner candidate := by
  intro hoffer
  obtain ⟨sender, snapshot, replacement, callers', hsent⟩ := next_of_isOffer hoffer x
  rw [hnext] at hsent
  obtain rfl := Sum.inr.inj hsent
  generalize hsent : Thread.arrival sender candidate (.promotePeer snapshot replacement)
    callers' = t' at htame
  cases htame with
  | home hcue =>
    cases hsent
    cases hcue
  | visiting hmessage =>
    cases hsent
    rcases hmessage with h | ⟨mutation, h, -⟩
    · cases h
    · cases mutation <;> cases h
  | abroad hcue =>
    cases hsent
    cases hcue

/-- A tame task that is to reply makes no offer. -/
theorem not_isOffer_of_replies {post : Message → Prop} {home : NodeId} {callers : List Frame}
    (htame : t.Tame S (Replies post) home callers) : ¬ (σ.segment t).IsOffer owner candidate := by
  rcases htame.step (σ := σ) .plain with
    ⟨hnode, -, -, reply, n, hp, -, -⟩ | ⟨-, t', hnext, htame'⟩
  · rintro ⟨-, snapshot, replacement, hasked⟩
    have hasked : (t.task (σ.nodes t.node)).asked = _ := hasked
    rw [hnode, hp] at hasked
    cases hasked
  · exact not_isOffer_of_tame hnext htame'

/-! ## Notices -/

/-- A tame task tells nobody of a successor. -/
theorem not_isNotice_of_tame {goal : Node → Progress Message → Prop} {home : NodeId}
    {callers : List Frame} (htame : t.Tame S goal home callers) :
    ¬ (σ.segment t).IsNotice owner candidate newcomer := by
  cases htame with
  | home hcue => exact Segment.not_isNotice_of_isSilent hcue
  | visiting hmessage =>
    rintro ⟨-, hcue⟩
    cases hcue
    rcases hmessage with h | ⟨mutation, h, -⟩
    · cases h
    · cases mutation <;> cases h
  | abroad hcue => exact Segment.not_isNotice_of_isSilent hcue

theorem isSuperpeer_noticeSuccessor (n : Node) (new : NodeId) :
    (n.noticeSuccessor new).isSuperpeer = n.isSuperpeer :=
  Node.isSuperpeer_congr (n.role_noticeSuccessor new)

/-- Whoever is told of a successor makes no offer. -/
theorem not_isOffer_notice {sender new : NodeId} {f : Frame} {rest : List Frame} :
    ¬ (σ.segment (notice sender new old (f :: rest))).IsOffer owner candidate := by
  intro hoffer
  obtain ⟨_, _, _, _, hsent⟩ := next_of_isOffer hoffer .plain
  rw [next_notice] at hsent
  cases hsent

/-- A superpeer that is told of a successor takes note of it. -/
theorem changes_notice {new : NodeId} {callers : List Frame}
    (hrole : (σ.nodes old).isSuperpeer = true) :
    Changes (views σ.nodes) old ((views σ.nodes old).noted new)
      (views (σ.advance (notice owner new old callers)).nodes) := by
  have hchange := changes_advance (σ := σ) (t := notice owner new old callers)
  have hring : ((σ.nodes old).noticeSuccessor new).ring = (views σ.nodes old).noted new := by
    rw [Node.noticeSuccessor_eq, if_pos hrole]
    rfl
  rw [← hring]
  exact hchange

end Machine

end ChunkDirectory
