import ChunkDirectory.Proofs.Concurrency.Joining
import ChunkDirectory.Proofs.Concurrency.Promoting
import ChunkDirectory.Proofs.Concurrency.Scene

/-!
# The tasks of a promotion and of an admission

A promotion is the operation of a machine, and a newcomer that joins is the one job it has. At each
phase it is known what is left of either task (`Machine.PromotionAt`, `Machine.AdmissionAt`).
Whichever task goes on, it goes on to its next phase or quietly within its phase
(`Machine.Scene.promotion`, `Machine.Scene.admission`), and so in a whole run (`Machine.Meeting`).
-/

namespace ChunkDirectory

open Protocol

/-- Nothing comes from outside. -/
def Move.isInner : Move → Bool
  | .request .. => false
  | _ => true

namespace Machine

variable {s ps u v : NodeSet} {owner candidate newcomer old : NodeId} {m : Option Moment}
  {φ : PromotionPhase} {ψ : AdmissionPhase} {snapshot : Snapshot} {alone : Bool} {σ : Machine}
  {t : Thread}

/-! ## The promotion -/

/-- What is left of a promotion at a phase. -/
inductive PromotionAt (owner candidate : NodeId) : PromotionPhase → Option Thread → Prop
  | searching {t : Thread} :
      t.Tame ∅ (Offers candidate) owner [] → PromotionAt owner candidate .searching (some t)
  | offered {snapshot : Snapshot} {alone : Bool} (replacement : NodeId) :
      PromotionAt owner candidate (.offered snapshot alone)
        (some (.arrival owner candidate (.promotePeer snapshot replacement)
          [awaiting owner candidate alone snapshot.peers]))
  | moving {snapshot : Snapshot} {alone : Bool} {was : Node} (replacement : NodeId)
      (moved : Bool) :
      was.isSuperpeer = false → was.me = candidate →
      PromotionAt owner candidate (.accepted snapshot alone)
        (some ⟨candidate, .answer (.handOver replacement) moved, settle was replacement moved,
          [awaiting owner candidate alone snapshot.peers]⟩)
  | moved {t : Thread} {snapshot : Snapshot} {alone : Bool} :
      t.Tame ∅ (Replies (· = .promotionResult true)) candidate
        [awaiting owner candidate alone snapshot.peers] →
      PromotionAt owner candidate (.accepted snapshot alone) (some t)
  | decided {snapshot : Snapshot} {alone : Bool} :
      PromotionAt owner candidate (.accepted snapshot alone)
        (some ⟨owner, .reply (.promotionResult true),
          (awaiting owner candidate alone snapshot.peers).resume (.ok (.promotionResult true)),
          []⟩)
  | telling {old : NodeId} {resume : Except NetError Message → Task Message} :
      (∀ reply, (resume (.ok reply)).Tame ∅ (Replies fun _ => True)) →
      PromotionAt owner candidate (.telling old)
        (some (notice owner candidate old [⟨owner, resume⟩]))
  | closing {φ : PromotionPhase} {operation : Option Thread} :
      φ = .failed ∨ (∃ b, φ = .done b) → (∀ t, operation = some t → Closes ∅ owner t) →
      PromotionAt owner candidate φ operation

/-- The promotion goes on, and has come to some phase then. -/
def PromotionGoes (s ps : NodeSet) (owner candidate newcomer : NodeId) (m : Option Moment)
    (ψ : AdmissionPhase) (σ : Machine) (t : Thread) (x : Oracle) : Prop :=
  ∃ φ', PromotionAt owner candidate φ' (σ.next t x).getRight? ∧
    Scene s ps owner candidate newcomer m φ' ψ (σ.advance t).nodes (σ.advance t).trace

section

variable (hr : Rivals s owner candidate newcomer)

include hr

/-- The search is over without a replacement. -/
theorem Scene.giveUp (h : Scene s ps owner candidate newcomer m .searching ψ σ.nodes σ.trace)
    (hquiet : σ.Quiet ∅ t) (hword : ¬ (σ.segment t).IsNotice owner candidate newcomer)
    {reply : Message} {x : Oracle} (hnext : σ.next t x = .inl reply) :
    PromotionGoes s ps owner candidate newcomer m ψ σ t x := by
  refine ⟨.failed, .closing (.inl rfl) fun t' ht' => ?_, h.quiet hquiet rfl ?_ ?_⟩
  · rw [hnext] at ht'
    cases ht'
  · exact fun hsight => hsight.fail hr rfl fun _ _ => rfl
  · exact h.record.plain hquiet.plain hword (.inr ⟨rfl, nofun⟩)
      (forall_mem_append_singleton h.record.past.2
        (Segment.not_isCommit_of_isPlain hquiet.plain))

/-- The owner makes its offer. -/
theorem Scene.offer (h : Scene s ps owner candidate newcomer m .searching ψ σ.nodes σ.trace)
    (hquiet : σ.Quiet ∅ t) (hword : ¬ (σ.segment t).IsNotice owner candidate newcomer)
    (hoffer : (σ.segment t).IsOffer owner candidate) {n : Node} {replacement : NodeId}
    (hring : n.ring = views σ.nodes owner) {x : Oracle}
    (hnext : σ.next t x = .inr (.arrival owner candidate
      (.promotePeer (Protocol.offer candidate n) replacement)
      [awaiting owner candidate n.ring.superpeers.isEmpty (Protocol.offer candidate n).peers])) :
    PromotionGoes s ps owner candidate newcomer m ψ σ t x := by
  refine ⟨.offered (Protocol.offer candidate n) n.ring.superpeers.isEmpty, ?_,
    h.quiet hquiet rfl (fun hsight => hsight.offer hr h.me hring) ?_⟩
  · rw [hnext]
    exact .offered replacement
  · refine h.record.plain hquiet.plain hword (.inr ⟨rfl, nofun⟩) ⟨⟨_, ?_, hoffer⟩, ?_⟩
    · exact List.mem_append_right _ (List.mem_singleton.mpr rfl)
    · exact forall_mem_append_singleton h.record.past.2
        (Segment.not_isCommit_of_isPlain hquiet.plain)

/-- The search goes on, or comes to an end. -/
theorem Scene.search (h : Scene s ps owner candidate newcomer m .searching ψ σ.nodes σ.trace)
    (htame : t.Tame ∅ (Offers candidate) owner []) (x : Oracle) :
    PromotionGoes s ps owner candidate newcomer m ψ σ t x := by
  have hword : ¬ (σ.segment t).IsNotice owner candidate newcomer := not_isNotice_of_tame htame
  obtain ⟨hquiet, hnext⟩ := search_or htame (h.me owner) x
  rcases hnext with ⟨reply, hnext⟩ | ⟨n, replacement, hcore, hnode, hasked, hnext⟩ |
    ⟨t', ht', htame'⟩
  · exact h.giveUp hr hquiet hword hnext
  · exact h.offer hr hquiet hword ⟨hnode, _, replacement, hasked⟩
      (Node.evolves_of_core hcore).ring hnext
  · refine ⟨.searching, ?_, h.still hquiet hword fun _ => not_isOffer_of_tame ht' htame'⟩
    rw [ht']
    exact .searching htame'

/-- The candidate takes over what it was offered. -/
theorem Scene.takeOver
    (h : Scene s ps owner candidate newcomer m (.offered snapshot alone) ψ σ.nodes σ.trace)
    {replacement : NodeId} (ht : t = .arrival owner candidate (.promotePeer snapshot replacement)
      [awaiting owner candidate alone snapshot.peers]) (x : Oracle) :
    PromotionGoes s ps owner candidate newcomer m ψ σ t x := by
  have hnode : t.node = candidate := by rw [ht]; rfl
  have hcue : t.cue = .message owner (.promotePeer snapshot replacement) := by rw [ht]; rfl
  obtain ⟨hstate, hnext⟩ := next_promotePeer h.promoted ht x
  rw [← hnode] at hstate
  have hplain : (σ.segment t).cue.isPlain = true := by
    rw [show (σ.segment t).cue = t.cue from rfl, hcue]
    rfl
  have hchange := changes_advance (σ := σ) (t := t)
  rw [hstate, hnode] at hchange
  refine ⟨.accepted snapshot alone, ?_, h.advance hr ?_ (fun hne => absurd hnode hne) ?_ ?_ ?_⟩
  · rw [hnext]
    exact .moving replacement x.flag h.promoted (h.me candidate)
  · rw [hstate, hnode]
    exact (Ring.me_adopt _ _).trans (h.me candidate)
  · rw [← hnode, nodes_advance_self, hstate]
    rfl
  · exact h.sight.accept hr h.me hchange
  · refine h.record.plain hplain ?_ (.inr ⟨rfl, nofun⟩) (h.record.past.plain hplain nofun)
    rintro ⟨-, hword⟩
    rw [show (σ.segment t).cue = t.cue from rfl, hcue] at hword
    cases hword

omit hr in
/-- The candidate goes on telling everyone that its objects were moved, or answers. -/
theorem Scene.replicate
    (h : Scene s ps owner candidate newcomer m (.accepted snapshot alone) ψ σ.nodes σ.trace)
    (hword : ¬ (σ.segment t).IsNotice owner candidate newcomer) {x : Oracle}
    (hanswers : σ.Quiet ∅ t ∧ σ.Answers ∅ candidate (awaiting owner candidate alone snapshot.peers)
      (.promotionResult true) t x) :
    PromotionGoes s ps owner candidate newcomer m ψ σ t x := by
  obtain ⟨hquiet, hnext⟩ := hanswers
  refine ⟨.accepted snapshot alone, ?_, h.still hquiet hword nofun⟩
  rcases hnext with hnext | ⟨t', ht', htame'⟩
  · rw [hnext]
    exact .decided
  · rw [ht']
    exact .moved htame'

omit hr in
/-- The candidate's objects were moved, and it goes on to tell everyone. -/
theorem Scene.settle
    (h : Scene s ps owner candidate newcomer m (.accepted snapshot alone) ψ σ.nodes σ.trace)
    {was : Node} {replacement : NodeId} (hme : was.me = candidate)
    (ht : t = ⟨candidate, .answer (.handOver replacement) true,
      Protocol.settle was replacement true, [awaiting owner candidate alone snapshot.peers]⟩)
    (x : Oracle) :
    PromotionGoes s ps owner candidate newcomer m ψ σ t x := by
  refine h.replicate ?_ (settle_or (S := ∅) h.promoted (fun _ _ _ b _ hown => nomatch hown.1)
    (h.me candidate) hme ht x)
  rw [ht]
  rintro ⟨-, hword⟩
  cases hword

/-- The candidate's objects could not be moved, and it becomes the peer it was. -/
theorem Scene.revert
    (h : Scene s ps owner candidate newcomer m (.accepted snapshot alone) ψ σ.nodes σ.trace)
    {was : Node} {replacement : NodeId} (hwas : was.isSuperpeer = false) (hme : was.me = candidate)
    (ht : t = ⟨candidate, .answer (.handOver replacement) false,
      Protocol.settle was replacement false, [awaiting owner candidate alone snapshot.peers]⟩)
    (x : Oracle) : PromotionGoes s ps owner candidate newcomer m ψ σ t x := by
  subst ht
  refine ⟨.failed, .closing (.inl rfl) fun t' ht' => ?_,
    h.advance hr hme (fun hne => absurd rfl hne) ?_ ?_ ?_⟩
  · cases ht'
    exact .home rfl fun n => .goal ⟨_, _, rfl, rfl, trivial⟩
  · rw [nodes_advance_self]
    exact hwas
  · exact h.sight.fail hr rfl fun x hx => changes_advance.other x hx
  · refine h.record.plain rfl (fun hword => by cases hword.2) (.inr ⟨rfl, nofun⟩) ?_
    exact forall_mem_append_singleton (h.record.past.uncommitted rfl)
      (Segment.not_isCommit_of_isPlain rfl)

/-- The owner splits its range. -/
theorem Scene.split
    (h : Scene s ps owner candidate newcomer m (.accepted snapshot alone) ψ σ.nodes σ.trace)
    (hnode : t.node = owner) (hcue : t.cue = .reply (.promotionResult true))
    (hcore : (t.task (σ.nodes owner)).state.core = ((σ.nodes owner).mapRing fun r =>
      Node.splitRing r snapshot.peers candidate alone).core) :
    Scene s ps owner candidate newcomer m
      (.split (if alone then none else (σ.nodes owner).ring.predecessor)) ψ (σ.advance t).nodes
      (σ.advance t).trace := by
  subst hnode
  have hsame := Node.evolves_of_core hcore
  have hne : candidate ≠ t.node := Ne.symm (hr.first.ne hr.first.owns.1)
  have hme : (t.task (σ.nodes t.node)).state.me = t.node := by
    rw [Node.me, hsame.ring]
    refine (Ring.me_splitRing _ _ ?_).trans (h.me t.node)
    rw [show (σ.nodes t.node).ring.me = t.node from h.me t.node]
    exact hne
  have hchange := changes_advance (σ := σ) (t := t)
  rw [hsame.ring] at hchange
  have hlate : Moment.late.At t.node candidate (σ.trace ++ [σ.segment t]) :=
    ⟨_, List.mem_append_right _ (List.mem_singleton.mpr rfl), rfl, hcue⟩
  refine h.reshape hr hme hsame.role ?_ (h.sight.commit hr h.me rfl hchange)
    (h.record.append ?_ (.inr ⟨rfl, ?_⟩) ?_ (or_iff_left ?_).symm)
  · split <;> cases (σ.nodes t.node).ring.predecessor <;> rfl
  · split <;> cases (σ.nodes t.node).ring.predecessor <;> exact hlate
  · split <;> cases (σ.nodes t.node).ring.predecessor <;> exact fun hoffer => by cases hoffer
  · rintro ⟨-, hword⟩
    rw [show (σ.segment t).cue = t.cue from rfl, hcue] at hword
    cases hword
  · exact fun hinstall => hr.second.ne hr.first.owns.1 hinstall.1

/-- The owner splits its range and tells the superpeer before it, if there is one. -/
theorem Scene.commit
    (h : Scene s ps owner candidate newcomer m (.accepted snapshot alone) ψ σ.nodes σ.trace)
    (ht : t = ⟨owner, .reply (.promotionResult true),
      (awaiting owner candidate alone snapshot.peers).resume (.ok (.promotionResult true)), []⟩)
    (x : Oracle) : PromotionGoes s ps owner candidate newcomer m ψ σ t x := by
  have hnode : t.node = owner := by rw [ht]
  have hcallers : t.callers = [] := by rw [ht]
  have hcue : t.cue = .reply (.promotionResult true) := by rw [ht]
  have hp : t.task (σ.nodes owner) =
      (tell candidate (if alone then none else (σ.nodes owner).ring.predecessor) >>= endPromotion)
        ((σ.nodes owner).mapRing fun r => Node.splitRing r snapshot.peers candidate alone) := by
    rw [ht]
    exact conclude_accepted ..
  have hme : ((σ.nodes owner).mapRing fun r =>
      Node.splitRing r snapshot.peers candidate alone).me = owner := by
    refine (Ring.me_splitRing _ _ ?_).trans (h.me owner)
    rw [show (σ.nodes owner).ring.me = owner from h.me owner]
    exact Ne.symm (hr.first.ne hr.first.owns.1)
  have hscene := h.split hr hnode hcue
  have hnext : σ.next t x = t.next x (t.task (σ.nodes owner)) := by rw [next, hnode]
  rw [hp] at hscene hnext
  generalize (if alone then none else (σ.nodes owner).ring.predecessor) = told at hscene hnext
  generalize (σ.nodes owner).mapRing (fun r =>
    Node.splitRing r snapshot.peers candidate alone) = n at hscene hnext hme
  refine ⟨.split told, ?_, hscene ?_⟩
  · rw [hnext]
    cases told with
    | none =>
      refine .closing (.inr ⟨false, rfl⟩) fun t' ht' => ?_
      rw [next_tell_none hcallers] at ht'
      cases ht'
    | some old =>
      obtain ⟨resume, hsend, hresume⟩ := next_tell_some (t := t) candidate old n x
      rw [hsend, hme, hnode, hcallers]
      exact .telling hresume
  · cases told <;> rfl

/-- The superpeer before the candidate is told. -/
theorem Scene.tell (h : Scene s ps owner candidate newcomer m (.telling old) ψ σ.nodes σ.trace)
    {resume : Except NetError Message → Task Message}
    (hresume : ∀ reply, (resume (.ok reply)).Tame ∅ (Replies fun _ => True)) (x : Oracle) :
    PromotionGoes s ps owner candidate newcomer m ψ σ
      (notice owner candidate old [⟨owner, resume⟩]) x := by
  obtain ⟨b, hb⟩ : ∃ b : Bool, b = true ↔ ψ ≠ .done ∧ old = newcomer := by
    classical exact ⟨decide _, decide_eq_true_iff⟩
  refine ⟨.done b, .closing (.inr ⟨b, rfl⟩) fun t' ht' => ?_,
    h.reshape hr ?_ (isSuperpeer_noticeSuccessor _ _) rfl
      (h.sight.tell hr h.me hb fun hold => changes_notice (h.member old hold))
      (h.record.tell ⟨rfl, rfl⟩ hb)⟩
  · rw [next_notice] at ht'
    cases ht'
    exact .home rfl (hresume .ack)
  · exact (Node.me_noticeSuccessor _ _).trans (h.me old)

/-- The promotion goes on. -/
theorem Scene.promotion (h : Scene s ps owner candidate newcomer m φ ψ σ.nodes σ.trace)
    (ht : PromotionAt owner candidate φ (some t)) (x : Oracle) :
    PromotionGoes s ps owner candidate newcomer m ψ σ t x := by
  generalize hoperation : some t = operation at ht
  cases ht with
  | searching htame =>
    cases hoperation
    exact h.search hr htame x
  | offered replacement =>
    cases hoperation
    exact h.takeOver hr rfl x
  | moving replacement moved hwas hme =>
    cases hoperation
    cases moved with
    | true => exact h.settle hme rfl x
    | false => exact h.revert hr hwas hme rfl x
  | moved htame =>
    cases hoperation
    exact h.replicate (not_isNotice_of_tame htame) (answers_of_tame htame x)
  | decided =>
    cases hoperation
    exact h.commit hr rfl x
  | telling hresume =>
    cases hoperation
    exact h.tell hr hresume x
  | closing hφ hcloses =>
    obtain ⟨hquiet, hnext⟩ := (hcloses t hoperation.symm).step x
    refine ⟨φ, .closing hφ hnext, h.still hquiet (not_isNotice_of_tame (hcloses t hoperation.symm))
      ?_⟩
    rintro rfl
    rcases hφ with hφ | ⟨b, hφ⟩ <;> cases hφ

end

/-! ## The admission -/

/-- A newcomer with a contact in a ring goes on to seek admission to it, in every ring that includes
`u`. -/
def SeeksBeyond (u : NodeSet) (newcomer : NodeId) (task : Task Message) : Prop :=
  ∀ v : NodeSet, (∀ y ∈ u, y ∈ v) → ∀ n : Node, n.isSuperpeer = true → n.ring.bootstrap ∈ v →
    n.ring.bootstrap ≠ newcomer → n.me = newcomer → (task n).Seeks v n

/-- What is left of an admission at a phase. The newcomer asks members of `u` only. -/
inductive AdmissionAt (u : NodeSet) (newcomer : NodeId) : AdmissionPhase → Option Thread → Prop
  | seeking {t : Thread} :
      t.node = newcomer → t.callers = [] → t.cue.isSilent = true → SeeksBeyond u newcomer t.task →
      AdmissionAt u newcomer .asking (some t)
  | asking {contact : NodeId} {k : Except NetError Message → Task Message} :
      contact ∈ u → (∀ v : NodeSet, (∀ y ∈ u, y ∈ v) → Awaits v k) →
      AdmissionAt u newcomer .asking
        (some (.arrival newcomer contact (.join newcomer true) [⟨newcomer, k⟩]))
  | gaveUp : AdmissionAt u newcomer .asking none
  | telling {v : NodeSet} {host old : NodeId} {snapshot : Snapshot}
      {resume k : Except NetError Message → Task Message} :
      (∀ reply, (resume (.ok reply)).Tame ∅ (Replies (· = .joinAccepted snapshot))) → Awaits v k →
      AdmissionAt u newcomer (.telling snapshot old)
        (some (notice host newcomer old [⟨host, resume⟩, ⟨newcomer, k⟩]))
  | replying {v : NodeSet} {host : NodeId} {t : Thread} {snapshot : Snapshot}
      {k : Except NetError Message → Task Message} :
      t.Tame ∅ (Replies (· = .joinAccepted snapshot)) host [⟨newcomer, k⟩] → Awaits v k →
      AdmissionAt u newcomer (.answering snapshot) (some t)
  | accepted {v : NodeSet} {snapshot : Snapshot} {k : Except NetError Message → Task Message} :
      Awaits v k →
      AdmissionAt u newcomer (.answering snapshot)
        (some ⟨newcomer, .reply (.joinAccepted snapshot), k (.ok (.joinAccepted snapshot)), []⟩)
  | closing {thread : Option Thread} :
      (∀ t, thread = some t → Closes ∅ newcomer t) → AdmissionAt u newcomer .done thread

/-- The newcomer may ask more superpeers when there are more. -/
theorem AdmissionAt.mono {thread : Option Thread} (h : AdmissionAt u newcomer ψ thread)
    (hsub : ∀ y ∈ u, y ∈ v) : AdmissionAt v newcomer ψ thread := by
  cases h with
  | seeking hnode hcallers hcue hseeks =>
    exact .seeking hnode hcallers hcue fun w hw => hseeks w fun y hy => hw y (hsub y hy)
  | asking hcontact hk =>
    exact .asking (hsub _ hcontact) fun w hw => hk w fun y hy => hw y (hsub y hy)
  | gaveUp => exact .gaveUp
  | telling hresume hk => exact .telling hresume hk
  | replying htame hk => exact .replying htame hk
  | accepted hk => exact .accepted hk
  | closing hcloses => exact .closing hcloses

/-- The newcomer's job goes on, and has come to some phase then. -/
def AdmissionGoes (s ps : NodeSet) (owner candidate newcomer : NodeId) (φ : PromotionPhase)
    (σ : Machine) (t : Thread) (x : Oracle) : Prop :=
  ∃ m' ψ', AdmissionAt (φ.ring s candidate) newcomer ψ' (σ.next t x).getRight? ∧
    Scene s ps owner candidate newcomer m' φ ψ' (σ.advance t).nodes (σ.advance t).trace

/-- A newcomer that has asked a superpeer awaits its answer. -/
theorem awaits_of_seeks {n n' : Node} {contact : NodeId} {message : Message}
    {k : Except NetError Message → Task Message}
    (h : Progress.Seeks v n (.wait n' (.call contact message) k)) : Awaits v k := by
  cases h with
  | ended h =>
    obtain ⟨_, _, hp, -⟩ := h
    cases hp
  | asks _ _ hredirected haccepted => exact ⟨hredirected, haccepted⟩
  | pauses _ hr => cases hr

/-- A newcomer that waits for its surroundings seeks admission whatever they answer. -/
theorem seeks_of_pause {n n' : Node} {r : Request} {k : r.Answer → Task Message}
    (hr : r.isHarmless = true) (h : Progress.Seeks v n (.wait n' r k)) (x : r.Answer)
    (next : Node) : (k x next).Seeks v next := by
  cases h with
  | ended h =>
    obtain ⟨_, _, hp, -⟩ := h
    cases hp
  | asks => cases hr
  | pauses _ _ hrest => exact hrest x next

section

variable {k : Except NetError Message → Task Message} (hr : Rivals s owner candidate newcomer)

include hr

theorem not_isOffer_of_newcomer (hnode : t.node = newcomer) :
    ¬ (σ.segment t).IsOffer owner candidate := fun hoffer =>
  hr.second.ne hr.first.owns.1 (hoffer.1.symm.trans hnode)

/-- The newcomer goes on to seek admission. -/
theorem Scene.seek (h : Scene s ps owner candidate newcomer m φ .asking σ.nodes σ.trace)
    (hnode : t.node = newcomer) (hcallers : t.callers = []) (hcue : t.cue.isSilent = true)
    (hseeks : SeeksBeyond (φ.ring s candidate) newcomer t.task) (x : Oracle) :
    AdmissionGoes s ps owner candidate newcomer φ σ t x := by
  subst hnode
  have hstill (hcore : (t.task (σ.nodes t.node)).state.core = (σ.nodes t.node).core) :
      Scene s ps owner candidate t.node m φ .asking (σ.advance t).nodes (σ.advance t).trace :=
    h.still (quiet_of_silent (S := ∅) hcue hcore) (Segment.not_isNotice_of_isSilent hcue) fun _ =>
      not_isOffer_of_newcomer hr rfl
  have hbootstrap : (σ.nodes t.node).ring.bootstrap ∈ s := h.sight.lone_of_asking.bootstrap
  have hbeyond : ∀ v : NodeSet, (∀ y ∈ φ.ring s candidate, y ∈ v) →
      (t.task (σ.nodes t.node)).Seeks v (σ.nodes t.node) := fun v hv =>
    hseeks v hv _ (h.member _ (.inr rfl)) (hv _ (PromotionPhase.mem_ring hbootstrap))
      (hr.second.ne hbootstrap) (h.me _)
  have hseek := hbeyond _ fun _ hy => hy
  have hnext : σ.next t x = t.next x (t.task (σ.nodes t.node)) := rfl
  rw [AdmissionGoes, hnext]
  generalize t.task (σ.nodes t.node) = p at hseek hbeyond hstill
  refine ⟨m, .asking, ?_, ?_⟩
  case refine_2 =>
    cases hseek with
    | ended h =>
      obtain ⟨_, _, rfl, hcore, -⟩ := h
      exact hstill hcore
    | asks hcore => exact hstill hcore
    | pauses hcore => exact hstill hcore
    | enters hcore => exact hstill hcore
  cases hseek with
  | ended h =>
    obtain ⟨_, _, rfl, -⟩ := h
    rw [Thread.next, hcallers]
    exact .gaveUp
  | @asks _ n' contact k hcore hcontact _ _ =>
    have hme : n'.me = t.node := by
      rw [Node.me, (Node.evolves_of_core hcore).ring]
      exact h.me t.node
    have hcall : t.next x (.wait n' (.call contact (.join n'.me true)) k) =
        .inr (.arrival n'.me contact (.join n'.me true) (⟨t.node, k⟩ :: t.callers)) := rfl
    rw [hcall, hme, hcallers]
    exact .asking hcontact fun v hv => awaits_of_seeks (hbeyond v hv)
  | @pauses _ n' r k _ hr _ =>
    rw [Thread.next_of_pause (k := k) hr]
    exact .seeking rfl hcallers hr fun v hv n _ _ _ _ => seeks_of_pause hr (hbeyond v hv) _ n
  | @enters _ n' attempt k _ hcontact hrole hends =>
    exact .seeking rfl hcallers rfl fun v hv n _ _ _ _ =>
      seeks_attemptJoin hrole (hv _ hcontact) hends n

/-- A superpeer that does not own the newcomer's position in the ring `u` redirects it. -/
theorem Scene.redirect (h : Scene s ps owner candidate newcomer m φ .asking σ.nodes σ.trace)
    {contact : NodeId} (hrole : (σ.nodes contact).isSuperpeer = true) (hne : newcomer ≠ contact)
    (hu : ∀ y ∈ u, y ∈ φ.ring s candidate) (hmem : contact ∈ u)
    (hsees : (views σ.nodes contact).Sees u) (hnot : ¬ u.Owns newcomer contact)
    (hk : ∀ v : NodeSet, (∀ y ∈ φ.ring s candidate, y ∈ v) → Awaits v k) (x : Oracle) :
    AdmissionGoes s ps owner candidate newcomer φ σ
      (.arrival newcomer contact (.join newcomer true) [⟨newcomer, k⟩]) x := by
  obtain ⟨_, hformed⟩ := hsees
  obtain ⟨hquiet, y, hy, hnext⟩ := next_redirected (S := ∅) (k := k) hrole (h.me contact) hne hformed
    hmem hnot rfl x
  refine ⟨m, .asking, ?_, h.still hquiet (fun hword => by cases hword.2) fun _ hoffer => ?_⟩
  · rw [hnext]
    exact .seeking rfl rfl rfl fun v hv n _ _ _ _ => (hk v hv).redirected y (hv y (hu y hy)) n
  · obtain ⟨_, _, _, _, hsent⟩ := next_of_isOffer hoffer x
    rw [hnext] at hsent
    cases hsent

/-- A superpeer that owns the newcomer's position takes its snapshot and makes room. -/
theorem Scene.makeRoom (h : Scene s ps owner candidate newcomer m φ .asking σ.nodes σ.trace)
    {host : NodeId} {n : Node} {m' : Option Moment} {told : Option NodeId}
    (hnode : t.node = host) (hcue : t.cue = .message newcomer (.join newcomer true))
    (hp : t.task (σ.nodes host) = admissionReply newcomer (.superpeer snapshot told) n)
    (hnme : n.me = host) (hnrole : n.role = (σ.nodes host).role)
    (hsight : ∀ rings', Changes (views σ.nodes) host n.ring rings' →
      Encounter s ps owner candidate newcomer rings' m' φ (.welcomed snapshot told))
    (hmoment : ∀ moment, m' = some moment →
      moment.host owner candidate = host ∧ moment.At owner candidate σ.trace) :
    Scene s ps owner candidate newcomer m' φ (.welcomed snapshot told) (σ.advance t).nodes
      (σ.advance t).trace := by
  subst hnode
  have hplain : (σ.segment t).cue.isPlain = true := by
    rw [show (σ.segment t).cue = t.cue from rfl, hcue]
    rfl
  have hstate : (t.task (σ.nodes t.node)).state = n := by
    rw [hp]
    cases told <;> rfl
  have hoffer : ¬ (σ.segment t).IsOffer owner candidate := by
    rintro ⟨-, snapshot', replacement, hasked⟩
    have hasked : (t.task (σ.nodes t.node)).asked = _ := hasked
    rw [hp] at hasked
    cases told <;> cases hasked
  have hchange := changes_advance (σ := σ) (t := t)
  rw [hstate] at hchange
  refine h.reshape hr ?_ ?_ rfl (hsight _ hchange) (h.record.welcome ⟨rfl, hcue⟩ hmoment
    (h.record.past.plain hplain fun _ => hoffer) ?_)
  · rw [hstate, hnme]
  · rw [hstate]
    exact Node.isSuperpeer_congr hnrole
  · cases told <;> exact nofun

/-- A superpeer that owns the newcomer's position gives it its place. -/
theorem Scene.welcome (h : Scene s ps owner candidate newcomer m φ .asking σ.nodes σ.trace)
    {host : NodeId} {n : Node} {m' : Option Moment} (hrole : (σ.nodes host).isSuperpeer = true)
    (hne : newcomer ≠ host)
    (hwelcome : (σ.nodes host).welcome newcomer true =
      (.superpeer snapshot (σ.nodes host).ring.predecessor, n))
    (hnme : n.me = host) (hnrole : n.role = (σ.nodes host).role)
    (hsight : ∀ rings', Changes (views σ.nodes) host n.ring rings' →
      Encounter s ps owner candidate newcomer rings' m' φ
        (.welcomed snapshot (σ.nodes host).ring.predecessor))
    (hmoment : ∀ moment, m' = some moment →
      moment.host owner candidate = host ∧ moment.At owner candidate σ.trace)
    (hk : Awaits u k) (ht : t = .arrival newcomer host (.join newcomer true) [⟨newcomer, k⟩])
    (x : Oracle) : AdmissionGoes s ps owner candidate newcomer φ σ t x := by
  have hnode : t.node = host := by rw [ht]; rfl
  have hcallers : t.callers = [⟨newcomer, k⟩] := by rw [ht]; rfl
  have hp : t.task (σ.nodes host) =
      admissionReply newcomer (.superpeer snapshot (σ.nodes host).ring.predecessor) n := by
    rw [ht]
    exact handleJoin_eq hrole (by rw [show (σ.nodes host).me = host from h.me host]; exact hne)
      hwelcome
  have hscene := h.makeRoom hr hnode (by rw [ht]; rfl) hp hnme hnrole hsight hmoment
  have hnext : σ.next t x = t.next x (t.task (σ.nodes host)) := by rw [next, hnode]
  rw [AdmissionGoes, hnext, hp]
  refine ⟨_, _, ?_, hscene⟩
  cases (σ.nodes host).ring.predecessor with
  | none =>
    rw [next_admissionReply_none hcallers]
    exact .accepted hk
  | some old =>
    obtain ⟨resume, hsend, hresume⟩ :=
      next_admissionReply_some (t := t) newcomer snapshot old n x
    rw [hsend, hnme, hnode, hcallers]
    exact .telling hresume hk

/-- The candidate is asked, as it may be once the owner has split its range. -/
theorem Scene.askCandidate (h : Scene s ps owner candidate newcomer m φ .asking σ.nodes σ.trace)
    (hcommitted : φ.committed = true)
    (hk : ∀ v : NodeSet, (∀ y ∈ φ.ring s candidate, y ∈ v) → Awaits v k) (x : Oracle) :
    AdmissionGoes s ps owner candidate newcomer φ σ
      (.arrival newcomer candidate (.join newcomer true) [⟨newcomer, k⟩]) x := by
  have hrole := h.isSuperpeer (PromotionPhase.mem_ring_iff.mpr (.inr ⟨hcommitted, rfl⟩))
  by_cases hown : (s.insert candidate).Owns newcomer candidate
  · obtain ⟨n, snapshot, hwelcome, hnme, hnrole, hsight⟩ :=
      h.sight.relay hr h.me rfl hcommitted hown
    refine h.welcome hr hrole (Ne.symm hr.ne) hwelcome hnme hnrole hsight (fun moment hm => ?_)
      (hk _ fun _ hy => hy) rfl x
    cases hm
    exact ⟨rfl, h.record.past.committed_iff.mp hcommitted⟩
  · refine h.redirect hr hrole (Ne.symm hr.ne) ?_ (NodeSet.mem_insert.mpr (.inl rfl))
      (h.sight.lone_of_asking.candidateView.sees hcommitted) hown hk x
    rw [PromotionPhase.ring_of_committed hcommitted]
    exact fun _ hy => hy

/-- The owner is asked. -/
theorem Scene.askOwner (h : Scene s ps owner candidate newcomer m φ .asking σ.nodes σ.trace)
    (hk : ∀ v : NodeSet, (∀ y ∈ φ.ring s candidate, y ∈ v) → Awaits v k) (x : Oracle) :
    AdmissionGoes s ps owner candidate newcomer φ σ
      (.arrival newcomer owner (.join newcomer true) [⟨newcomer, k⟩]) x := by
  have hmember := hr.first.owns.1
  have hrole := h.member owner (.inl hmember)
  have hne : newcomer ≠ owner := Ne.symm (hr.second.ne hmember)
  by_cases hown : (φ.ring s candidate).Owns newcomer owner
  · obtain ⟨n, snapshot, hwelcome, hnme, hnrole, hsight⟩ := h.sight.welcome hr h.me rfl hown
    exact h.welcome hr hrole hne hwelcome hnme hnrole hsight (fun _ => h.record.past.moment)
      (hk _ fun _ hy => hy) rfl x
  · exact h.redirect hr hrole hne (fun _ hy => hy) (PromotionPhase.mem_ring hmember)
      ⟨ps, h.sight.lone_of_asking.ownerView⟩ hown hk x

/-- A superpeer that the newcomer asks gives it its place, or sends it on. -/
theorem Scene.ask (h : Scene s ps owner candidate newcomer m φ .asking σ.nodes σ.trace)
    {contact : NodeId} (hcontact : contact ∈ φ.ring s candidate)
    (hk : ∀ v : NodeSet, (∀ y ∈ φ.ring s candidate, y ∈ v) → Awaits v k) (x : Oracle) :
    AdmissionGoes s ps owner candidate newcomer φ σ
      (.arrival newcomer contact (.join newcomer true) [⟨newcomer, k⟩]) x := by
  rcases PromotionPhase.mem_ring_iff.mp hcontact with hmember | ⟨hcommitted, rfl⟩
  case inr => exact h.askCandidate hr hcommitted hk x
  by_cases howner : contact = owner
  · subst howner
    exact h.askOwner hr hk x
  have hrole := h.member contact (.inl hmember)
  have hne : newcomer ≠ contact := Ne.symm (hr.second.ne hmember)
  rcases h.sight.lone_of_asking.others contact hmember howner with
    ⟨hformed, -⟩ | ⟨hentered, hformed⟩
  · exact h.redirect hr hrole hne (fun _ => PromotionPhase.mem_ring) hmember ⟨ps, hformed⟩
      (fun hown => howner (hown.unique hr.second.owns)) hk x
  · rw [PromotionPhase.ring_of_committed hentered] at hcontact
    refine h.redirect hr hrole hne ?_ hcontact ⟨ps, hformed⟩ (fun hown => ?_) hk x
    · rw [PromotionPhase.ring_of_committed hentered]
      exact fun _ hy => hy
    · rcases hr.owns_or with hother | hother
      · exact hr.first.ne hmember (hown.unique hother)
      · exact howner (hown.unique hother)

/-- The superpeer before the newcomer is told. -/
theorem Scene.note (h : Scene s ps owner candidate newcomer m φ (.telling snapshot old) σ.nodes
      σ.trace)
    {host : NodeId} {resume : Except NetError Message → Task Message}
    (hresume : ∀ reply, (resume (.ok reply)).Tame ∅ (Replies (· = .joinAccepted snapshot)))
    (hk : Awaits u k) (x : Oracle) :
    AdmissionGoes s ps owner candidate newcomer φ σ
      (notice host newcomer old [⟨host, resume⟩, ⟨newcomer, k⟩]) x := by
  have hrole (hold : old ∈ s ∨ φ.committed = true ∧ old = candidate) :=
    h.isSuperpeer (PromotionPhase.mem_ring_iff.mpr hold)
  refine ⟨m, .answering snapshot, ?_, h.reshape hr ?_ (isSuperpeer_noticeSuccessor _ _) rfl
    (h.sight.note hr h.me fun hold => changes_notice (hrole hold)) ?_⟩
  · rw [next_notice]
    exact .replying (.home rfl (hresume .ack)) hk
  · exact (Node.me_noticeSuccessor _ _).trans (h.me old)
  · refine h.record.append (h.record.past.plain rfl fun _ => not_isOffer_notice) (.inl rfl) ?_
      (iff_of_false nofun fun hdone => hdone.elim nofun (Segment.not_isInstallation_of_isPlain rfl))
    rintro ⟨-, hword⟩
    cases hword
    exact hr.ne rfl

omit hr in
/-- The owner answers the newcomer. -/
theorem Scene.reply (h : Scene s ps owner candidate newcomer m φ (.answering snapshot) σ.nodes
      σ.trace)
    {host : NodeId} (htame : t.Tame ∅ (Replies (· = .joinAccepted snapshot)) host [⟨newcomer, k⟩])
    (hk : Awaits u k) (x : Oracle) :
    AdmissionGoes s ps owner candidate newcomer φ σ t x := by
  obtain ⟨hquiet, hnext⟩ := answers_of_tame (σ := σ) htame x
  refine ⟨m, .answering snapshot, ?_, h.still hquiet (not_isNotice_of_tame htame) fun _ =>
    not_isOffer_of_replies htame⟩
  rcases hnext with hnext | ⟨t', ht', htame'⟩
  · rw [hnext]
    exact .accepted hk
  · rw [ht']
    exact .replying htame' hk

/-- The newcomer takes its place. -/
theorem Scene.install (h : Scene s ps owner candidate newcomer m φ (.answering snapshot) σ.nodes
      σ.trace)
    (hk : Awaits u k)
    (ht : t = ⟨newcomer, .reply (.joinAccepted snapshot), k (.ok (.joinAccepted snapshot)), []⟩)
    (x : Oracle) : AdmissionGoes s ps owner candidate newcomer φ σ t x := by
  have hnode : t.node = newcomer := by rw [ht]
  have hcue : t.cue = .reply (.joinAccepted snapshot) := by rw [ht]
  obtain ⟨hstate, t', hnext, hcloses⟩ := next_joinAccepted hk ht x
  rw [← hnode] at hstate
  have hring : ((σ.nodes newcomer).install snapshot).ring =
      (views σ.nodes newcomer).adopt snapshot := Node.ring_mapDirectory _
  have hrole : ((σ.nodes newcomer).install snapshot).isSuperpeer =
      (σ.nodes newcomer).isSuperpeer := Node.isSuperpeer_mapDirectory _
  have hchange := changes_advance (σ := σ) (t := t)
  rw [hstate, hnode, hring] at hchange
  refine ⟨m, .done, ?_, h.reshape hr ?_ ?_ rfl (h.sight.install hr h.me hchange) ?_⟩
  · rw [hnext]
    refine .closing fun t'' ht'' => ?_
    cases ht''
    exact hcloses
  · rw [hstate, hnode, Node.me, hring]
    exact (Ring.me_adopt _ _).trans (h.me newcomer)
  · rw [hstate, hnode]
    exact hrole
  · refine h.record.append (h.record.past.append (fun _ => not_isOffer_of_newcomer hr hnode)
      fun _ hcommit => ?_) (.inl rfl) ?_ (iff_of_true rfl (.inr ⟨hnode, snapshot, hcue⟩))
    · exact hr.second.ne hr.first.owns.1 (hcommit.1.symm.trans hnode)
    · rintro ⟨-, hword⟩
      rw [show (σ.segment t).cue = t.cue from rfl, hcue] at hword
      cases hword

/-- The admission goes on. -/
theorem Scene.admission (h : Scene s ps owner candidate newcomer m φ ψ σ.nodes σ.trace)
    (ht : AdmissionAt (φ.ring s candidate) newcomer ψ (some t)) (x : Oracle) :
    AdmissionGoes s ps owner candidate newcomer φ σ t x := by
  generalize hthread : some t = thread at ht
  cases ht with
  | seeking hnode hcallers hcue hseeks =>
    cases hthread
    exact h.seek hr hnode hcallers hcue hseeks x
  | asking hcontact hk =>
    cases hthread
    exact h.ask hr hcontact hk x
  | gaveUp => cases hthread
  | telling hresume hk =>
    cases hthread
    exact h.note hr hresume hk x
  | replying htame hk =>
    cases hthread
    exact h.reply htame hk x
  | accepted hk =>
    cases hthread
    exact h.install hr hk rfl x
  | closing hcloses =>
    obtain ⟨hquiet, hnext⟩ := (hcloses t hthread.symm).step x
    exact ⟨m, .done, .closing hnext,
      h.still hquiet (not_isNotice_of_tame (hcloses t hthread.symm)) fun _ =>
        not_isOffer_of_replies (hcloses t hthread.symm)⟩

end

/-! ## Runs -/

theorem eq_singleton_of_getElem? {α : Type} {l : List α} {a : α} {i : Nat} (hl : l.length ≤ 1)
    (ha : l[i]? = some a) : i = 0 ∧ l = [a] := by
  obtain ⟨hi, hget⟩ := List.getElem?_eq_some_iff.mp ha
  obtain rfl : i = 0 := by omega
  obtain ⟨only, rfl⟩ := List.length_eq_one_iff.mp (show l.length = 1 by omega)
  exact ⟨rfl, congrArg (fun x => [x]) hget⟩

/-- A promotion as the operation and an admission as the only job, each at some phase. -/
structure Meeting (s ps : NodeSet) (owner candidate newcomer : NodeId) (m : Option Moment)
    (φ : PromotionPhase) (ψ : AdmissionPhase) (σ : Machine) : Prop where
  promotion : PromotionAt owner candidate φ σ.operation
  single : σ.requests.length ≤ 1
  admission : AdmissionAt (φ.ring s candidate) newcomer ψ (σ.requests.head?.map (·.thread))
  scene : Scene s ps owner candidate newcomer m φ ψ σ.nodes σ.trace

section

variable (hr : Rivals s owner candidate newcomer)

include hr

theorem Meeting.operate (h : σ.Meeting s ps owner candidate newcomer m φ ψ) (x : Oracle) :
    ∃ φ', (σ.step (.operate x)).Meeting s ps owner candidate newcomer m φ' ψ := by
  obtain ⟨hpromotion, hsingle, hadmission, hscene⟩ := h
  cases hop : σ.operation with
  | none =>
    have hstep : σ.step (.operate x) = σ := by simp only [step, hop]
    rw [hstep]
    exact ⟨φ, hpromotion, hsingle, hadmission, hscene⟩
  | some t =>
    have hstep : σ.step (.operate x) =
        { σ.advance t with operation := (σ.next t x).getRight? } := by simp only [step, hop]
    rw [hop] at hpromotion
    obtain ⟨φ', hpromotion', hscene'⟩ := hscene.promotion hr hpromotion x
    rw [hstep]
    refine ⟨φ', hpromotion', hsingle, hadmission.mono fun y hy => ?_, hscene'⟩
    rcases PromotionPhase.mem_ring_iff.mp hy with hy | ⟨hcommitted, rfl⟩
    · exact PromotionPhase.mem_ring hy
    · -- What the owner has split remains split.
      obtain ⟨g, hg, hcommit⟩ := hscene.record.past.committed_iff.mp hcommitted
      have hcommitted' := hscene'.record.past.committed_iff.mpr
        ⟨g, List.mem_append_left _ hg, hcommit⟩
      exact PromotionPhase.mem_ring_iff.mpr (.inr ⟨hcommitted', rfl⟩)

theorem Meeting.serve (h : σ.Meeting s ps owner candidate newcomer m φ ψ) (i : Nat) (x : Oracle) :
    ∃ m' ψ', (σ.step (.serve i x)).Meeting s ps owner candidate newcomer m' φ ψ' := by
  obtain ⟨hpromotion, hsingle, hadmission, hscene⟩ := h
  cases hjob : σ.requests[i]? with
  | none =>
    have hstep : σ.step (.serve i x) = σ := by simp only [step, hjob]
    rw [hstep]
    exact ⟨m, ψ, hpromotion, hsingle, hadmission, hscene⟩
  | some job =>
    obtain ⟨rfl, hrequests⟩ := eq_singleton_of_getElem? hsingle hjob
    rw [hrequests] at hadmission
    obtain ⟨m', ψ', hadmission', hscene'⟩ := hscene.admission hr hadmission x
    refine ⟨m', ψ', ?_⟩
    cases hnext : σ.next job.thread x with
    | inl reply =>
      have hstep : σ.step (.serve 0 x) =
          { σ.advance job.thread with
            requests := σ.requests.eraseIdx 0
            answers := σ.answers ++ [(job.node, job.message, reply)] } := by
        simp only [step, hjob, hnext]
      rw [hnext] at hadmission'
      rw [hstep, hrequests]
      exact ⟨hpromotion, Nat.zero_le 1, hadmission', hscene'⟩
    | inr thread =>
      have hstep : σ.step (.serve 0 x) =
          { σ.advance job.thread with requests := σ.requests.set 0 { job with thread } } := by
        simp only [step, hjob, hnext]
      rw [hnext] at hadmission'
      rw [hstep, hrequests]
      exact ⟨hpromotion, Nat.le_refl 1, hadmission', hscene'⟩

/-- Both go on to some phase, whatever happens when. -/
theorem Meeting.run (h : σ.Meeting s ps owner candidate newcomer m φ ψ) {moves : List Move}
    (hmoves : ∀ move ∈ moves, move.isInner = true) :
    ∃ m' φ' ψ', (σ.run moves).Meeting s ps owner candidate newcomer m' φ' ψ' := by
  induction moves generalizing σ m φ ψ with
  | nil => exact ⟨m, φ, ψ, h⟩
  | cons move rest ih =>
    have hrest : ∀ move ∈ rest, move.isInner = true := fun move' hmove' =>
      hmoves move' (List.mem_cons_of_mem move hmove')
    cases move with
    | operate x =>
      obtain ⟨φ', h'⟩ := h.operate hr x
      exact ih h' hrest
    | serve i x =>
      obtain ⟨m', ψ', h'⟩ := h.serve hr i x
      exact ih h' hrest
    | request => cases hmoves _ List.mem_cons_self

end

end Machine

end ChunkDirectory
