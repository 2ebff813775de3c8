import ChunkDirectory.Proofs.Concurrency.Promotion
import ChunkDirectory.Proofs.Protocol.Copies
import ChunkDirectory.Proofs.Protocol.Obeys

/-!
# Promotions

What a promotion comes to in a direct overlay. The search for a replacement is idle, and so is the
candidate's part when its objects cannot be moved. When they can, the candidate takes over what it
is offered, the owner splits its range, and the superpeer before the owner is told (`Promoted`); no
other node looks different.
-/

namespace ChunkDirectory

open Protocol

namespace Ring

/-- A superpeer's view after it was told of a successor. -/
def noted (r : Ring) (node : NodeId) : Ring :=
  if node = r.me then r
  else
    let nearer :=
      match r.successor with
      | none => true
      | some current => Arc.contains ⟨r.me, current, .strict⟩ node
    if nearer && r.successor ≠ some node then
      let r := r.setSuccessor (some node)
      if r.predecessor.isNone then r.setPredecessor (some node) else r
    else r

theorem me_noted (r : Ring) (node : NodeId) : (r.noted node).me = r.me := by
  have hset : (if (r.setSuccessor (some node)).predecessor.isNone then
      (r.setSuccessor (some node)).setPredecessor (some node)
      else r.setSuccessor (some node)).me = r.me := by
    split
    case isTrue => rw [me_setPredecessor, me_setSuccessor]
    case isFalse => exact me_setSuccessor r (some node)
  rw [noted, apply_ite me]
  refine ite_eq_left_iff.mpr fun _ => ?_
  dsimp only
  rw [apply_ite me, hset]
  exact ite_self _

end Ring

namespace Node

variable {n m : Node} {candidate : NodeId}

theorem offer_of_core (candidate : NodeId) (h : m.core = n.core) :
    offer candidate m = offer candidate n := by
  have hring : m.ring = n.ring := congrArg (·.2.1) h
  have hrole : m.role = n.role := congrArg (·.2.2) h
  unfold offer snapshotFor me directory?
  rw [hring, hrole]

/-- To be told of a successor is a matter of a superpeer's view alone. -/
theorem noticeSuccessor_eq (n : Node) (node : NodeId) :
    n.noticeSuccessor node = if n.isSuperpeer then n.mapRing (·.noted node) else n := by
  unfold noticeSuccessor Ring.noted me
  by_cases hrole : n.isSuperpeer = true
  case neg => rw [if_pos (by simp [hrole]), if_neg hrole]
  rw [if_pos hrole]
  by_cases hme : node = n.ring.me
  case pos =>
    rw [if_pos (by simp [hme])]
    simp only [mapRing, if_pos hme]
  rw [if_neg (by simp [hrole, hme])]
  simp only [mapRing, if_neg hme]
  exact (apply_ite (fun r => ({ n with ring := r } : Node)) _ _ _).symm

theorem me_noticeSuccessor (n : Node) (node : NodeId) : (n.noticeSuccessor node).me = n.me := by
  rw [noticeSuccessor_eq]
  split
  case isTrue => exact Ring.me_noted _ _
  case isFalse => rfl

/-- What becomes of a node's outlook when it is told of a successor depends on its outlook only. -/
theorem outlook_noticeSuccessor (h : m.outlook = n.outlook) (node : NodeId) :
    (m.noticeSuccessor node).outlook = (n.noticeSuccessor node).outlook := by
  have hring : m.ring = n.ring := congrArg (·.2.1) h
  have hrole : m.isSuperpeer = n.isSuperpeer := congrArg (·.2.2) h
  have hmap (k : Node) (f : Ring → Ring) :
      (k.mapRing f).outlook = (k.config, f k.ring, k.isSuperpeer) := rfl
  rw [noticeSuccessor_eq, noticeSuccessor_eq, hrole]
  split
  case isTrue =>
    rw [hmap, hmap, hring, hrole]
    exact congrArg (fun c => (c.1, n.ring.noted node, n.isSuperpeer)) h
  case isFalse => exact h

end Node

namespace Overlay

variable {ρ : Type} {o o₁ : Overlay ρ} {id sender candidate replacement : NodeId} {n k : Node}
  {snapshot : Snapshot}

/-! ## Idle parts -/

theorem idle_search (hn : o.node? id = some n) :
    Idle Node.core o id (handleMessage sender .searchForPeer) :=
  Idle.node_bind hn fun _ _ => (Idle.choose hn _).bind fun _ => .pure hn _

theorem idle_searchReplacement (hn : o.node? id = some n) (candidate : NodeId)
    (superpeers : List NodeId) (tries : Nat) :
    Idle Node.core o id (searchReplacement candidate superpeers tries) := by
  induction tries with
  | zero => exact .pure hn none
  | succ tries ih =>
    refine (Idle.choose hn superpeers).bind fun found => ?_
    cases found with
    | none => exact .pure hn none
    | some contact =>
      refine (Idle.call hn fun m hm => idle_search hm).bind fun reply => ?_
      cases reply with
      | error e => exact (Idle.enqueue hn contact fun n => n.core_enqueue contact).bind fun _ => ih
      | ok reply =>
        cases reply with
        | foundPeer peer =>
          cases peer with
          | none => exact ih
          | some peer =>
            show Idle Node.core o id (if peer ≠ candidate then return some peer
              else searchReplacement candidate superpeers tries)
            by_cases hpeer : peer = candidate
            · rw [if_neg (not_not_intro hpeer)]
              exact ih
            · rw [if_pos hpeer]
              exact .pure hn _
        | _ => exact ih

theorem idle_findReplacement (hn : o.node? id = some n) (candidate : NodeId) (safe : Bool) :
    Idle Node.core o id (findReplacement candidate safe) := by
  refine Idle.node_bind hn fun n₁ _ => (Idle.choose hn _).bind fun found => ?_
  cases found with
  | some peer => exact .pure hn _
  | none =>
    cases safe with
    | false => exact .pure hn _
    | true => exact Idle.node_bind hn fun n₂ _ => idle_searchReplacement hn candidate _ _

/-! ## The candidate -/

theorem me_becomeSuperpeer (n : Node) (snapshot : Snapshot) :
    (becomeSuperpeer n snapshot).me = n.me := Ring.me_adopt _ _

/-- A superpeer refuses to be promoted. -/
theorem handlePromotePeer_of_superpeer (snapshot : Snapshot) (replacement : NodeId)
    (h : n.isSuperpeer = true) :
    handlePromotePeer snapshot replacement n = .done (.promotionResult false) n := by
  show (if n.isSuperpeer then _ else _ : Task Message) n = _
  rw [if_pos h]
  rfl

/-- A peer takes over what it is offered and asks for its objects to be moved. -/
theorem leads_handlePromotePeer {reply : Message} (h : o.Direct) (hk : o.node? candidate = some k)
    (hpeer : k.isSuperpeer = false)
    (hrest : Leads (o.put candidate (becomeSuperpeer k snapshot)) candidate
      (settle k replacement (!o.holds .handOverFails candidate)) reply o₁) :
    Leads o candidate (handlePromotePeer snapshot replacement) reply o₁ := by
  have hchanged : (o.put candidate (becomeSuperpeer k snapshot)).node? candidate =
      some (becomeSuperpeer k snapshot) := node?_put_self hk
  have hask := leads_handOver hchanged replacement
  rw [me_becomeSuperpeer, h.me hk, holds_put] at hask
  have htask : Leads o candidate (Task.modify (becomeSuperpeer · snapshot) >>= fun _ =>
      Task.ask (.handOver replacement) >>= settle k replacement) reply o₁ :=
    Leads.modify_bind hk (hask.bind hrest)
  exact htask.congr hk (handlePromotePeer_eq snapshot replacement hpeer).symm

/-- A superpeer, or a peer whose objects cannot be moved, denies and looks the same afterwards. -/
theorem leads_handlePromotePeer_denied (h : o.Direct) (hk : o.node? candidate = some k)
    (hkept : k.isSuperpeer = true ∨ o.holds .handOverFails candidate = true) :
    ∃ o₁, Leads o candidate (handlePromotePeer snapshot replacement) (.promotionResult false) o₁ ∧
      Alike Node.core o o₁ := by
  cases hrole : k.isSuperpeer with
  | true =>
    have hrefused := handlePromotePeer_of_superpeer snapshot replacement hrole
    exact ⟨o, (Leads.pure hk).congr hk hrefused.symm, .rfl h⟩
  | false =>
    have hfails : o.holds .handOverFails candidate = true :=
      hkept.resolve_left (by rw [hrole]; exact Bool.false_ne_true)
    have hchanged : (o.put candidate (becomeSuperpeer k snapshot)).node? candidate =
        some (becomeSuperpeer k snapshot) := node?_put_self hk
    let restored : Node := { becomeSuperpeer k snapshot with ring := k.ring, role := k.role }
    have hcore : restored.core = k.core := rfl
    have hsame : Alike Node.core o (o.put candidate restored) :=
      .put h hk (congrArg (·.2.1.me) hcore) hcore
    refine ⟨o.put candidate restored, leads_handlePromotePeer h hk hrole ?_, hsame⟩
    rw [hfails, ← put_put o candidate (becomeSuperpeer k snapshot) restored]
    exact Leads.modify_bind hchanged (Leads.pure (node?_put_self hchanged))

/-- The overlay once a candidate in state `k` has taken over a snapshot and every tree that it and
its backups hold has been told of the replacement. -/
def handedOver (o : Overlay ρ) (candidate replacement : NodeId) (k : Node) (snapshot : Snapshot) :
    Overlay ρ :=
  let promoted := becomeSuperpeer k snapshot
  (o.put candidate promoted).mutateEach (.updateAll candidate replacement)
    (candidate :: promoted.ring.backups candidate)

/-- A peer whose objects can be moved becomes a superpeer with the view it is offered. -/
theorem leads_handlePromotePeer_moved (h : o.Direct) (hk : o.node? candidate = some k)
    (hpeer : k.isSuperpeer = false) (hmoves : o.holds .handOverFails candidate = false)
    (snapshot : Snapshot) (replacement : NodeId) :
    ∃ o₁, Leads o candidate (handlePromotePeer snapshot replacement) (.promotionResult true) o₁ ∧
      Alike Node.core (o.handedOver candidate replacement k snapshot) o₁ := by
  have hme : k.me = candidate := h.me hk
  have hme' : (becomeSuperpeer k snapshot).me = k.me := me_becomeSuperpeer k snapshot
  have hdirect : (o.put candidate (becomeSuperpeer k snapshot)).Direct := h.put (hme'.trans hme)
  have hchanged : (o.put candidate (becomeSuperpeer k snapshot)).node? candidate =
      some (becomeSuperpeer k snapshot) := node?_put_self hk
  have hprimary : (becomeSuperpeer k snapshot).isPrimaryFor k.me = true := by
    rw [← hme']
    exact Node.isPrimaryFor_me rfl
  obtain ⟨o₁, hmutate, hsame⟩ := leads_mutate (m := .updateAll k.me replacement) hdirect hchanged
    rfl hprimary rfl fun _ => rfl
  rw [hme] at hsame
  obtain ⟨n₁, hn₁, -⟩ := (hdirect.alike_mutateEach.trans
    (hsame.weaken Node.outlook_of_core)).exists_node? hchanged
  obtain ⟨x, o₂, hworker, hsame'⟩ := exists_leads_local (r := .startWorker) hn₁ rfl
  have hn₂ : o₂.node? candidate = some n₁ := (hsame'.node?_eq candidate).trans hn₁
  refine ⟨o₂, leads_handlePromotePeer h hk hpeer ?_,
    hsame.trans (.of_sameNodes hsame.direct hsame')⟩
  rw [hmoves]
  exact hmutate.bind (hworker.bind (Leads.pure hn₂))

/-! ## The owner -/

/-- Who is to be told of a promotion. -/
def told (n : Node) : Option NodeId :=
  if n.ring.superpeers.isEmpty then none else n.ring.predecessor

/-- What a promotion that went through has made of an overlay in which the owner was in state `n`
and the candidate in state `k`. -/
structure Promoted (owner candidate : NodeId) (n k : Node) (o o' : Overlay ρ) : Prop where
  direct : o'.Direct
  gave : ∃ n', o'.node? owner = some n' ∧ n'.isSuperpeer = true ∧
    n'.ring = Node.splitRing n.ring (offer candidate n).peers candidate n.ring.superpeers.isEmpty
  took : ∃ k', o'.node? candidate = some k' ∧ k'.isSuperpeer = true ∧
    k'.ring = k.ring.adopt (offer candidate n)
  others : ∀ x m, x ≠ owner → x ≠ candidate → o.node? x = some m →
    ∃ m', o'.node? x = some m' ∧
      m'.outlook = (if told n = some x then m.noticeSuccessor candidate else m).outlook
  /-- What is stored is what the candidate made of it. -/
  stored : ∃ replacement, replacement ≠ candidate ∧
    ∀ x m, (o.handedOver candidate replacement k (offer candidate n)).node? x = some m →
      ∃ m', o'.node? x = some m' ∧ m'.role = m.role

theorem leads_notice {p : NodeId} {m : Node} (hm : o.node? p = some m) :
    Leads o p (handleMessage sender (.notifyAboutNewSuccessor candidate)) .ack
      (o.put p (m.noticeSuccessor candidate)) :=
  Leads.node_bind hm (Leads.modify_bind hm (Leads.pure (node?_put_self hm)))

/-- The one to be told takes notice of the candidate, and nobody else. -/
theorem leads_tell (candidate : NodeId) {owner : NodeId} (h : o.Direct)
    (hn : o.node? owner = some n) {old : Option NodeId} (hother : old ≠ some owner) :
    ∃ o₁, Leads o owner (tell candidate old) (.ok ()) o₁ ∧ o₁.Direct ∧
      ∀ x m, o.node? x = some m → ∃ m', o₁.node? x = some m' ∧
        m'.core = (if old = some x then m.noticeSuccessor candidate else m).core := by
  cases old with
  | none =>
    refine ⟨o, Leads.pure hn, h, fun x m hm => ⟨m, hm, ?_⟩⟩
    rw [if_neg (by simp)]
  | some p =>
    have hne : owner ≠ p := fun heq => hother (congrArg some heq.symm)
    cases hp : o.node? p with
    | none =>
      have hsame : Alike Node.core o (o.put owner (n.enqueue p)) :=
        .put h hn (n.me_enqueue p) (n.core_enqueue p)
      refine ⟨o.put owner (n.enqueue p), ?_, hsame.direct, fun x m hm => ?_⟩
      · refine (h.leads_send_absent hn hp).bind ?_
        exact Leads.modify_bind hn (Leads.pure (node?_put_self hn))
      · have hxp : ¬ some p = some x := by
          rintro ⟨⟩
          rw [hp] at hm
          cases hm
        obtain ⟨m', hm', hcore⟩ := hsame.exists_node? hm
        rw [if_neg hxp]
        exact ⟨m', hm', hcore⟩
    | some m =>
      have hme := h.me hp
      have hself : (o.put p (m.noticeSuccessor candidate)).node? owner = some n :=
        (h.node?_put_of_ne hne).trans hn
      refine ⟨o.put p (m.noticeSuccessor candidate), ?_,
        h.put ((Node.me_noticeSuccessor m candidate).trans hme), fun x k hk => ?_⟩
      · exact (h.leads_send hn (leads_notice hp) hself).bind (Leads.pure hself)
      · by_cases heq : x = p
        · subst heq
          rw [hp] at hk
          cases hk
          exact ⟨_, node?_put_self hp, by rw [if_pos rfl]⟩
        · refine ⟨k, (h.node?_put_of_ne heq).trans hk, ?_⟩
          rw [if_neg fun h => heq (Option.some.inj h).symm]

/-- A peer whose objects can be moved. -/
def Promotable (o : Overlay ρ) (candidate : NodeId) (k : Node) : Prop :=
  o.node? candidate = some k ∧ k.isSuperpeer = false ∧ o.holds .handOverFails candidate = false

theorem exists_promotable_of_alike (h : Alike Node.core o o₁)
    (hcan : ∃ k, Promotable o candidate k) : ∃ k, Promotable o₁ candidate k := by
  obtain ⟨k, hk, hpeer, hmoves⟩ := hcan
  obtain ⟨k₁, hk₁, hcore⟩ := h.exists_node? hk
  exact ⟨k₁, hk₁, (Node.isSuperpeer_of_core hcore).trans hpeer, (h.holds_eq _ _).trans hmoves⟩

/-- How a promotion comes out: either the candidate is promoted, or nobody looks different. -/
inductive PromotionOutcome (owner candidate : NodeId) (n : Node) (o o' : Overlay ρ) :
    Except PromotionError Unit → Prop
  | promoted {k : Node} : Promotable o candidate k → Promoted owner candidate n k o o' →
      PromotionOutcome owner candidate n o o' (.ok ())
  | failed {error : PromotionError} : Alike Node.core o o' →
      PromotionOutcome owner candidate n o o' (.error error)

theorem promoteWith_eq (candidate replacement : NodeId) (n : Node) :
    promoteWith candidate replacement n =
      (Task.call candidate (.promotePeer (offer candidate n) replacement) >>=
        conclude candidate n.ring.superpeers.isEmpty (offer candidate n).peers) n := rfl

theorem noticeSuccessor_self (n : Node) : n.noticeSuccessor n.me = n := by
  rw [Node.noticeSuccessor, if_pos (by simp)]

/-- What the end of a promotion by the owner, whose view was that of `n`, makes of the node `x` with
the state `m`. -/
def concluded (candidate owner : NodeId) (n : Node) (x : NodeId) (m : Node) : Node :=
  if x = owner then
    m.mapRing (Node.splitRing · (offer candidate n).peers candidate n.ring.superpeers.isEmpty)
  else if told n = some x then m.noticeSuccessor candidate
  else m

theorem role_concluded (candidate owner : NodeId) (n : Node) (x : NodeId) (m : Node) :
    (concluded candidate owner n x m).role = m.role := by
  unfold concluded
  split
  · rfl
  split
  · exact m.role_noticeSuccessor candidate
  · rfl

/-- The owner's view is split, and then the one to be told takes notice of the candidate. -/
theorem leads_splitAndTell {owner : NodeId} {n₁ : Node} (h : o₁.Direct)
    (hn₁ : o₁.node? owner = some n₁) (hring : n₁.ring = n.ring) (hne : candidate ≠ owner)
    (hother : n.ring.predecessor ≠ some owner) :
    ∃ o₂, Leads o₁ owner (conclude candidate n.ring.superpeers.isEmpty (offer candidate n).peers
        (.ok (.promotionResult true))) (.ok ()) o₂ ∧ o₂.Direct ∧
      ∀ x m, o₁.node? x = some m → ∃ m', o₂.node? x = some m' ∧
        m'.core = (concluded candidate owner n x m).core := by
  let n₂ := n₁.mapRing
    (Node.splitRing · (offer candidate n).peers candidate n.ring.superpeers.isEmpty)
  have hme₁ : n₁.ring.me = owner := h.me hn₁
  have hme₂ : n₂.me = owner := by
    obtain ⟨t, u, hsplit, -, -⟩ := Ring.splitRing_eq_of_ne (offer candidate n).peers
      n.ring.superpeers.isEmpty fun heq : candidate = n₁.ring.me => hne (heq.trans hme₁)
    exact (congrArg Ring.me hsplit).trans hme₁
  have hself : (o₁.put owner n₂).node? owner = some n₂ := node?_put_self hn₁
  have htold : told n ≠ some owner := by
    unfold told
    split
    · exact fun heq => by cases heq
    · exact hother
  obtain ⟨o₂, htell, hdirect, hnodes⟩ := leads_tell candidate (h.put hme₂) hself htold
  refine ⟨o₂, ?_, hdirect, fun x m hm => ?_⟩
  · refine Leads.node_bind hn₁ (Leads.modify_bind hn₁ ?_)
    show Leads _ _ (tell candidate (if n.ring.superpeers.isEmpty then none
      else n₁.ring.predecessor)) _ _
    rw [hring]
    exact htell
  · unfold concluded
    by_cases hx : x = owner
    · subst hx
      rw [hn₁] at hm
      cases hm
      have hnode := hnodes x n₂ hself
      rw [if_neg htold] at hnode
      rw [if_pos rfl]
      exact hnode
    · rw [if_neg hx]
      exact hnodes x m ((h.node?_put_of_ne hx).trans hm)

/-- Once the candidate `k` has taken over what it was offered, the owner gives it up. -/
theorem leads_conclude {owner : NodeId} {n₁ : Node} (h : o.Direct) (hrole : n.isSuperpeer = true)
    (hne : candidate ≠ owner)
    (hother : n.ring.predecessor ≠ some owner) (hk : o.node? candidate = some k)
    (hreplacement : replacement ≠ candidate)
    (hhanded : Alike Node.core (o.handedOver candidate replacement k (offer candidate n)) o₁)
    (hn₁ : o₁.node? owner = some n₁) (hview : n₁.outlook = n.outlook) :
    ∃ o₂, Leads o₁ owner (conclude candidate n.ring.superpeers.isEmpty (offer candidate n).peers
        (.ok (.promotionResult true))) (.ok ()) o₂ ∧
      Promoted owner candidate n k o o₂ := by
  have hsame : Alike Node.outlook (o.put candidate (becomeSuperpeer k (offer candidate n))) o₁ :=
    (h.put ((me_becomeSuperpeer k _).trans (h.me hk))).alike_mutateEach.trans
      (hhanded.weaken Node.outlook_of_core)
  have hring : n₁.ring = n.ring := congrArg (·.2.1) hview
  obtain ⟨o₂, hleads, hdirect, hnodes⟩ :=
    leads_splitAndTell hsame.direct hn₁ hring hne hother
  have helse : ∀ x m, x ≠ owner → o₁.node? x = some m → ∃ m', o₂.node? x = some m' ∧
      m'.outlook = (if told n = some x then m.noticeSuccessor candidate else m).outlook := by
    intro x m hx hm
    obtain ⟨m', hm', hcore⟩ := hnodes x m hm
    rw [concluded, if_neg hx] at hcore
    exact ⟨m', hm', Node.outlook_of_core hcore⟩
  refine ⟨o₂, hleads, hdirect, ?_, ?_, fun x m hxowner hxcandidate hm => ?_,
    replacement, hreplacement, fun x m hm => ?_⟩
  · obtain ⟨n', hn', hcore⟩ := hnodes owner n₁ hn₁
    rw [concluded, if_pos rfl] at hcore
    have houtlook := Node.outlook_of_core hcore
    exact ⟨n', hn', (congrArg (·.2.2) houtlook).trans ((congrArg (·.2.2) hview).trans hrole),
      (congrArg (·.2.1) houtlook).trans (congrArg (Node.splitRing · _ _ _) hring)⟩
  · obtain ⟨k₁, hk₁, hview₁⟩ := hsame.exists_node? (node?_put_self hk)
    obtain ⟨k', hk', houtlook⟩ := helse candidate k₁ hne hk₁
    have hkept : (if told n = some candidate then k₁.noticeSuccessor candidate else k₁) = k₁ := by
      split
      · rw [← hsame.direct.me hk₁]
        exact noticeSuccessor_self k₁
      · rfl
    rw [hkept, hview₁] at houtlook
    exact ⟨k', hk', congrArg (·.2.2) houtlook, congrArg (·.2.1) houtlook⟩
  · obtain ⟨m₁, hm₁, hview₁⟩ := hsame.exists_node? ((h.node?_put_of_ne hxcandidate).trans hm)
    obtain ⟨m', hm', houtlook⟩ := helse x m₁ hxowner hm₁
    refine ⟨m', hm', houtlook.trans ?_⟩
    split
    · exact Node.outlook_noticeSuccessor hview₁ candidate
    · exact hview₁
  · -- From here on nobody's directory is touched, neither the owner's nor that of the one told.
    obtain ⟨m₁, hm₁, hcore₁⟩ := hhanded.exists_node? hm
    obtain ⟨m', hm', hcore'⟩ := hnodes x m₁ hm₁
    exact ⟨m', hm', (congrArg (·.2.2) hcore').trans
      ((role_concluded candidate owner n x m₁).trans (congrArg (·.2.2) hcore₁))⟩

theorem leads_of_promoteWith {owner : NodeId} {result : Except PromotionError Unit}
    (hn : o.node? owner = some n)
    (h : Leads o owner (Task.call candidate (.promotePeer (offer candidate n) replacement) >>=
      conclude candidate n.ring.superpeers.isEmpty (offer candidate n).peers) result o₁) :
    Leads o owner (promoteWith candidate replacement) result o₁ :=
  h.congr hn (promoteWith_eq candidate replacement n).symm

/-- Nothing comes of a promotion if the candidate is no peer whose objects can be moved. -/
theorem leads_promoteWith_denied {owner : NodeId} (h : o.Direct) (hn : o.node? owner = some n)
    (hdenied : ∀ k, o.node? candidate = some k →
      k.isSuperpeer = true ∨ o.holds .handOverFails candidate = true) (replacement : NodeId) :
    ∃ error o₁, Leads o owner (promoteWith candidate replacement) (.error error) o₁ ∧
      Alike Node.core o o₁ := by
  cases hk : o.node? candidate with
  | none =>
    refine ⟨.peerUnavailable, o.put owner (n.enqueue candidate), leads_of_promoteWith hn ?_,
      .put h hn (n.me_enqueue candidate) (n.core_enqueue candidate)⟩
    refine (h.leads_call_absent hn hk).bind ?_
    exact Leads.modify_bind hn (Leads.pure (node?_put_self hn))
  | some k =>
    obtain ⟨o₁, hhandle, hsame⟩ := leads_handlePromotePeer_denied h hk (hdenied k hk)
    obtain ⟨n₁, hn₁, -⟩ := hsame.exists_node? hn
    exact ⟨.rejected, o₁, leads_of_promoteWith hn
      ((h.leads_call hn hhandle hn₁).bind (Leads.pure hn₁)), hsame⟩

/-- An owner that offers a candidate a part of its range gives it up exactly if the candidate can
take it. -/
theorem leads_promoteWith {owner : NodeId} (h : o.Direct) (hn : o.node? owner = some n)
    (hrole : n.isSuperpeer = true) (hne : candidate ≠ owner)
    (hother : n.ring.predecessor ≠ some owner) (hreplacement : replacement ≠ candidate) :
    ∃ result o₁, Leads o owner (promoteWith candidate replacement) result o₁ ∧
      PromotionOutcome owner candidate n o o₁ result ∧
      ((∃ k, Promotable o candidate k) → result = .ok ()) := by
  by_cases hcan : ∃ k, Promotable o candidate k
  · obtain ⟨k, hk, hpeer, hmoves⟩ := hcan
    obtain ⟨o₁, hhandle, hhanded⟩ :=
      leads_handlePromotePeer_moved h hk hpeer hmoves (offer candidate n) replacement
    have hsame := (h.put ((me_becomeSuperpeer k (offer candidate n)).trans
      (h.me hk))).alike_mutateEach.trans (hhanded.weaken Node.outlook_of_core)
    obtain ⟨n₁, hn₁, hview⟩ := hsame.exists_node? ((h.node?_put_of_ne hne.symm).trans hn)
    obtain ⟨o₂, hconclude, hpromoted⟩ :=
      leads_conclude h hrole hne hother hk hreplacement hhanded hn₁ hview
    exact ⟨.ok (), o₂, leads_of_promoteWith hn ((h.leads_call hn hhandle hn₁).bind hconclude),
      .promoted ⟨hk, hpeer, hmoves⟩ hpromoted, fun _ => rfl⟩
  · have hdenied : ∀ k, o.node? candidate = some k →
        k.isSuperpeer = true ∨ o.holds .handOverFails candidate = true := by
      intro k hk
      apply Decidable.byContradiction
      intro hkept
      obtain ⟨hpeer, hmoves⟩ := not_or.mp hkept
      rw [Bool.not_eq_true] at hpeer hmoves
      exact hcan ⟨k, hk, hpeer, hmoves⟩
    obtain ⟨error, o₁, hleads, hsame⟩ := leads_promoteWith_denied h hn hdenied replacement
    exact ⟨.error error, o₁, hleads, .failed hsame, fun h => absurd h hcan⟩

/-- Some element of a list that is not empty is chosen. -/
theorem leads_choose {α : Type} (hn : o.node? id = some n) {l : List α} (hl : l ≠ []) :
    ∃ a o₁, Leads o id (Task.choose l) (some a) o₁ ∧ o.SameNodes o₁ := by
  cases l with
  | nil => exact absurd rfl hl
  | cons b rest =>
    obtain ⟨x, o₁, hdraw, hsame⟩ := exists_leads_local (r := .draw) hn rfl
    have hlt : x % (b :: rest).length < (b :: rest).length := Nat.mod_lt _ (Nat.succ_pos _)
    refine ⟨(b :: rest)[x % (b :: rest).length], o₁, hdraw.bind ?_, hsame⟩
    show Leads o₁ id (pure (b :: rest)[x % (b :: rest).length]?) _ o₁
    rw [List.getElem?_eq_getElem hlt]
    exact Leads.pure ((hsame.node?_eq id).trans hn)

/-- The search for a replacement finds one if there is another local peer. -/
theorem leads_findReplacement (h : o.Direct) (hn : o.node? id = some n) (candidate : NodeId)
    (safe : Bool) :
    ∃ found o₁, Leads o id (findReplacement candidate safe) found o₁ ∧ Alike Node.core o o₁ ∧
      ((∃ x ∈ n.ring.peers, x ≠ candidate) → ∃ replacement, found = some replacement) := by
  by_cases hspare : n.ring.peers.toList.filter (· ≠ candidate) = []
  · obtain ⟨found, o₁, hleads, hsame⟩ := idle_findReplacement hn candidate safe o (.rfl h)
    refine ⟨found, o₁, hleads, hsame, ?_⟩
    rintro ⟨x, hx, hne⟩
    exact absurd (decide_eq_true hne) (List.filter_eq_nil_iff.mp hspare x hx)
  · obtain ⟨peer, o₁, hchoose, hsame⟩ := leads_choose hn hspare
    refine ⟨some peer, o₁, Leads.node_bind hn (hchoose.bind ?_), .of_sameNodes h hsame,
      fun _ => ⟨peer, rfl⟩⟩
    exact Leads.pure ((hsame.node?_eq id).trans hn)

theorem PromotionOutcome.direct {owner : NodeId} {o' : Overlay ρ}
    {result : Except PromotionError Unit} (h : PromotionOutcome owner candidate n o o' result) :
    o'.Direct := by
  cases h with
  | promoted _ hpromoted => exact hpromoted.direct
  | failed hsame => exact hsame.direct

theorem PromotionOutcome.exists_owner {owner : NodeId} {o' : Overlay ρ}
    {result : Except PromotionError Unit} (h : PromotionOutcome owner candidate n o o' result)
    (hn : o.node? owner = some n) : ∃ n', o'.node? owner = some n' := by
  cases h with
  | promoted _ hpromoted =>
    obtain ⟨n', hn', -⟩ := hpromoted.gave
    exact ⟨n', hn'⟩
  | failed hsame =>
    obtain ⟨n', hn', -⟩ := hsame.exists_node? hn
    exact ⟨n', hn'⟩

/-- A candidate takes over the same in overlays that look alike. -/
theorem alike_handedOver {k₂ : Node} {o₂ : Overlay ρ} {snapshot₂ : Snapshot}
    (candidate replacement : NodeId) (h : o.Direct) (hk : o.node? candidate = some k)
    (hk₂ : o₂.node? candidate = some k₂) (hsame : Alike Node.core o o₂) (hcore : k.core = k₂.core)
    (hsnapshot : snapshot₂ = snapshot) :
    Alike Node.core (o.handedOver candidate replacement k snapshot)
      (o₂.handedOver candidate replacement k₂ snapshot₂) := by
  have hring : k.ring = k₂.ring := congrArg (·.2.1) hcore
  have hpromoted : (becomeSuperpeer k₂ snapshot).core = (becomeSuperpeer k snapshot).core := by
    unfold becomeSuperpeer Node.core Node.me
    rw [hring, show k₂.config = k.config from congrArg (·.1) hcore.symm]
  have hbackups : (becomeSuperpeer k₂ snapshot).ring.backups candidate =
      (becomeSuperpeer k snapshot).ring.backups candidate :=
    congrArg (·.2.1.backups candidate) hpromoted
  have hme := (me_becomeSuperpeer k snapshot).trans (h.me hk)
  rw [hsnapshot, handedOver, handedOver, hbackups]
  exact (hsame.put_both h hk hme ((me_becomeSuperpeer k₂ snapshot).trans (hsame.direct.me hk₂))
    hpromoted).mutateEach (h.put hme)

/-- What went before a promotion and comes after it makes no difference to how it comes out. -/
theorem PromotionOutcome.of_alike {owner : NodeId} {n₂ : Node} {o₂ o₃ o₄ : Overlay ρ}
    {result : Except PromotionError Unit} (hdirect : o.Direct)
    (h : PromotionOutcome owner candidate n₂ o₂ o₃ result)
    (hcore : n₂.core = n.core) (hbefore : Alike Node.core o o₂) (hafter : Alike Node.core o₃ o₄) :
    PromotionOutcome owner candidate n o o₄ result := by
  have hback : Alike Node.outlook o₃ o₄ := hafter.weaken Node.outlook_of_core
  have hring : n₂.ring = n.ring := congrArg (·.2.1) hcore
  cases h with
  | failed hsame => exact .failed ((hbefore.trans hsame).trans hafter)
  | @promoted k₂ hcandidate hpromoted =>
    obtain ⟨hk₂, hpeer, hmoves⟩ := hcandidate
    obtain ⟨k, hk, hkcore⟩ := hbefore.exists_node?_back hk₂
    have hkpeer : k.isSuperpeer = false := (Node.isSuperpeer_of_core hkcore).trans hpeer
    have hkmoves := (hbefore.holds_eq .handOverFails candidate).symm.trans hmoves
    have hkring : k.ring = k₂.ring := congrArg (·.2.1) hkcore
    have hoffer := Node.offer_of_core candidate hcore
    obtain ⟨n', hn', hsuper, hn'ring⟩ := hpromoted.gave
    obtain ⟨k', hk', hksuper, hk'ring⟩ := hpromoted.took
    obtain ⟨replacement, hreplacement, hstored⟩ := hpromoted.stored
    refine .promoted ⟨hk, hkpeer, hkmoves⟩
      ⟨hafter.direct, ?_, ?_, ?_, replacement, hreplacement, ?_⟩
    · obtain ⟨n'', hn'', hview⟩ := hback.exists_node? hn'
      refine ⟨n'', hn'', (congrArg (·.2.2) hview).trans hsuper, ?_⟩
      rw [← hring, ← hoffer]
      exact (congrArg (·.2.1) hview).trans hn'ring
    · obtain ⟨k'', hk'', hview⟩ := hback.exists_node? hk'
      refine ⟨k'', hk'', (congrArg (·.2.2) hview).trans hksuper, ?_⟩
      rw [hkring, ← hoffer]
      exact (congrArg (·.2.1) hview).trans hk'ring
    · intro x m hxowner hxcandidate hm
      obtain ⟨m₂, hm₂, hmcore⟩ := hbefore.exists_node? hm
      obtain ⟨m₃, hm₃, houtlook⟩ := hpromoted.others x m₂ hxowner hxcandidate hm₂
      obtain ⟨m', hm', hview⟩ := hback.exists_node? hm₃
      have htold : told n₂ = told n := by rw [told, told, hring]
      refine ⟨m', hm', hview.trans (houtlook.trans ?_)⟩
      rw [htold]
      split
      · exact Node.outlook_noticeSuccessor (Node.outlook_of_core hmcore) candidate
      · exact Node.outlook_of_core hmcore
    · intro x m hm
      obtain ⟨m₂, hm₂, hmcore⟩ := (alike_handedOver candidate replacement hdirect hk hk₂ hbefore
        hkcore hoffer).exists_node? hm
      obtain ⟨m₃, hm₃, hrole⟩ := hstored x m₂ hm₂
      obtain ⟨m', hm', hcore'⟩ := hafter.exists_node? hm₃
      exact ⟨m', hm', (congrArg (·.2.2) hcore').trans (hrole.trans (congrArg (·.2.2) hmcore))⟩

/-- A promotion: the candidate is promoted, or nobody looks different. It is promoted if no other
promotion is running, there is another local peer and the candidate can take over. -/
theorem leads_promote {owner : NodeId} (h : o.Direct) (hn : o.node? owner = some n)
    (hrole : n.isSuperpeer = true) (hne : candidate ≠ owner)
    (hother : n.ring.predecessor ≠ some owner) (safe : Bool) :
    ∃ result o', Leads o owner (promote candidate safe) result o' ∧
      PromotionOutcome owner candidate n o o' result ∧
      (n.promoting = false → (∃ x ∈ n.ring.peers, x ≠ candidate) →
        (∃ k, Promotable o candidate k) → result = .ok ()) := by
  by_cases hbusy : n.promoting = true
  · refine ⟨.error .busy, o, Leads.node_bind hn ?_, .failed (.rfl h), fun hfree => ?_⟩
    · rw [if_neg (by simp [hrole]), if_pos hbusy]
      exact Leads.pure hn
    · rw [hbusy] at hfree
      cases hfree
  let n₁ : Node := { n with promoting := true }
  have hn₁ : (o.put owner n₁).node? owner = some n₁ := node?_put_self hn
  have hsame₁ : Alike Node.core o (o.put owner n₁) := .put h hn rfl rfl
  obtain ⟨found, o₂, hfind, hsame₂, hfound⟩ :=
    leads_findReplacement hsame₁.direct hn₁ candidate safe
  obtain ⟨n₂, hn₂, hcore⟩ := hsame₂.exists_node? hn₁
  have hcore₂ : n₂.core = n.core := hcore
  have hring₂ : n₂.ring = n.ring := congrArg (·.2.1) hcore₂
  have hbegin {result : Except PromotionError Unit} {o' : Overlay ρ}
      (hrest : Leads o₂ owner (do
        let result ← match found with
          | none => pure (.error .noReplacement)
          | some replacement => promoteWith candidate replacement
        Task.modify fun n => { n with promoting := false }
        return result) result o') : Leads o owner (promote candidate safe) result o' := by
    refine Leads.node_bind hn ?_
    rw [if_neg (by simp [hrole]), if_neg hbusy]
    exact Leads.modify_bind hn (hfind.bind hrest)
  have hclose {o' : Overlay ρ} {m : Node} (hm : o'.node? owner = some m) (hdirect : o'.Direct) :
      Alike Node.core o' (o'.put owner { m with promoting := false }) := .put hdirect hm rfl rfl
  have hbefore : Alike Node.core o o₂ := hsame₁.trans hsame₂
  cases found with
  | none =>
    refine ⟨.error .noReplacement, o₂.put owner { n₂ with promoting := false }, hbegin ?_,
      .failed (hbefore.trans (hclose hn₂ hsame₂.direct)), fun _ hspare _ => ?_⟩
    · exact (Leads.pure hn₂).bind (Leads.modify_bind hn₂ (Leads.pure (node?_put_self hn₂)))
    · obtain ⟨replacement, hreplacement⟩ := hfound hspare
      cases hreplacement
  | some replacement =>
    have hobeys : ∀ n, (findReplacement candidate safe n).Obeys (fun _ _ => True)
        fun found _ => found ≠ some candidate :=
      obeys_findReplacement (fun _ => trivial) (fun _ _ => trivial) candidate safe
    obtain ⟨-, hreplacement⟩ := hfind.of_obeys hobeys
    obtain ⟨result, o₃, hleads, houtcome, hok⟩ := leads_promoteWith hsame₂.direct hn₂
      ((Node.isSuperpeer_of_core hcore₂).trans hrole) hne (hring₂ ▸ hother)
      fun heq => hreplacement (congrArg some heq)
    obtain ⟨n₃, hn₃⟩ := houtcome.exists_owner hn₂
    refine ⟨result, o₃.put owner { n₃ with promoting := false }, hbegin ?_,
      houtcome.of_alike h hcore₂ hbefore (hclose hn₃ houtcome.direct),
      fun _ _ hcan => hok (exists_promotable_of_alike hbefore hcan)⟩
    exact hleads.bind (Leads.modify_bind hn₃ (Leads.pure (node?_put_self hn₃)))

end Overlay

end ChunkDirectory
