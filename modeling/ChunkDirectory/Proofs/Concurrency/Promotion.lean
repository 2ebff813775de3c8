import ChunkDirectory.Proofs.Concurrency.Share
import ChunkDirectory.Protocol.Promotion

/-!
# A promotion among requests

A promotion searches for a replacement, offers the candidate its share, waits for its answer and
then splits its range.
-/

namespace ChunkDirectory

namespace Protocol

/-- A promotion as an operation of its own. -/
def promotion (candidate : NodeId) (safe : Bool) : Task Message := do
  return .promotionResult (← promote candidate safe).toBool

/-- What is left to do when a promotion has come to a result. -/
def endPromotion (result : Except PromotionError Unit) : Task Message := do
  Task.modify fun n => { n with promoting := false }
  return .promotionResult result.toBool

/-- Tells the superpeer before, if there is one, of the candidate. -/
def tell (candidate : NodeId) : Option NodeId → Task (Except PromotionError Unit)
  | none => return .ok ()
  | some old => do
    match ← Task.send old (.notifyAboutNewSuccessor candidate) with
    | .ok () => return .ok ()
    | .error _ =>
      Task.enqueue old
      return .ok ()

/-- What the superpeer makes of the candidate's answer. -/
def conclude (candidate : NodeId) (alone : Bool) (moved : List NodeId) :
    Except NetError Message → Task (Except PromotionError Unit)
  | .ok (.promotionResult true) => do
    let n ← Task.node
    let old := if alone then none else n.ring.predecessor
    Task.modifyRing fun r => Node.splitRing r moved candidate alone
    tell candidate old
  | .ok _ => return .error .rejected
  | .error _ => do
    Task.enqueue candidate
    return .error .peerUnavailable

/-- The snapshot that a superpeer offers a candidate. -/
def offer (candidate : NodeId) (n : Node) : Snapshot :=
  n.snapshotFor (if n.ring.superpeers.isEmpty then n.me else n.ring.predecessor.getD n.me) candidate

/-- An accepted offer: the range is split, and the superpeer before is told. -/
theorem conclude_accepted (candidate : NodeId) (alone : Bool) (moved : List NodeId) (n : Node) :
    (conclude candidate alone moved (.ok (.promotionResult true)) >>= endPromotion) n =
      (tell candidate (if alone then none else n.ring.predecessor) >>= endPromotion)
        (n.mapRing fun r => Node.splitRing r moved candidate alone) := rfl

/-- What the candidate does when its objects were moved or not. -/
def settle (was : Node) (replacement : NodeId) (moved : Bool) : Task Message := do
  if moved then
    let _ ← mutate (.updateAll was.me replacement) false
    let _ ← Task.ask .startWorker
    return .promotionResult true
  else
    Task.modify fun now => { now with ring := was.ring, role := was.role }
    return .promotionResult false

theorem handlePromotePeer_eq (snapshot : Snapshot) (replacement : NodeId) {n : Node}
    (h : n.isSuperpeer = false) :
    handlePromotePeer snapshot replacement n =
      .wait (becomeSuperpeer n snapshot) (.handOver replacement) (settle n replacement) := by
  show (if n.isSuperpeer then _ else _ : Task Message) n = _
  rw [h]
  rfl

/-- A thread comes to an offer to the candidate, or the promotion is over. -/
def Offers (candidate : NodeId) (n : Node) (p : Progress Message) : Prop :=
  Replies (fun _ => True) n p ∨
    ∃ replacement n', n'.core = n.core ∧
      p = (promoteWith candidate replacement n').bind endPromotion

section

variable {S : NodeSet} {goal : Node → Progress Message → Prop}

theorem tame_choose {α : Type} (l : List α) {rest : Option α → Task Message}
    (h : ∀ found, (rest found).Tame S goal) : (Task.choose l >>= rest).Tame S goal := by
  intro n
  cases l with
  | nil => exact h none n
  | cons a l => exact .ask rfl rfl fun x next => h _ next

/-- The search for a replacement is tame if what follows is. -/
theorem tame_searchReplacement (candidate : NodeId) (superpeers : List NodeId) (tries : Nat)
    {rest : Option NodeId → Task Message} (h : ∀ found, (rest found).Tame S goal) :
    (searchReplacement candidate superpeers tries >>= rest).Tame S goal := by
  induction tries with
  | zero => exact h none
  | succ tries ih =>
    intro n
    show (((Task.choose superpeers n).bind _).bind rest).Tame S goal n
    rw [Progress.bind_bind]
    refine tame_choose superpeers (fun found => ?_) n
    cases found with
    | none => exact h none
    | some contact =>
      intro n
      refine .call rfl (.inl rfl) fun reply next => ?_
      cases reply with
      | foundPeer peer =>
        cases peer with
        | none => exact ih next
        | some peer =>
          show (((if peer ≠ candidate then return some peer
            else searchReplacement candidate superpeers tries) : Task (Option NodeId)) next |>.bind
              rest).Tame S goal next
          by_cases hpeer : peer = candidate
          · rw [if_neg (not_not_intro hpeer)]
            exact ih next
          · rw [if_pos hpeer]
            exact h (some peer) next
      | _ => exact ih next

theorem tame_findReplacement (candidate : NodeId) (safe : Bool)
    {rest : Option NodeId → Task Message} (h : ∀ found, (rest found).Tame S goal) :
    (findReplacement candidate safe >>= rest).Tame S goal := by
  intro n
  show (((Task.choose (n.ring.peers.toList.filter (· ≠ candidate)) n).bind _).bind
    rest).Tame S goal n
  rw [Progress.bind_bind]
  refine tame_choose _ (fun found => ?_) n
  cases found with
  | some peer => exact h (some peer)
  | none =>
    cases safe with
    | true => exact fun next => tame_searchReplacement candidate _ _ h next
    | false => exact h none

/-- A promotion leads to an offer or is over. -/
theorem tame_promotion (candidate : NodeId) (safe : Bool) :
    (promotion candidate safe).Tame S (Offers candidate) := by
  intro n
  have hover (flag : Bool) :
      Progress.Tame S (Offers candidate) n (.done (.promotionResult flag) n) :=
    .goal (.inl (.done trivial))
  show (((if !n.isSuperpeer then _ else if n.promoting then _ else _ : Task _) n).bind _).Tame S
    (Offers candidate) n
  by_cases hrole : n.isSuperpeer = true
  · by_cases hbusy : n.promoting = true
    · rw [if_neg (by simp [hrole]), if_pos hbusy]
      exact hover false
    · rw [if_neg (by simp [hrole]), if_neg hbusy]
      show (((findReplacement candidate safe { n with promoting := true }).bind _).bind _).Tame S
        (Offers candidate) n
      rw [Progress.bind_bind]
      refine (tame_findReplacement candidate safe (fun found => ?_)
        { n with promoting := true }).congr rfl fun hgoal => hgoal
      intro next
      cases found with
      | none => exact .goal (.inl ⟨_, _, rfl, rfl, trivial⟩)
      | some replacement =>
        refine .goal (.inr ⟨replacement, next, rfl, ?_⟩)
        exact Progress.bind_bind _ _ _
  · rw [if_pos (by simp [hrole])]
    exact hover false

end

end Protocol

open Protocol

/-! ## A superpeer's range -/

namespace Node

variable {s ps : NodeSet} {n : Node} {new p : NodeId}

/-- A superpeer claims its own position. -/
theorem isPrimaryFor_me (hrole : n.isSuperpeer = true) : n.isPrimaryFor n.me = true := by
  simp only [isPrimaryFor, primaryArea, hrole, if_true]
  cases n.ring.predecessor with
  | none => rfl
  | some p =>
    show Arc.contains ⟨p, n.me, .upperClosed⟩ n.me = true
    by_cases hp : p = n.me
    · rw [hp]
      exact Arc.mem_upperClosed_self _ _
    · rw [Arc.mem_upperClosed_iff hp, NodeId.clockwise_self]
      exact NodeId.clockwise_pos hp

/-- The owner splits its range for a newcomer it has made an offer to. -/
theorem formed_splitRing {owner : NodeId} {snapshot : Snapshot} {alone : Bool}
    (he : Entrance s owner new) (hme : n.me = owner) (hformed : n.ring.Formed s ps)
    (hplaces : Places s ps owner new p snapshot) (halone : alone = n.ring.superpeers.isEmpty) :
    (splitRing n.ring snapshot.peers new alone).me = owner ∧
      (splitRing n.ring snapshot.peers new alone).Formed (s.insert new) ps := by
  subst hme halone
  exact splitRing_formed hformed he.owns he.fresh (he.admits he.owns.1) hplaces

/-- The offer to a candidate in the owner's range is the snapshot for the place it will have. -/
theorem exists_offer_eq (h : n.ring.Formed s ps) (hown : s.Owns new n.me) (hnew : new ∉ s) :
    ∃ p, offer new n = n.snapshotFor p new ∧ Places s ps n.me new p (offer new n) := by
  obtain ⟨p, hmember, hbefore, -, hp⟩ := exists_before_newcomer h hown hnew
  have hoffer : offer new n = n.snapshotFor p new := by rw [offer, hp]
  exact ⟨p, hoffer, hoffer ▸ places_snapshotFor h hown hmember hbefore⟩

/-- A candidate holds what it is given, its own tree marked. -/
theorem read_becomeSuperpeer (n : Node) {snapshot : Snapshot} {slot : Slot}
    {content : Option slot.Content} (hcarries : snapshot.Carries slot content) :
    (becomeSuperpeer n snapshot).read slot = slot.mark n.me content := by
  have hread := hcarries .empty
  rw [Directory.read_empty, Option.or_none] at hread
  rw [← hread]
  exact Slot.read_mark n.me ⟨TreeTable.empty.insertAll snapshot.trees, _⟩

end Node

/-! ## The candidate -/

namespace Machine

variable {s ps : NodeSet} {owner new p : NodeId} {n : Node} {snapshot : Snapshot}
  {content : (slot : Slot) → Option slot.Content}

/-- The candidate takes over its share, its own tree marked. -/
theorem took_becomeSuperpeer (he : Entrance s owner new)
    (hplaces : Node.Places s ps owner new p snapshot)
    (hcarries : ∀ slot, (s.insert new).Owns slot.position new →
      snapshot.Carries slot (content slot))
    (hme : n.me = new) :
    (becomeSuperpeer n snapshot).me = new ∧
      Took (s.insert new) new (fun slot => slot.mark new (content slot)) []
        (becomeSuperpeer n snapshot) := by
  obtain ⟨hme', hpointed⟩ := he.adopt_pointed hplaces (r := n.ring) hme
  refine ⟨hme', rfl, hpointed, fun slot hown => ?_, fun g hg => by cases hg⟩
  show (becomeSuperpeer n snapshot).read slot = slot.mark new (content slot)
  rw [← hme]
  exact Node.read_becomeSuperpeer n (hcarries slot hown)

/-- Once the objects are moved, everyone who keeps a copy is told. -/
theorem tame_settle {S : NodeSet} (was : Node) (replacement : NodeId)
    (hrole : n.isSuperpeer = true) (hproper : n.Proper S)
    (hprimary : n.isPrimaryFor (Mutation.updateAll was.me replacement).key = true) :
    (settle was replacement true n).Tame S (Replies (· = .promotionResult true))
      (n.mutate (.updateAll was.me replacement)) := by
  obtain ⟨d, hd⟩ := Node.exists_directory hrole
  have hrest : Task.Tame S (Replies (· = .promotionResult true))
      (do let _ ← Task.ask .startWorker; return .promotionResult true) :=
    fun next => .ask rfl rfl fun _ next => .goal (.done rfl)
  have hcopies := tame_copyTo (m := .updateAll was.me replacement) (fun _ => rfl)
    (hproper hrole _ hprimary) hrest (n.mutate (.updateAll was.me replacement))
  have happlied : ((Mutation.updateAll was.me replacement).apply d).2 = .applied := rfl
  show ((mutate (.updateAll was.me replacement) false n).bind _).Tame S _ _
  rw [mutate_of_superpeer _ false hd, if_neg Bool.false_ne_true, if_pos hprimary, if_pos happlied]
  show (((copyTo _ (Node.ring _ |>.backups (Node.me _)) _).bind _).bind _).Tame S _ _
  rw [Node.ring_mutate, Node.me_mutate, Progress.bind_bind]
  exact hcopies

end Machine

end ChunkDirectory
