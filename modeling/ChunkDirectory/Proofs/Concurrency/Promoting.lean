import ChunkDirectory.Proofs.Concurrency.Promotion

/-!
# The course of a promotion

A promotion goes through stages (`Machine.Promoting`): the owner looks for a replacement, offers the
candidate its share, the candidate takes over and has its objects moved, and the owner splits its
range, or it all ends before. Each stage knows which segments came before the offer and which after
it, and what the candidate holds in terms of them.
-/

namespace ChunkDirectory

open Protocol

namespace Machine

variable {s ps : NodeSet} {owner new : NodeId} {nodes₀ nodes : NodeId → Node}
  {σ : Machine} {t : Thread} {trace before during after : List Segment} {alone : Bool}
  {snapshot : Snapshot}

/-- The owner has made an offer at the beginning of `during` and waits for the answer. -/
structure Offered (s ps : NodeSet) (owner new : NodeId) (nodes₀ : NodeId → Node)
    (before during : List Segment) (snapshot : Snapshot) (alone : Bool) (nodes : NodeId → Node)
    (trace : List Segment) : Prop extends Undivided s ps nodes trace where
  split : trace = before ++ during
  offer : ∃ g rest, during = g :: rest ∧ g.IsOffer owner new
  idle : Idle new before
  alone : alone = (nodes owner).ring.superpeers.isEmpty
  places : ∃ p, Node.Places s ps owner new p snapshot
  carries : ∀ slot, (s.insert new).Owns slot.position new →
    snapshot.Carries slot (held owner nodes₀ before slot)

/-- The candidate has taken over what it was offered. -/
abbrev TookOver (s : NodeSet) (owner new : NodeId) (nodes₀ : NodeId → Node)
    (before rest : List Segment) (nodes : NodeId → Node) : Prop :=
  Took (s.insert new) new (fun slot => slot.mark new (held owner nodes₀ before slot))
    rest (nodes new)

/-- The owner has split its range at the beginning of `after`. -/
structure Committed (s ps : NodeSet) (owner new : NodeId) (nodes₀ : NodeId → Node)
    (before during after : List Segment) (nodes : NodeId → Node) (trace : List Segment) : Prop where
  split : trace = before ++ during ++ after
  offer : ∃ g rest, during = g :: rest ∧ g.IsOffer owner new
  commit : ∃ g rest, after = g :: rest ∧ g.IsCommit owner
  idle : Idle new before
  divided : Divided s ps owner new after nodes
  took : TookOver s owner new nodes₀ before (during ++ after) nodes

/-- The owner, waiting for the candidate's answer. -/
def awaiting (owner new : NodeId) (alone : Bool) (moved : List NodeId) : Frame :=
  ⟨owner, fun reply => conclude new alone moved reply >>= endPromotion⟩

/-! ## What the threads do next -/

section

variable {S : NodeSet} {f : Frame} {replacement : NodeId} {was n : Node}

/-- The search ends without a replacement, or the owner makes its offer, or the search goes on. -/
theorem search_or (htame : t.Tame S (Offers new) owner []) (hme : (σ.nodes owner).me = owner)
    (x : Oracle) :
    σ.Quiet S t ∧
      ((∃ reply, σ.next t x = .inl reply) ∨
        (∃ n replacement, n.core = (σ.nodes owner).core ∧ t.node = owner ∧
          (σ.segment t).asked = some (.call new (.promotePeer (offer new n) replacement)) ∧
          σ.next t x = .inr (.arrival owner new (.promotePeer (offer new n) replacement)
            [awaiting owner new n.ring.superpeers.isEmpty (offer new n).peers])) ∨
        ∃ t', σ.next t x = .inr t' ∧ t'.Tame S (Offers new) owner []) := by
  rcases htame.step (σ := σ) x with ⟨rfl, hcallers, hcue, hgoal⟩ | ⟨hquiet, hnext⟩
  case inr => exact ⟨hquiet, .inr (.inr hnext)⟩
  have hquiet {n : Node} (hcore : n.core = (σ.nodes t.node).core)
      (hn : (t.task (σ.nodes t.node)).state = n) : σ.Quiet S t :=
    quiet_of_silent hcue (hn ▸ hcore)
  rcases hgoal with ⟨reply, n, hp, hcore, -⟩ | ⟨replacement, n, hcore, hp⟩
  · refine ⟨hquiet hcore (by rw [hp]; rfl), .inl ⟨reply, ?_⟩⟩
    rw [next, hp, Thread.next, hcallers]
  · refine ⟨hquiet hcore (by rw [hp]; rfl), .inr (.inl ⟨n, replacement, hcore, rfl, ?_, ?_⟩)⟩
    · show (t.task (σ.nodes t.node)).asked = _
      rw [hp]
      rfl
    · have hnme : n.me = t.node := by
        rw [Node.me, (Node.evolves_of_core hcore).ring]
        exact hme
      have hcall : t.next x ((promoteWith new replacement n).bind endPromotion) =
          .inr (.arrival n.me new (.promotePeer (offer new n) replacement)
            (awaiting t.node new n.ring.superpeers.isEmpty (offer new n).peers :: t.callers)) := rfl
      rw [next, hp, hcall, hnme, hcallers]

/-- The candidate takes over what it is offered and has its objects moved. -/
theorem next_promotePeer (hrole : (σ.nodes new).isSuperpeer = false)
    (ht : t = .arrival owner new (.promotePeer snapshot replacement) [f]) (x : Oracle) :
    (t.task (σ.nodes new)).state = becomeSuperpeer (σ.nodes new) snapshot ∧
      σ.next t x = .inr ⟨new, .answer (.handOver replacement) x.flag,
        settle (σ.nodes new) replacement x.flag, [f]⟩ := by
  have hp : t.task (σ.nodes new) = .wait (becomeSuperpeer (σ.nodes new) snapshot)
      (.handOver replacement) (settle (σ.nodes new) replacement) := by
    rw [ht]
    exact handlePromotePeer_eq snapshot replacement hrole
  refine ⟨by rw [hp]; rfl, ?_⟩
  have hnode : t.node = new := by rw [ht]; rfl
  rw [next, hnode, hp, ht]
  rfl

/-- The candidate's objects were moved, and it goes on to tell everyone. -/
theorem settle_or (hrole : (σ.nodes new).isSuperpeer = true) (hproper : (σ.nodes new).Proper S)
    (hself : (σ.nodes new).me = new) (hme : was.me = new)
    (ht : t = ⟨new, .answer (.handOver replacement) true, settle was replacement true, [f]⟩)
    (x : Oracle) : σ.Quiet S t ∧ σ.Answers S new f (.promotionResult true) t x := by
  have hprimary := Node.isPrimaryFor_me hrole
  rw [hself] at hprimary
  have hnode : t.node = new := by rw [ht]
  have hcallers : t.callers = [f] := by rw [ht]
  have hcue : t.cue = .answer (.handOver replacement) true := by rw [ht]
  have htask : t.task = settle was replacement true := by rw [ht]
  subst hme
  have htame := tame_settle was replacement hrole hproper hprimary
  rw [← htask] at htame
  clear ht
  rw [← hnode] at htame hrole ⊢
  have hquiet (hcore : (t.task (σ.nodes t.node)).state.core =
      ((σ.nodes t.node).mutate (.updateAll t.node replacement)).core) :
      σ.Quiet S t := quiet_of_handOver hcue hrole hcore
  rcases htame.next rfl hcallers x with ⟨reply, n, hp, hcore, rfl⟩ | ⟨hcore, hnext⟩
  · refine ⟨hquiet (by rw [hp]; exact hcore), .inl ?_⟩
    rw [next, hp, Thread.next, hcallers]
  · exact ⟨hquiet hcore, .inr hnext⟩

theorem next_tell_none (hcallers : t.callers = []) (x : Oracle) :
    t.next x ((tell new none >>= endPromotion) n) = .inl (.promotionResult true) := by
  show t.next x (.done _ _) = _
  rw [Thread.next, hcallers]
  rfl

theorem next_tell_some (new old : NodeId) (n : Node) (x : Oracle) :
    ∃ resume : Except NetError Message → Task Message,
      t.next x ((tell new (some old) >>= endPromotion) n) =
        .inr (notice n.me new old (⟨t.node, resume⟩ :: t.callers)) ∧
      ∀ reply, (resume (.ok reply)).Tame S (Replies fun _ => True) :=
  ⟨_, rfl, fun _ _ => .goal ⟨_, _, rfl, rfl, trivial⟩⟩

end

/-! ## Stages -/

/-- The stages of a promotion. -/
inductive Promoting (s ps : NodeSet) (owner new : NodeId) (nodes₀ : NodeId → Node) :
    Option Thread → (NodeId → Node) → List Segment → Prop
  | searching {t : Thread} {nodes : NodeId → Node} {trace : List Segment} :
      t.Tame (s.insert new) (Offers new) owner [] → Undivided s ps nodes trace →
      (nodes new).isSuperpeer = false → Idle new trace →
      Promoting s ps owner new nodes₀ (some t) nodes trace
  | offered {nodes : NodeId → Node} {trace before during : List Segment} {snapshot : Snapshot}
      {alone : Bool} (replacement : NodeId) :
      Offered s ps owner new nodes₀ before during snapshot alone nodes trace →
      (nodes new).isSuperpeer = false → Idle new during →
      Promoting s ps owner new nodes₀
        (some (.arrival owner new (.promotePeer snapshot replacement)
          [awaiting owner new alone snapshot.peers])) nodes trace
  | moving {nodes : NodeId → Node} {trace before during : List Segment} {snapshot : Snapshot}
      {alone : Bool} {was : Node} (replacement : NodeId) (moved : Bool) :
      Offered s ps owner new nodes₀ before during snapshot alone nodes trace →
      TookOver s owner new nodes₀ before during nodes → was.isSuperpeer = false → was.me = new →
      Promoting s ps owner new nodes₀
        (some ⟨new, .answer (.handOver replacement) moved, settle was replacement moved,
          [awaiting owner new alone snapshot.peers]⟩) nodes trace
  | moved {t : Thread} {nodes : NodeId → Node} {trace before during : List Segment}
      {snapshot : Snapshot} {alone : Bool} :
      Offered s ps owner new nodes₀ before during snapshot alone nodes trace →
      TookOver s owner new nodes₀ before during nodes →
      t.Tame (s.insert new) (Replies (· = .promotionResult true)) new
        [awaiting owner new alone snapshot.peers] →
      Promoting s ps owner new nodes₀ (some t) nodes trace
  | decided {nodes : NodeId → Node} {trace before during : List Segment} {snapshot : Snapshot}
      {alone : Bool} :
      Offered s ps owner new nodes₀ before during snapshot alone nodes trace →
      TookOver s owner new nodes₀ before during nodes →
      Promoting s ps owner new nodes₀
        (some ⟨owner, .reply (.promotionResult true),
          (awaiting owner new alone snapshot.peers).resume (.ok (.promotionResult true)), []⟩)
        nodes trace
  | noticing {nodes : NodeId → Node} {trace before during after : List Segment} {old : NodeId}
      {resume : Except NetError Message → Task Message} :
      Committed s ps owner new nodes₀ before during after nodes trace → s.Before owner old →
      (∀ reply, (resume (.ok reply)).Tame (s.insert new) (Replies fun _ => True)) →
      Promoting s ps owner new nodes₀ (some (notice owner new old [⟨owner, resume⟩])) nodes trace
  | committed {operation : Option Thread} {nodes : NodeId → Node}
      {trace before during after : List Segment} :
      Committed s ps owner new nodes₀ before during after nodes trace →
      (∀ t, operation = some t → Closes (s.insert new) owner t) →
      Promoting s ps owner new nodes₀ operation nodes trace
  | failed {operation : Option Thread} {nodes : NodeId → Node} {trace : List Segment} :
      Undivided s ps nodes trace → (nodes new).isSuperpeer = false →
      (∀ t, operation = some t → Closes (s.insert new) owner t) →
      Promoting s ps owner new nodes₀ operation nodes trace

/-- Either the range is split, or nothing has changed, and the candidate is a peer in the end. -/
theorem Promoting.split_or {operation : Option Thread}
    (h : Promoting s ps owner new nodes₀ operation nodes trace) :
    (∃ before during after, Committed s ps owner new nodes₀ before during after nodes trace) ∨
      Undivided s ps nodes trace ∧ (operation = none → (nodes new).isSuperpeer = false) := by
  cases h with
  | searching _ h hrole => exact .inr ⟨h, fun _ => hrole⟩
  | offered _ h hrole => exact .inr ⟨h.toUndivided, fun _ => hrole⟩
  | moving _ _ h => exact .inr ⟨h.toUndivided, fun hover => by cases hover⟩
  | moved h => exact .inr ⟨h.toUndivided, fun hover => by cases hover⟩
  | decided h => exact .inr ⟨h.toUndivided, fun hover => by cases hover⟩
  | noticing h => exact .inl ⟨_, _, _, h⟩
  | committed h => exact .inl ⟨_, _, _, h⟩
  | failed h hrole => exact .inr ⟨h, fun _ => hrole⟩

/-! ## Quiet steps -/

theorem Offered.advance
    (h : Offered s ps owner new nodes₀ before during snapshot alone σ.nodes σ.trace)
    (hsettles : Settles s σ t) (howner : owner ∈ s) :
    Offered s ps owner new nodes₀ before (during ++ [σ.segment t]) snapshot alone
      (σ.advance t).nodes (σ.advance t).trace := by
  obtain ⟨g, rest, hduring, hg⟩ := h.offer
  refine ⟨h.toUndivided.advance hsettles, ?_, ⟨g, rest ++ [σ.segment t], ?_, hg⟩, h.idle, ?_,
    h.places, h.carries⟩
  · show σ.trace ++ [σ.segment t] = _
    rw [h.split, List.append_assoc]
  · rw [hduring]
    rfl
  · rw [hsettles.ring owner howner]
    exact h.alone

theorem Committed.advance (h : Committed s ps owner new nodes₀ before during after σ.nodes σ.trace)
    (hsteady : Steady s ps new nodes₀ σ.nodes σ.trace) (howner : owner ∈ s)
    (hevolves : ∀ x, x = owner ∨ x = new →
      (σ.nodes x).Evolves ((σ.advance t).nodes x) (appliedBy x [σ.segment t])) :
    Committed s ps owner new nodes₀ before during (after ++ [σ.segment t]) (σ.advance t).nodes
      (σ.advance t).trace := by
  obtain ⟨g, rest, hafter, hg⟩ := h.commit
  refine ⟨?_, h.offer, ⟨g, rest ++ [σ.segment t], ?_, hg⟩, h.idle,
    h.divided.advance hsteady howner (hevolves owner (.inl rfl)), ?_⟩
  · show σ.trace ++ [σ.segment t] = _
    rw [h.split, List.append_assoc]
  · rw [hafter]
    rfl
  · rw [← List.append_assoc]
    exact h.took.advance (hsteady.me new) (NodeSet.mem_insert.mpr (.inl rfl))
      (hevolves new (.inr rfl))

/-- A promotion remains at its stage while others go on quietly. -/
theorem Promoting.quiet {operation : Option Thread} (he : Entrance s owner new)
    (hsteady : Steady s ps new nodes₀ σ.nodes σ.trace)
    (h : Promoting s ps owner new nodes₀ operation σ.nodes σ.trace)
    (hquiet : σ.Quiet (s.insert new) t) :
    Promoting s ps owner new nodes₀ operation (σ.advance t).nodes (σ.advance t).trace := by
  have howner := he.owns.1
  have hsettles : Settles s σ t := hquiet.settles
  have hevolves := hquiet.evolves new
  have htook {content : (slot : Slot) → Option slot.Content} {rest : List Segment}
      (h : Took (s.insert new) new content rest (σ.nodes new)) :=
    h.advance (hsteady.me new) (NodeSet.mem_insert.mpr (.inl rfl)) hevolves
  cases h with
  | searching htame hundivided hrole hidle =>
    exact .searching htame (hundivided.advance hsettles) (hevolves.role.trans hrole)
      (hidle.append (hquiet.idle hrole))
  | offered replacement hoffered hrole hidle =>
    exact .offered replacement (hoffered.advance hsettles howner) (hevolves.role.trans hrole)
      (hidle.append (hquiet.idle hrole))
  | moving replacement moved hoffered htookOver hwas hme =>
    exact .moving replacement moved (hoffered.advance hsettles howner) (htook htookOver) hwas hme
  | moved hoffered htookOver htame =>
    exact .moved (hoffered.advance hsettles howner) (htook htookOver) htame
  | decided hoffered htookOver =>
    exact .decided (hoffered.advance hsettles howner) (htook htookOver)
  | noticing hcommitted hold hresume =>
    exact .noticing (hcommitted.advance hsteady howner fun x _ => hquiet.evolves x) hold hresume
  | committed hcommitted hcloses =>
    exact .committed (hcommitted.advance hsteady howner fun x _ => hquiet.evolves x) hcloses
  | failed hundivided hrole hcloses =>
    exact .failed (hundivided.advance hsettles) (hevolves.role.trans hrole) hcloses

/-! ## Steps of the promotion -/

/-- The owner makes an offer. -/
theorem Undivided.offered (he : Entrance s owner new)
    (hsteady : Steady s ps new nodes₀ σ.nodes σ.trace)
    (hundivided : Undivided s ps σ.nodes σ.trace) (hidle : Idle new σ.trace)
    (hquiet : σ.Quiet (s.insert new) t) (hnode : t.node = owner) {n : Node} {replacement : NodeId}
    (hcore : n.core = (σ.nodes owner).core)
    (hasked : (σ.segment t).asked = some (.call new (.promotePeer (offer new n) replacement))) :
    Offered s ps owner new nodes₀ σ.trace [σ.segment t] (offer new n) n.ring.superpeers.isEmpty
      (σ.advance t).nodes (σ.advance t).trace := by
  have howner := he.owns.1
  have hsame := Node.evolves_of_core hcore
  have hme : n.me = owner := by
    rw [Node.me, hsame.ring]
    exact hsteady.me owner
  have hformed : n.ring.Formed s ps := by
    rw [hsame.ring]
    exact hundivided.formed owner howner
  obtain ⟨p, hoffer, hplaces⟩ := Node.exists_offer_eq hformed (hme.symm ▸ he.owns) he.fresh
  rw [hme] at hplaces
  refine ⟨hundivided.advance hquiet.settles, rfl, ⟨_, [], rfl, hnode, _, _, hasked⟩, hidle, ?_,
    ⟨p, hplaces⟩, ?_⟩
  · rw [(hquiet.evolves owner).ring, hsame.ring]
  · intro slot hown
    rw [hoffer, held, ← hsteady.content owner howner]
    have hread := hsame.read (hsteady.role owner howner) slot
    rw [Slot.replay_nil] at hread
    rw [← hread]
    exact Node.carries_snapshotFor (hsame.keyed (hsteady.keyed owner howner)) he.fresh
      (fun x hx => (hformed.listed x hx).1) hown

/-- The search goes on, or the owner makes an offer. -/
theorem Promoting.search (he : Entrance s owner new)
    (hsteady : Steady s ps new nodes₀ σ.nodes σ.trace)
    (htame : t.Tame (s.insert new) (Offers new) owner [])
    (hundivided : Undivided s ps σ.nodes σ.trace) (hrole : (σ.nodes new).isSuperpeer = false)
    (hidle : Idle new σ.trace) (x : Oracle) :
    σ.Continues s ps new nodes₀ (Promoting s ps owner new nodes₀) t x := by
  obtain ⟨hquiet, hnext⟩ := search_or htame (hsteady.me owner) x
  have hsteady' := hsteady.quiet he.fresh hquiet
  have hundivided' := hundivided.advance hquiet.settles
  have hrole' := (hquiet.evolves new).role.trans hrole
  have hidle' := hquiet.idle hrole
  rcases hnext with ⟨reply, hnext⟩ | ⟨n, replacement, hcore, hnode, hasked, hnext⟩ |
    ⟨t', ht', htame'⟩
  · exact .of_next hnext hsteady' (.failed hundivided' hrole' fun t' ht' => by cases ht')
  · exact .of_next hnext hsteady' (.offered replacement
      (hundivided.offered he hsteady hidle hquiet hnode hcore hasked) hrole' hidle')
  · exact .of_next ht' hsteady' (.searching htame' hundivided' hrole' (hidle.append hidle'))

/-- The candidate takes over what it was offered. -/
theorem Offered.takeOver (he : Entrance s owner new)
    (hsteady : Steady s ps new nodes₀ σ.nodes σ.trace)
    (h : Offered s ps owner new nodes₀ before during snapshot alone σ.nodes σ.trace)
    (hrole : (σ.nodes new).isSuperpeer = false) (hidle : Idle new during) {replacement : NodeId}
    (ht : t = .arrival owner new (.promotePeer snapshot replacement)
      [awaiting owner new alone snapshot.peers]) (x : Oracle) :
    σ.Continues s ps new nodes₀ (Promoting s ps owner new nodes₀) t x := by
  obtain ⟨p, hplaces⟩ := h.places
  obtain ⟨hme, htook⟩ := took_becomeSuperpeer he hplaces h.carries (hsteady.me new)
  have hnode : t.node = new := by rw [ht]; rfl
  have hcue : t.cue = .message owner (.promotePeer snapshot replacement) := by rw [ht]; rfl
  have hhandled : (σ.segment t).handled? = none := handled?_of_message hcue
  obtain ⟨hstate, hnext⟩ := next_promotePeer hrole ht x
  have hsettles := settles_of_new (σ := σ) he hnode (by rw [hcue]; rfl)
  constructor
  · refine hsteady.renew he.fresh hnode hhandled (by rw [hstate]; exact hme) ?_
    rw [hstate]
    exact Node.proper_of_pointed htook.pointed
      (by rw [hme]; exact NodeSet.mem_insert.mpr (.inl rfl))
  · rw [hnext]
    refine .moving replacement x.flag (h.advance hsettles he.owns.1) ?_ hrole (hsteady.me new)
    have hself : (σ.advance t).nodes new = becomeSuperpeer (σ.nodes new) snapshot := by
      rw [← hstate, ← hnode]
      exact nodes_advance_self
    refine Took.of_idle (hself ▸ htook) (hidle.append fun g hg hgnode => ?_)
    rw [List.mem_singleton.mp hg]
    exact applied?_of_message hcue

/-- The candidate, which took over its share, goes on quietly, or answers. -/
theorem Offered.answered (he : Entrance s owner new)
    (hsteady : Steady s ps new nodes₀ σ.nodes σ.trace)
    (h : Offered s ps owner new nodes₀ before during snapshot alone σ.nodes σ.trace)
    (htook : TookOver s owner new nodes₀ before during σ.nodes) {x : Oracle}
    (hanswers : σ.Quiet (s.insert new) t ∧ σ.Answers (s.insert new) new
      (awaiting owner new alone snapshot.peers) (.promotionResult true) t x) :
    σ.Continues s ps new nodes₀ (Promoting s ps owner new nodes₀) t x := by
  obtain ⟨hquiet, hnext⟩ := hanswers
  have hsteady' := hsteady.quiet he.fresh hquiet
  have hoffered := h.advance hquiet.settles he.owns.1
  have htook' := htook.advance (hsteady.me new) (NodeSet.mem_insert.mpr (.inl rfl))
    (hquiet.evolves new)
  rcases hnext with hnext | ⟨t', ht', htame'⟩
  · exact .of_next hnext hsteady' (.decided hoffered htook')
  · exact .of_next ht' hsteady' (.moved hoffered htook' htame')

/-- The candidate's objects could not be moved, and it becomes the peer it was. -/
theorem Offered.reverted (he : Entrance s owner new)
    (hsteady : Steady s ps new nodes₀ σ.nodes σ.trace)
    (h : Offered s ps owner new nodes₀ before during snapshot alone σ.nodes σ.trace)
    {was : Node} {replacement : NodeId} (hwas : was.isSuperpeer = false) (hme : was.me = new)
    (ht : t = ⟨new, .answer (.handOver replacement) false, settle was replacement false,
      [awaiting owner new alone snapshot.peers]⟩) (x : Oracle) :
    σ.Continues s ps new nodes₀ (Promoting s ps owner new nodes₀) t x := by
  subst ht
  refine ⟨hsteady.renew he.fresh rfl rfl hme (Node.proper_of_peer ?_), ?_⟩
  · exact hwas
  · have hsettles := settles_of_new (σ := σ) he (t := ⟨new, .answer (.handOver replacement) false,
      settle was replacement false, [awaiting owner new alone snapshot.peers]⟩) rfl rfl
    refine .failed (h.toUndivided.advance hsettles) ?_ fun t' ht' => ?_
    · rw [nodes_advance_self]
      exact hwas
    · cases ht'
      refine .home rfl fun n => .goal ⟨_, _, rfl, rfl, trivial⟩

/-- The owner's view when it splits its range. -/
theorem Offered.splitRing_formed (he : Entrance s owner new)
    (hsteady : Steady s ps new nodes₀ σ.nodes σ.trace)
    (h : Offered s ps owner new nodes₀ before during snapshot alone σ.nodes σ.trace) {n : Node}
    (hn : n.ring = Node.splitRing (σ.nodes owner).ring snapshot.peers new alone) :
    n.me = owner ∧ n.ring.Formed (s.insert new) ps := by
  obtain ⟨p, hplaces⟩ := h.places
  have hsplit := Node.formed_splitRing he (hsteady.me owner) (h.formed owner he.owns.1) hplaces
    h.alone
  rw [← hn] at hsplit
  exact hsplit

/-- The owner splits its range. -/
theorem Offered.committed (he : Entrance s owner new)
    (hsteady : Steady s ps new nodes₀ σ.nodes σ.trace)
    (h : Offered s ps owner new nodes₀ before during snapshot alone σ.nodes σ.trace)
    (htook : TookOver s owner new nodes₀ before during σ.nodes) (hnode : t.node = owner)
    (hcue : t.cue = .reply (.promotionResult true))
    (hcore : (t.task (σ.nodes owner)).state.core =
      ((σ.nodes owner).mapRing fun r => Node.splitRing r snapshot.peers new alone).core) :
    Steady s ps new nodes₀ (σ.advance t).nodes (σ.advance t).trace ∧
      Committed s ps owner new nodes₀ before during [σ.segment t] (σ.advance t).nodes
        (σ.advance t).trace := by
  have howner := he.owns.1
  have hhandled : (σ.segment t).handled? = none := handled?_of_reply hcue
  subst hnode
  obtain ⟨hme, hformed⟩ := h.splitRing_formed he hsteady (Node.evolves_of_core hcore).ring
  refine ⟨hsteady.reshape he.fresh howner hhandled (applied?_of_reply hcue) hme
    (congrArg (·.2.2) hcore) hformed, ?_, h.offer, ⟨_, [], rfl, rfl, hcue⟩, h.idle,
    ⟨?_, fun g hg _ m hm => ?_⟩, ?_⟩
  · show σ.trace ++ [σ.segment t] = _
    rw [h.split]
  · rw [nodes_advance_self]
    exact hformed
  · rw [List.mem_singleton.mp hg, Segment.Accepts, hhandled] at hm
    cases hm
  · exact htook.advance (hsteady.me new) (NodeSet.mem_insert.mpr (.inl rfl))
      (evolves_of_ne (Ne.symm (he.ne howner)))

/-- The owner splits its range and tells the superpeer before it, if there is one. -/
theorem Offered.commit (he : Entrance s owner new)
    (hsteady : Steady s ps new nodes₀ σ.nodes σ.trace)
    (h : Offered s ps owner new nodes₀ before during snapshot alone σ.nodes σ.trace)
    (htook : TookOver s owner new nodes₀ before during σ.nodes)
    (ht : t = ⟨owner, .reply (.promotionResult true),
      (awaiting owner new alone snapshot.peers).resume (.ok (.promotionResult true)), []⟩)
    (x : Oracle) :
    σ.Continues s ps new nodes₀ (Promoting s ps owner new nodes₀) t x := by
  have hnode : t.node = owner := by rw [ht]
  have hcallers : t.callers = [] := by rw [ht]
  have hcue : t.cue = .reply (.promotionResult true) := by rw [ht]
  have hp : t.task (σ.nodes owner) =
      (tell new (σ.nodes owner).ring.predecessor >>= endPromotion)
        ((σ.nodes owner).mapRing fun r => Node.splitRing r snapshot.peers new alone) := by
    rw [← (h.formed owner he.owns.1).predecessor_of_isEmpty, ← h.alone, ht]
    exact conclude_accepted ..
  have hsplit := h.committed he hsteady htook hnode hcue
  have hnext : σ.next t x = t.next x (t.task (σ.nodes owner)) := by rw [next, hnode]
  cases hpredecessor : (σ.nodes owner).ring.predecessor with
  | none =>
    rw [hp, hpredecessor] at hsplit hnext
    obtain ⟨hsteady', hcommitted⟩ := hsplit rfl
    exact .of_next (hnext.trans (next_tell_none hcallers x)) hsteady'
      (.committed hcommitted fun t' ht' => by cases ht')
  | some old =>
    rw [hp, hpredecessor] at hsplit hnext
    obtain ⟨hsteady', hcommitted⟩ := hsplit rfl
    obtain ⟨resume, hsend, hresume⟩ := next_tell_some (t := t) (S := s.insert new) new old
      ((σ.nodes owner).mapRing fun r => Node.splitRing r snapshot.peers new alone) x
    rw [(h.splitRing_formed he hsteady rfl).1, hnode, hcallers] at hsend
    exact .of_next (hnext.trans hsend) hsteady' (.noticing hcommitted
      (h.before_of_predecessor he.owns.1 (hsteady.me owner) hpredecessor) hresume)

/-- The superpeer before the owner is told. -/
theorem Committed.noticed (he : Entrance s owner new)
    (hsteady : Steady s ps new nodes₀ σ.nodes σ.trace)
    (h : Committed s ps owner new nodes₀ before during after σ.nodes σ.trace) {old : NodeId}
    (hold : s.Before owner old) {resume : Except NetError Message → Task Message}
    (hresume : ∀ reply, (resume (.ok reply)).Tame (s.insert new) (Replies fun _ => True))
    (ht : t = notice owner new old [⟨owner, resume⟩]) (x : Oracle) :
    σ.Continues s ps new nodes₀ (Promoting s ps owner new nodes₀) t x := by
  subst ht
  refine ⟨hsteady.notice he hold _, ?_⟩
  rw [next_notice]
  refine .committed (h.advance hsteady he.owns.1 fun y hy => evolves_of_ne ?_) fun t' ht' => ?_
  · rcases hy with rfl | rfl
    · exact Ne.symm hold.2.1
    · exact Ne.symm (he.ne hold.1)
  · cases ht'
    exact .home rfl (hresume .ack)

/-- The stages of a promotion follow each other. -/
theorem promoting_kept (he : Entrance s owner new) :
    Kept s ps new nodes₀ (Promoting s ps owner new nodes₀) := by
  refine ⟨fun σ t x hsteady h => ?_,
    fun σ t operation hsteady h hquiet => h.quiet he hsteady hquiet⟩
  generalize hoperation : some t = operation at h
  cases h with
  | searching htame hundivided hrole hidle =>
    cases hoperation
    exact Promoting.search he hsteady htame hundivided hrole hidle x
  | offered replacement hoffered hrole hidle =>
    cases hoperation
    exact hoffered.takeOver he hsteady hrole hidle rfl x
  | moving replacement moved hoffered htook hwas hme =>
    cases hoperation
    cases moved with
    | true =>
      exact hoffered.answered he hsteady htook
        (settle_or htook.role hsteady.proper (hsteady.me new) hme rfl x)
    | false => exact hoffered.reverted he hsteady hwas hme rfl x
  | moved hoffered htook htame =>
    cases hoperation
    exact hoffered.answered he hsteady htook (answers_of_tame htame x)
  | decided hoffered htook =>
    cases hoperation
    exact hoffered.commit he hsteady htook rfl x
  | noticing hcommitted hold hresume =>
    cases hoperation
    exact hcommitted.noticed he hsteady hold hresume rfl x
  | committed hcommitted hcloses =>
    obtain ⟨hquiet, hnext⟩ := (hcloses t hoperation.symm).step x
    have hcommitted' := hcommitted.advance hsteady he.owns.1 fun x _ => hquiet.evolves x
    exact ⟨hsteady.quiet he.fresh hquiet, .committed hcommitted' hnext⟩
  | failed hundivided hrole hcloses =>
    obtain ⟨hquiet, hnext⟩ := (hcloses t hoperation.symm).step x
    exact ⟨hsteady.quiet he.fresh hquiet,
      .failed (hundivided.advance hquiet.settles) ((hquiet.evolves new).role.trans hrole) hnext⟩

end Machine

end ChunkDirectory
