import ChunkDirectory.Proofs.Overlay.Grown

/-!
# Walks of a newcomer

A newcomer asks one superpeer after the other until it comes to the owner of its position. All that
is seen of it is a walk: calls that are redirected, each to a superpeer nearer to the newcomer, then
one that admits it, with the note that goes to the superpeer before the owner
(`Grown.does_followRedirects`).
-/

namespace ChunkDirectory

open NodeId

/-- An answer that admits a newcomer in its role. -/
def Message.accepts (isSuperpeer : Bool) : Message → Bool
  | .joinAccepted _ => isSuperpeer
  | .joinAcceptedPeer _ => !isSuperpeer
  | _ => false

namespace Overlay

variable {ρ : Type} {o o₁ : Overlay ρ} {r : Membership} {new contact p : NodeId} {n m : Node}
  {isSuperpeer : Bool} {events : List (Event ρ)}

/-- A note of a newcomer that `contact` sent to the superpeer before it. -/
def IsNotice (contact new : NodeId) (e : Event ρ) : Prop :=
  ∃ old, e = .sent contact old (.notifyAboutNewSuccessor new) (.ok ())

/-- What is seen of a newcomer that asks `contacts` one after the other. All but the last redirect
it, each to a superpeer that comes sooner after the newcomer's position; the last admits it. -/
inductive Walk (s : NodeSet) (new : NodeId) (isSuperpeer : Bool) :
    List NodeId → List (Event ρ) → Prop
  | admitted {contact : NodeId} {reply : Message} {notices : List (Event ρ)} :
      contact ∈ s → reply.accepts isSuperpeer = true → (∀ e ∈ notices, IsNotice contact new e) →
      Walk s new isSuperpeer [contact]
        (.called new contact (.join new isSuperpeer) (.ok reply) :: notices)
  | redirected {contact next : NodeId} {rest : List NodeId} {events : List (Event ρ)} :
      contact ∈ s → clockwise new next < clockwise new contact →
      Walk s new isSuperpeer (next :: rest) events →
      Walk s new isSuperpeer (contact :: next :: rest)
        (.called new contact (.join new isSuperpeer) (.ok (.joinRedirect next)) :: events)

namespace Walk

variable {s : NodeSet} {contacts : List NodeId}

/-- On a walk the newcomer comes nearer and nearer. -/
theorem nearer (h : Walk s new isSuperpeer contacts events) :
    contacts.Pairwise fun a b => clockwise new b < clockwise new a := by
  induction h with
  | admitted => exact List.pairwise_singleton _ _
  | redirected _ hnear _ ih =>
    refine List.pairwise_cons.mpr ⟨fun y hy => ?_, ih⟩
    rcases List.mem_cons.mp hy with rfl | hy
    · exact hnear
    · exact Nat.lt_trans ((List.pairwise_cons.mp ih).1 y hy) hnear

/-- A walk comes nowhere twice. -/
theorem nodup (h : Walk s new isSuperpeer contacts events) : contacts.Nodup := by
  refine h.nearer.imp fun hlt heq => ?_
  rw [heq] at hlt
  exact Nat.lt_irrefl _ hlt

end Walk

/-! ## What the superpeers do -/

/-- A superpeer decides about a newcomer, makes room for it and answers. -/
theorem does_join {admission : Admission} {reply : Message} (hn : o.node? contact = some n)
    (hrole : n.isSuperpeer = true) (hne : new ≠ n.me)
    (hwelcome : n.welcome new isSuperpeer = (admission, m))
    (hrest : Does (o.put contact m) contact (Protocol.admissionReply new admission) reply o₁
      events) :
    Does o contact (Protocol.handleMessage new (.join new isSuperpeer)) reply o₁ events := by
  have hmutation : (Message.join new isSuperpeer).mutation? = none := rfl
  unfold Protocol.handleMessage
  rw [hmutation]
  apply Does.node_bind hn
  unfold Protocol.handleJoin
  apply Does.node_bind hn
  rw [hrole, if_neg (by simp), if_neg hne, hwelcome]
  apply Does.modify_bind hn
  match admission with
  | .redirect _ => exact hrest
  | .peer _ => exact hrest
  | .superpeer _ none => exact hrest
  | .superpeer _ (some _) => exact hrest

/-- The superpeers have made room for a newcomer, and nothing else has changed. -/
structure Welcomed (r : Membership) (new : NodeId) (isSuperpeer : Bool) (o o₁ : Overlay ρ) : Prop
    extends Calm o₁ where
  superpeer : ∀ x ∈ r.superpeers, ∃ n, o₁.node? x = some n ∧ n.isSuperpeer = true ∧
    n.ring.Formed (r.join new isSuperpeer).superpeers (r.join new isSuperpeer).peers
  others : ∀ x, x ∉ r.superpeers → o₁.node? x = o.node? x

namespace Grown

/-- Fresh identifiers may be listed by everyone else. -/
theorem admits (h : o.Grown r) (hfresh : r.Fresh new) (hn : o.node? contact = some n)
    (hcontact : contact ∈ r.superpeers) : n.ring.admits new = true := by
  have hme : n.ring.me = contact := h.me hn
  refine Ring.admits_iff.mpr ⟨fun heq => hfresh.notSuperpeer ?_, hfresh.valid⟩
  rw [heq, hme]
  exact hcontact

/-- A superpeer that does not own a newcomer's position redirects it to a nearer one. -/
theorem does_join_elsewhere (h : o.Grown r) (hfresh : r.Fresh new)
    (hcontact : contact ∈ r.superpeers) (hnot : ¬ r.superpeers.Owns new contact)
    (isSuperpeer : Bool) :
    ∃ next, Does o contact (Protocol.handleMessage new (.join new isSuperpeer))
        (.joinRedirect next) o [] ∧
      next ∈ r.superpeers ∧ clockwise new next < clockwise new contact := by
  obtain ⟨n, hn, hrole, hformed⟩ := h.superpeer contact hcontact
  have hme : n.me = contact := h.me hn
  have hne := (Ring.admits_iff.mp (h.admits hfresh hn hcontact)).1
  obtain ⟨next, hwelcome, hnext, hnear⟩ := Node.welcome_redirect hformed
    (by rw [hme]; exact hcontact) (by rw [hme]; exact hnot) isSuperpeer
  refine ⟨next, does_join hn hrole hne hwelcome ?_, hnext, by rw [hme] at hnear; exact hnear⟩
  rw [put_of_node? hn]
  exact Does.pure hn

/-- The owner of a peer's position lists it. -/
theorem does_join_peer (h : o.Grown r) (hfresh : r.Fresh new)
    (hown : r.superpeers.Owns new contact) :
    ∃ superpeers o₁, Does o contact (Protocol.handleMessage new (.join new false))
        (.joinAcceptedPeer superpeers) o₁ [] ∧ Welcomed r new false o o₁ := by
  obtain ⟨n, hn, hrole, hformed⟩ := h.superpeer contact hown.1
  have hme : n.me = contact := h.me hn
  have hadmits := h.admits hfresh hn hown.1
  have hne := (Ring.admits_iff.mp hadmits).1
  obtain ⟨n', hwelcome, hme', hrole', hformed'⟩ :=
    Node.welcome_peer hformed (by rw [hme]; exact hown) hadmits
  have hafter : (o.put contact n').node? contact = some n' := node?_put_self hn
  refine ⟨_, _, does_join hn hrole hne hwelcome (Does.pure hafter), h.put (hme'.trans hme), ?_, ?_⟩
  · intro x hx
    by_cases heq : x = contact
    · subst heq
      exact ⟨n', hafter, hrole'.trans hrole, hformed'⟩
    · obtain ⟨m, hm, hmrole, hmformed⟩ := h.superpeer x hx
      refine ⟨m, by rw [h.node?_put_of_ne heq]; exact hm, hmrole, ?_⟩
      have hmme : m.ring.me = x := h.me hm
      refine hmformed.insert_peer_elsewhere fun howns => heq ?_
      rw [hmme] at howns
      exact howns.unique hown
  · intro x hx
    exact h.node?_put_of_ne fun heq => hx (heq ▸ hown.1)

/-- The superpeer before the owner takes note of a newcomer. -/
theorem does_notice (sender new : NodeId) (hn : o.node? p = some n) :
    Does o p (Protocol.handleMessage sender (.notifyAboutNewSuccessor new)) .ack
      (o.put p (n.noticeSuccessor new)) [] := by
  have hmutation : (Message.notifyAboutNewSuccessor new).mutation? = none := rfl
  unfold Protocol.handleMessage
  rw [hmutation]
  refine Does.node_bind hn (Does.modify_bind hn ?_)
  exact Does.pure (node?_put_self hn)

/-- Once the owner has split its range, only the superpeer before it lacks the newcomer. -/
theorem superpeer_split (h : o.Grown r) (hfresh : r.Fresh new)
    (hown : r.superpeers.Owns new contact) (hn : o.node? contact = some n)
    (hrole : m.isSuperpeer = true) (hformed : m.ring.Formed (r.superpeers.insert new) r.peers)
    {x : NodeId} (hx : x ∈ r.superpeers) (hnot : ¬ r.superpeers.Before contact x) :
    ∃ k, (o.put contact m).node? x = some k ∧ k.isSuperpeer = true ∧
      k.ring.Formed (r.superpeers.insert new) r.peers := by
  by_cases hxc : x = contact
  · subst hxc
    exact ⟨m, node?_put_self hn, hrole, hformed⟩
  · obtain ⟨k, hk, hkrole, hkformed⟩ := h.superpeer x hx
    have hkme : k.ring.me = x := h.me hk
    refine ⟨k, by rw [h.node?_put_of_ne hxc]; exact hk, hkrole, ?_⟩
    refine hkformed.insert_elsewhere ?_ hown hfresh.notSuperpeer ?_ ?_
    · rw [hkme]
      exact hx
    · rw [hkme]
      exact hxc
    · rw [hkme]
      exact hnot

/-- The superpeer before the owner can be told of the newcomer, and then sees the ring that has it. -/
theorem superpeer_noticed {old : NodeId} (h : o.Grown r) (hfresh : r.Fresh new)
    (hown : r.superpeers.Owns new contact) (hbefore : r.superpeers.Before contact old) :
    ∃ m, o.node? old = some m ∧ (m.noticeSuccessor new).me = old ∧
      (m.noticeSuccessor new).isSuperpeer = true ∧
      (m.noticeSuccessor new).ring.Formed (r.superpeers.insert new) r.peers := by
  obtain ⟨m, hm, hmrole, hmformed⟩ := h.superpeer old hbefore.1
  have hmme : m.me = old := h.me hm
  obtain ⟨hmme', hmrole', hmformed'⟩ := Node.noticeSuccessor_formed hmformed hmrole
    (by rw [hmme]; exact hbefore.1) hown hfresh.notSuperpeer (by rw [hmme]; exact hbefore)
    (h.admits hfresh hm hbefore.1)
  exact ⟨m, hm, hmme'.trans hmme, hmrole'.trans hmrole, hmformed'⟩

/-- The owner of a superpeer's position gives it its place and has the superpeer before told. -/
theorem does_join_superpeer (h : o.Grown r) (hfresh : r.Fresh new)
    (hown : r.superpeers.Owns new contact) :
    ∃ snapshot p o₁ notices, Does o contact (Protocol.handleMessage new (.join new true))
        (.joinAccepted snapshot) o₁ notices ∧ (∀ e ∈ notices, IsNotice contact new e) ∧
      Node.Places r.superpeers r.peers contact new p snapshot ∧ Welcomed r new true o o₁ := by
  obtain ⟨n, hn, hrole, hformed⟩ := h.superpeer contact hown.1
  have hme : n.me = contact := h.me hn
  have hadmits := h.admits hfresh hn hown.1
  have hne := (Ring.admits_iff.mp hadmits).1
  obtain ⟨n', p, hwelcome, hplaces, hme', hsame, hformed'⟩ :=
    Node.welcome_superpeer hformed (by rw [hme]; exact hown) hfresh.notSuperpeer hadmits
  have hrole' : n'.isSuperpeer = true := (Node.isSuperpeer_congr hsame).trans hrole
  rw [hme] at hplaces
  have hafter : (o.put contact n').node? contact = some n' := node?_put_self hn
  have hcalm : (o.put contact n').Calm := h.put (hme'.trans hme)
  have hsplit {x : NodeId} (hx : x ∈ r.superpeers) (hnot : ¬ r.superpeers.Before contact x) :=
    h.superpeer_split hfresh hown hn hrole' hformed' hx hnot
  cases hp : n.ring.predecessor with
  | none =>
    rw [hp] at hwelcome
    refine ⟨_, p, _, [], does_join hn hrole hne hwelcome (Does.pure hafter), ?_, hplaces, hcalm,
      fun x hx => hsplit hx fun hbefore => ?_, ?_⟩
    · intro e he
      cases he
    · exact hbefore.2.1 ((hformed.eq_me hp hx).trans hme)
    · intro x hx
      exact h.node?_put_of_ne fun heq => hx (heq ▸ hown.1)
  | some old =>
    rw [hp] at hwelcome
    have hbefore : r.superpeers.Before contact old := by
      have hbefore := (hformed.predecessor old).mp hp
      rw [show n.ring.me = contact from hme] at hbefore
      exact hbefore
    obtain ⟨m, hm, hmme, hmrole, hmformed⟩ := h.superpeer_noticed hfresh hown hbefore
    have hm₁ : (o.put contact n').node? old = some m := by
      rw [h.node?_put_of_ne hbefore.2.1]
      exact hm
    have hself : ((o.put contact n').put old (m.noticeSuccessor new)).node? old =
        some (m.noticeSuccessor new) := node?_put_self hm₁
    have hother : ∀ x, x ≠ old → ((o.put contact n').put old (m.noticeSuccessor new)).node? x =
        (o.put contact n').node? x := fun x hx => hcalm.node?_put_of_ne hx
    have hafter₂ := (hother contact (Ne.symm hbefore.2.1)).trans hafter
    have hsend := Does.send hcalm hafter (does_notice contact new hm₁) hafter₂
    refine ⟨_, p, _, _, does_join hn hrole hne hwelcome (hsend.bind (Does.pure hafter₂)), ?_,
      hplaces, hcalm.put hmme, ?_, ?_⟩
    · intro e he
      simp only [List.nil_append, List.mem_singleton] at he
      exact ⟨old, he⟩
    · intro x hx
      by_cases hxold : x = old
      · subst hxold
        exact ⟨_, hself, hmrole, hmformed⟩
      · rw [hother x hxold]
        exact hsplit hx fun hxbefore => hxold (hxbefore.unique hbefore)
    · intro x hx
      rw [hother x fun heq => hx (heq ▸ hbefore.1)]
      exact h.node?_put_of_ne fun heq => hx (heq ▸ hown.1)

end Grown

/-! ## What the newcomer does -/

/-- Starting an upkeep worker changes nothing but the workers. -/
theorem Does.startWorker (hn : o.node? p = some n) :
    ∃ workers, Does o p (Task.ask .startWorker) () { o with workers } [] := by
  obtain ⟨member, hmember, hnode⟩ := node?_eq_some_iff.mp hn
  refine ⟨(o.startWorker member.node n).workers, ?_⟩
  refine Does.ask (r := .startWorker) (x := ()) hmember hnode ?_ rfl hnode
  refine Ends.succ (fun _ => by rw [answer]) ?_
  exact Ends.change (f := (·.startWorker member.node n)) fun _ => rfl

/-- The newcomer has joined when it has taken its place. -/
theorem Welcomed.enter (hwelcomed : Welcomed r new isSuperpeer o o₁) (h : o.Grown r)
    (hfresh : r.Fresh new) (hn : o.node? new = some n) (hme : m.me = new)
    (hrole : m.isSuperpeer = isSuperpeer)
    (hformed : isSuperpeer = true →
      m.ring.Formed (r.join new isSuperpeer).superpeers (r.join new isSuperpeer).peers) :
    (o₁.put new m).Grown (r.join new isSuperpeer) := by
  have hself : (o₁.put new m).node? new = some m :=
    node?_put_self ((hwelcomed.others new hfresh.notSuperpeer).trans hn)
  have hother : ∀ x, x ≠ new → (o₁.put new m).node? x = o₁.node? x :=
    fun x hx => hwelcomed.node?_put_of_ne hx
  have hold : ∀ x ∈ r.superpeers, ∃ k, (o₁.put new m).node? x = some k ∧ k.isSuperpeer = true ∧
      k.ring.Formed (r.join new isSuperpeer).superpeers (r.join new isSuperpeer).peers := by
    intro x hx
    rw [hother x fun heq => hfresh.notSuperpeer (heq ▸ hx)]
    exact hwelcomed.superpeer x hx
  have hpeers : ∀ x ∈ r.peers, ∃ k, (o₁.put new m).node? x = some k ∧ k.isSuperpeer = false := by
    intro x hx
    obtain ⟨k, hk, hkrole⟩ := h.peer x hx
    have hnot : x ∉ r.superpeers := by
      intro hxs
      obtain ⟨k', hk', hkrole', -⟩ := h.superpeer x hxs
      rw [hk] at hk'
      cases hk'
      rw [hkrole] at hkrole'
      cases hkrole'
    rw [hother x fun heq => hfresh.notPeer (heq ▸ hx), hwelcomed.others x hnot]
    exact ⟨k, hk, hkrole⟩
  refine ⟨hwelcomed.put hme, ?_, ?_, ?_, ?_⟩
  · obtain ⟨x, hx⟩ := h.inhabited
    exact ⟨x, Membership.mem_superpeers_join hx⟩
  · intro x hx
    rcases Membership.mem_join.mp hx with rfl | hx
    · exact hfresh.valid
    · exact h.valid x hx
  · cases isSuperpeer with
    | true =>
      intro x hx
      rcases NodeSet.mem_insert.mp hx with rfl | hx
      · exact ⟨m, hself, hrole, hformed rfl⟩
      · exact hold x hx
    | false => exact hold
  · cases isSuperpeer with
    | true => exact hpeers
    | false =>
      intro x hx
      rcases NodeSet.mem_insert.mp hx with rfl | hx
      · exact ⟨m, hself, hrole⟩
      · exact hpeers x hx

namespace Grown

variable {attempt : JoinAttempt}

theorem workers (h : o.Grown r) (workers : List Worker) :
    ({ o with workers } : Overlay ρ).Grown r :=
  ⟨⟨h.rules, h.queue, h.up, h.numbered⟩, h.inhabited, h.valid, h.superpeer, h.peer⟩

/-- Who has joined is running. -/
theorem exists_newcomer (h : o.Grown (r.join new isSuperpeer)) : ∃ n, o.node? new = some n := by
  rcases Membership.mem_join.mpr (.inl rfl) with hin | hin
  · obtain ⟨n, hn, -⟩ := h.superpeer new hin
    exact ⟨n, hn⟩
  · obtain ⟨n, hn, -⟩ := h.peer new hin
    exact ⟨n, hn⟩

/-- The owner of the newcomer's position admits it. -/
theorem does_askAdmission_owner (h : o.Grown r) (hfresh : r.Fresh new) (hn : o.node? new = some n)
    (hrole : n.isSuperpeer = attempt.isSuperpeer) (hown : r.superpeers.Owns new contact) :
    ∃ reply notices o₁, Does o new (Protocol.askAdmission attempt contact) (.ended .joined) o₁
        (notices ++ [.called new contact (.join new attempt.isSuperpeer) (.ok reply)]) ∧
      reply.accepts attempt.isSuperpeer = true ∧ (∀ e ∈ notices, IsNotice contact new e) ∧
      o₁.Grown (r.join new attempt.isSuperpeer) := by
  have hme : n.me = new := h.me hn
  cases hkind : attempt.isSuperpeer with
  | true =>
    obtain ⟨snapshot, p, o₁, notices, hjoin, hnotices, hplaces, hwelcomed⟩ :=
      h.does_join_superpeer hfresh hown
    have hn₁ : o₁.node? new = some n := (hwelcomed.others new hfresh.notSuperpeer).trans hn
    obtain ⟨hme', hrole', hformed'⟩ := Node.install_formed hplaces hown hfresh.notSuperpeer
      hfresh.notPeer h.valid hme
    have hentered : (o₁.put new (n.install snapshot)).Grown (r.join new true) :=
      hwelcomed.enter h hfresh hn hme' (hrole'.trans (hrole.trans hkind)) fun _ => hformed'
    have hself : (o₁.put new (n.install snapshot)).node? new = some (n.install snapshot) :=
      node?_put_self hn₁
    obtain ⟨workers, hstart⟩ := Does.startWorker hself
    refine ⟨.joinAccepted snapshot, notices, _, ?_, rfl, hnotices, hentered.workers workers⟩
    unfold Protocol.askAdmission
    apply Does.node_bind hn
    rw [hme, hkind]
    refine (Does.call h.toCalm hn hjoin hn₁).bind_silent ?_
    exact Does.modify_bind hn₁ (hstart.map (f := fun _ => Protocol.JoinStep.ended .joined) hself)
  | false =>
    obtain ⟨superpeers, o₁, hjoin, hwelcomed⟩ := h.does_join_peer hfresh hown
    have hn₁ : o₁.node? new = some n := (hwelcomed.others new hfresh.notSuperpeer).trans hn
    have hentered : (o₁.put new (n.attach contact superpeers)).Grown (r.join new false) := by
      refine hwelcomed.enter h hfresh hn ((Node.me_attach _ _).trans hme) ?_ ?_
      · exact (Node.isSuperpeer_attach _ _).trans (hrole.trans hkind)
      · intro hfalse
        cases hfalse
    refine ⟨.joinAcceptedPeer superpeers, [], _, ?_, rfl, ?_, hentered⟩
    · unfold Protocol.askAdmission
      apply Does.node_bind hn
      rw [hme, hkind]
      refine (Does.call h.toCalm hn hjoin hn₁).bind_silent ?_
      exact Does.modify_bind hn₁ (Does.pure (node?_put_self hn₁))
    · intro e he
      cases he

/-- Every other superpeer redirects the newcomer. -/
theorem does_askAdmission_elsewhere (h : o.Grown r) (hfresh : r.Fresh new)
    (hn : o.node? new = some n) (hcontact : contact ∈ r.superpeers)
    (hnot : ¬ r.superpeers.Owns new contact) (attempt : JoinAttempt) :
    ∃ next, Does o new (Protocol.askAdmission attempt contact) (.redirected next) o
        [.called new contact (.join new attempt.isSuperpeer) (.ok (.joinRedirect next))] ∧
      next ∈ r.superpeers ∧ clockwise new next < clockwise new contact := by
  obtain ⟨next, hjoin, hnext, hnear⟩ :=
    h.does_join_elsewhere hfresh hcontact hnot attempt.isSuperpeer
  refine ⟨next, ?_, hnext, hnear⟩
  unfold Protocol.askAdmission
  apply Does.node_bind hn
  rw [h.me hn]
  exact (Does.call h.toCalm hn hjoin hn).bind_silent (Does.pure hn)

/-- At the owner of its position the newcomer's walk ends. -/
theorem does_followRedirects_owner (h : o.Grown r) (hfresh : r.Fresh new)
    (hn : o.node? new = some n) (hrole : n.isSuperpeer = attempt.isSuperpeer)
    (hown : r.superpeers.Owns new contact) (redirects : Nat) :
    ∃ events o₁, Does o new (Protocol.followRedirects attempt contact redirects) .joined o₁
        events ∧
      Walk r.superpeers new attempt.isSuperpeer [contact] events.reverse ∧
      o₁.Grown (r.join new attempt.isSuperpeer) := by
  obtain ⟨reply, notices, o₁, hask, haccepts, hnotices, hgrown⟩ :=
    h.does_askAdmission_owner hfresh hn hrole hown
  obtain ⟨n₁, hn₁⟩ := hgrown.exists_newcomer
  refine ⟨notices ++ [.called new contact (.join new attempt.isSuperpeer) (.ok reply)], o₁, ?_, ?_,
    hgrown⟩
  · cases redirects with
    | zero => exact hask.bind_silent (Does.pure hn₁)
    | succ _ => exact hask.bind_silent (Does.pure hn₁)
  · rw [List.reverse_append]
    exact .admitted hown.1 haccepts fun e he => hnotices e (List.mem_reverse.mp he)

/-- The newcomer walks to the owner of its position. As many redirects as there are superpeers on
the way suffice. -/
theorem does_followRedirects (h : o.Grown r) (hfresh : r.Fresh new) (hn : o.node? new = some n)
    (hrole : n.isSuperpeer = attempt.isSuperpeer) (hcontact : contact ∈ r.superpeers)
    (redirects : Nat) (hredirects : r.superpeers.rank new contact ≤ redirects) :
    ∃ rest events o₁, Does o new (Protocol.followRedirects attempt contact redirects) .joined o₁
        events ∧
      Walk r.superpeers new attempt.isSuperpeer (contact :: rest) events.reverse ∧
      o₁.Grown (r.join new attempt.isSuperpeer) := by
  induction redirects generalizing contact with
  | zero =>
    have hown : r.superpeers.Owns new contact := by
      refine Classical.byContradiction fun hnot => ?_
      obtain ⟨next, -, hnext, hnear⟩ :=
        h.does_join_elsewhere hfresh hcontact hnot attempt.isSuperpeer
      have hlt := NodeSet.rank_lt hnext hnear
      omega
    obtain ⟨events, o₁, hdoes, hwalk, hgrown⟩ :=
      h.does_followRedirects_owner hfresh hn hrole hown 0
    exact ⟨[], events, o₁, hdoes, hwalk, hgrown⟩
  | succ redirects ih =>
    by_cases hown : r.superpeers.Owns new contact
    · obtain ⟨events, o₁, hdoes, hwalk, hgrown⟩ :=
        h.does_followRedirects_owner hfresh hn hrole hown (redirects + 1)
      exact ⟨[], events, o₁, hdoes, hwalk, hgrown⟩
    · obtain ⟨next, hask, hnext, hnear⟩ :=
        h.does_askAdmission_elsewhere hfresh hn hcontact hown attempt
      have hlt := NodeSet.rank_lt hnext hnear
      have hne : next ≠ contact := fun heq => Nat.lt_irrefl _ (heq ▸ hnear)
      obtain ⟨rest, events, o₁, hdoes, hwalk, hgrown⟩ :=
        ih hnext (by omega)
      refine ⟨next :: rest, events ++ [.called new contact (.join new attempt.isSuperpeer)
        (.ok (.joinRedirect next))], o₁, hask.bind ?_, ?_, hgrown⟩
      · simp only [if_neg hne]
        exact hdoes
      · rw [List.reverse_append]
        exact .redirected hcontact hnear hwalk

/-- Joining succeeds at the first attempt. -/
theorem does_joinOverlay (h : o.Grown r) (hfresh : r.Fresh new) (hn : o.node? new = some n)
    (hcontact : n.ring.bootstrap ∈ r.superpeers)
    (hroom : r.superpeers.size ≤ n.config.expectedSuperpeers) :
    ∃ rest events o₁, Does o new Protocol.joinOverlay (.ok ()) o₁ events ∧
      Walk r.superpeers new n.isSuperpeer (n.ring.bootstrap :: rest) events.reverse ∧
      o₁.Grown (r.join new n.isSuperpeer) := by
  have hme : n.me = new := h.me hn
  have hne : n.ring.bootstrap ≠ n.me := by
    rw [hme]
    exact fun heq => hfresh.notSuperpeer (heq ▸ hcontact)
  have hrank : r.superpeers.rank new n.ring.bootstrap < r.superpeers.size :=
    NodeSet.rank_lt_size hcontact
  let attempt : JoinAttempt := ⟨n.ring.bootstrap, n.isSuperpeer, 0⟩
  have hrole : n.isSuperpeer = attempt.isSuperpeer := rfl
  obtain ⟨rest, events, o₁, hdoes, hwalk, hgrown⟩ := h.does_followRedirects hfresh hn hrole hcontact
    (max n.config.expectedSuperpeers 1) (by omega)
  obtain ⟨n₁, hn₁⟩ := hgrown.exists_newcomer
  have hattempt : Does o new (Routine.join attempt).task (.ok ()) o₁ events := by
    show Does o new (Protocol.attemptJoin attempt) (.ok ()) o₁ events
    unfold Protocol.attemptJoin
    apply Does.node_bind hn
    exact hdoes.bind_silent (Does.pure hn₁)
  refine ⟨rest, events, o₁, ?_, hwalk, hgrown⟩
  unfold Protocol.joinOverlay
  apply Does.node_bind hn
  rw [if_neg hne]
  exact hattempt.routine hn₁

end Grown

end Overlay

end ChunkDirectory
