import ChunkDirectory.Proofs.Overlay.Complete
import ChunkDirectory.Proofs.Protocol.Candidate
import ChunkDirectory.Proofs.Protocol.Reached
import ChunkDirectory.Proofs.Ring.Formed

/-!
# What a promotion makes of a range

A superpeer that promotes one of its peers gives up the part of its range that lies before that
peer. The new ring is exact around the two, and each peer is listed on one side, if the candidate
lies in the range (`Overlay.Divided`). Nothing in a promotion asks for that: a notice moves the
predecessor of a superpeer without a look at its peers, so that some of them may lie outside the
range afterwards, and a promotion of one of these goes through all the same.
-/

namespace ChunkDirectory

open Protocol

namespace NodeSet

variable {s : NodeSet} {new owner id : NodeId}

/-- What the owner of the newcomer's position owned is owned by one of the two. -/
theorem Owns.owns_iff_or (hown : s.Owns new owner) (hnew : new ∉ s) :
    s.Owns id owner ↔ (s.insert new).Owns id new ∨ (s.insert new).Owns id owner := by
  rw [owns_insert_iff hnew hown.1]
  constructor
  · intro hold
    by_cases hgiven : (s.insert new).Owns id new
    · exact .inl hgiven
    · exact .inr ⟨hold, hgiven⟩
  · rintro (hgiven | ⟨hkept, -⟩)
    · exact owns_of_newcomer_owns hown hgiven
    · exact hkept

/-- Nothing is owned by both. -/
theorem Owns.not_owns_both (hown : s.Owns new owner) (hnew : new ∉ s) :
    ¬ ((s.insert new).Owns id new ∧ (s.insert new).Owns id owner) := by
  rintro ⟨hgiven, hkept⟩
  exact ((owns_insert_iff hnew hown.1).mp hkept).2 hgiven

end NodeSet

namespace Ring

variable {s : NodeSet} {r : Ring} {new owner q : NodeId}

/-- A superpeer with neighbours that is told of a node in front of its successor. -/
theorem noted_eq (hq : r.successor = some q) (hne : q ≠ new) (hme : new ≠ r.me)
    (hbetween : Arc.contains ⟨r.me, q, .strict⟩ new = true) (hp : r.predecessor ≠ none) :
    r.noted new = r.setSuccessor (some new) := by
  have hkept : (r.setSuccessor (some new)).predecessor = r.predecessor := by
    obtain ⟨t, ht, -⟩ := setSuccessor_shape r (some new)
    rw [ht]
  have hother : r.successor ≠ some new := by rw [hq]; exact fun h => hne (Option.some.inj h)
  unfold noted
  rw [if_neg hme, if_pos (by simp [hq, hbetween, hne])]
  refine if_neg ?_
  rw [hkept, Option.isNone_iff_eq_none]
  exact hp

/-- The member before the owner takes the newcomer for its successor when it is told of it. -/
theorem Pointed.noted_eq_setSuccessor (h : r.Pointed s) (hme : r.me ∈ s) (hown : s.Owns new owner)
    (hnew : new ∉ s) (hbefore : s.Before owner r.me) :
    r.noted new = r.setSuccessor (some new) := by
  have hafter := hbefore.after hown.1
  have hq : r.successor = some owner := (h.successor owner).mpr hafter
  obtain ⟨p, -, hp, -, -, -⟩ := h.exists_neighbours hown.1 hafter.2.1
  have hne : owner ≠ new := fun heq => hnew (heq ▸ hown.1)
  have hother : new ≠ r.me := fun heq => hnew (heq ▸ hme)
  have hbetween : Arc.contains ⟨r.me, owner, .strict⟩ new = true :=
    (Arc.mem_strict_iff hbefore.2.1).mpr
      ⟨hne.symm, (NodeSet.owns_iff_of_before hown.1 hbefore).mp hown⟩
  exact noted_eq hq hne hother hbetween (by rw [hp]; exact Option.some_ne_none p)

/-- The member before the owner is right about its neighbours once it was told of the newcomer. -/
theorem Pointed.noted (h : r.Pointed s) (hme : r.me ∈ s) (hown : s.Owns new owner) (hnew : new ∉ s)
    (hbefore : s.Before owner r.me) : (r.noted new).Pointed (s.insert new) := by
  have hother : new ≠ r.me := fun heq => hnew (heq ▸ hme)
  rw [h.noted_eq_setSuccessor hme hown hnew hbefore]
  obtain ⟨t, ht, -⟩ := setSuccessor_shape r (some new)
  rw [filter_ne hother] at ht
  rw [ht]
  exact h.notice hme hown hnew hbefore rfl rfl rfl

end Ring

namespace Overlay

variable {ρ : Type} {o o' : Overlay ρ} {s : NodeSet} {owner candidate x : NodeId}
  {n n' k k' m : Node}

/-- The running superpeers are the members of the ring `s`, and the owner and the member before it
know their neighbours. -/
structure RingAt (s : NodeSet) (owner : NodeId) (o : Overlay ρ) : Prop where
  direct : o.Direct
  member : owner ∈ s
  running : ∀ x ∈ s, ∃ m, o.node? x = some m
  superpeer_iff : ∀ x m, o.node? x = some m → (m.isSuperpeer = true ↔ x ∈ s)
  pointed : ∀ x m, x = owner ∨ s.Before owner x → o.node? x = some m → m.ring.Pointed s

/-- Settled overlays are rings at every member. -/
theorem Settled.ringAt (h : o.Settled s) (howner : owner ∈ s) : o.RingAt s owner := by
  refine ⟨h.toCalm.direct, howner, h.running, h.superpeer_iff, fun x m hx hm => ?_⟩
  have hmem : x ∈ s := hx.elim (fun heq => heq ▸ howner) fun hbefore => hbefore.1
  exact (h.exact x m hm hmem).toPointed

/-- What else the owner knows makes no difference. -/
theorem RingAt.put (h : o.RingAt s owner) (hn : o.node? owner = some n) (hme : m.me = owner)
    (hrole : m.isSuperpeer = true) (hpointed : m.ring.Pointed s) :
    (o.put owner m).RingAt s owner := by
  have hself : (o.put owner m).node? owner = some m := node?_put_self hn
  have helse : ∀ x, x ≠ owner → (o.put owner m).node? x = o.node? x :=
    fun x hx => h.direct.node?_put_of_ne hx
  refine ⟨h.direct.put hme, h.member, fun x hx => ?_, fun x k hk => ?_, fun x k hx hk => ?_⟩
  · by_cases heq : x = owner
    · exact ⟨m, heq ▸ hself⟩
    · rw [helse x heq]
      exact h.running x hx
  · by_cases heq : x = owner
    · subst heq
      rw [hself] at hk
      cases hk
      exact iff_of_true hrole h.member
    · rw [helse x heq] at hk
      exact h.superpeer_iff x k hk
  · by_cases heq : x = owner
    · subst heq
      rw [hself] at hk
      cases hk
      exact hpointed
    · rw [helse x heq] at hk
      exact h.pointed x k hx hk

/-- The candidate lies in the range of the owner that was in state `n`, it has joined the ring, its
range and the owner's are what was the owner's before, and so are their peers. -/
structure Divided (s : NodeSet) (owner candidate : NodeId) (n : Node) (o' : Overlay ρ) : Prop where
  between : ∀ p, n.ring.predecessor = some p → Arc.contains ⟨p, owner, .strict⟩ candidate = true
  pointed : ∀ x, x = candidate ∨ x = owner ∨ n.ring.predecessor = some x →
    ∃ m, o'.node? x = some m ∧ m.isSuperpeer = true ∧ m.ring.Pointed (s.insert candidate)
  ranges : ∀ n' k', o'.node? owner = some n' → o'.node? candidate = some k' → ∀ id,
    (n.isPrimaryFor id = true ↔ k'.isPrimaryFor id = true ∨ n'.isPrimaryFor id = true) ∧
      ¬ (k'.isPrimaryFor id = true ∧ n'.isPrimaryFor id = true)
  peers : ∀ n' k', o'.node? owner = some n' → o'.node? candidate = some k' →
    ∀ x ∈ n.ring.peers, x ≠ candidate → (x ∈ k'.ring.peers ↔ x ∉ n'.ring.peers)

namespace RingAt

variable (h : o.RingAt s owner) (hn : o.node? owner = some n)

include h hn

theorem pointed_owner : n.ring.Pointed s := h.pointed owner n (.inl rfl) hn

theorem me_owner : n.ring.me = owner := h.direct.me hn

/-- What lies between the owner's predecessor and the owner is the owner's. -/
theorem owns_of_between (hbetween : ∀ p, n.ring.predecessor = some p →
    Arc.contains ⟨p, owner, .strict⟩ candidate = true) : s.Owns candidate owner := by
  have hpointed := h.pointed_owner hn
  have hme := h.me_owner hn
  cases hp : n.ring.predecessor with
  | none =>
    refine ⟨h.member, fun y hy => Nat.le_of_eq ?_⟩
    rw [(hpointed.eq_me hp hy).trans hme]
  | some p =>
    have hbefore := (hpointed.predecessor p).mp hp
    rw [hme] at hbefore
    exact (NodeSet.owns_iff_of_before h.member hbefore).mpr
      ((Arc.mem_strict_iff hbefore.2.1).mp (hbetween p hp)).2

end RingAt

/-! ## A promotion that went through -/

namespace Promoted

variable (hpromoted : Promoted owner candidate n k o o') (h : o.RingAt s owner)
  (hn : o.node? owner = some n) (hk : o.node? candidate = some k) (hnew : candidate ∉ s)

include hpromoted h hn hnew

/-- The owner's pointers afterwards. -/
theorem pointers_owner (hn' : o'.node? owner = some n') :
    n'.isSuperpeer = true ∧ n'.ring.me = owner ∧ n'.ring.predecessor = some candidate ∧
      n'.ring.successor =
        if n.ring.superpeers.isEmpty then some candidate else n.ring.successor := by
  obtain ⟨n'', hn'', hrole, hring⟩ := hpromoted.gave
  rw [hn'] at hn''
  cases hn''
  have hne : candidate ≠ n.ring.me := by
    rw [h.me_owner hn]
    exact fun heq => hnew (heq ▸ h.member)
  obtain ⟨t, u, hsplit, -, -⟩ := Ring.splitRing_eq_of_ne (offer candidate n).peers
    n.ring.superpeers.isEmpty hne
  rw [hring, hsplit]
  exact ⟨hrole, h.me_owner hn, rfl, rfl⟩

theorem pointed_owner (hown : s.Owns candidate owner)
    (hempty : n.ring.superpeers.isEmpty = true ↔ n.ring.predecessor = none)
    (hn' : o'.node? owner = some n') : n'.ring.Pointed (s.insert candidate) := by
  obtain ⟨-, hme', hpredecessor, hsuccessor⟩ := hpromoted.pointers_owner h hn hnew hn'
  have hme := h.me_owner hn
  simp only [hempty] at hsuccessor
  exact (h.pointed_owner hn).split (hme.symm ▸ hown) hnew (hme'.trans hme.symm) hpredecessor
    hsuccessor

include hk

/-- The candidate takes over what the owner had before it. -/
theorem pointed_candidate (hown : s.Owns candidate owner)
    (hempty : n.ring.superpeers.isEmpty = true → n.ring.predecessor = none)
    (hk' : o'.node? candidate = some k') : k'.ring.Pointed (s.insert candidate) := by
  obtain ⟨k'', hk'', -, hring⟩ := hpromoted.took
  rw [hk'] at hk''
  cases hk''
  have hme := h.me_owner hn
  have hkme : k.ring.me = candidate := h.direct.me hk
  have hpointed := h.pointed_owner hn
  have hother : ∀ y ∈ s, y ≠ k.ring.me := fun y hy heq => hnew ((heq.trans hkme) ▸ hy)
  -- The offer names the member before the owner, which is the owner itself if it is alone.
  obtain ⟨p, hp, hbefore⟩ : ∃ p, (offer candidate n).predecessor = some p ∧
      s.Before candidate p := by
    have hoffer : (offer candidate n).predecessor = some (n.ring.predecessor.getD owner) := by
      show some (if n.ring.superpeers.isEmpty then n.ring.me else n.ring.predecessor.getD n.ring.me)
        = _
      rw [hme]
      split
      case isTrue halone => rw [hempty halone]; rfl
      case isFalse => rfl
    cases hp : n.ring.predecessor with
    | none =>
      rw [hp] at hoffer
      exact ⟨owner, hoffer, NodeSet.before_newcomer_of_alone hown hnew
        fun y hy => (hpointed.eq_me hp hy).trans hme⟩
    | some p =>
      rw [hp] at hoffer
      have hbefore := (hpointed.predecessor p).mp hp
      rw [hme] at hbefore
      exact ⟨p, hoffer, NodeSet.before_newcomer hown hnew hbefore⟩
  obtain ⟨t, u, hadopt, -, -⟩ := Ring.adopt_shape k.ring (offer candidate n)
  have hq : (offer candidate n).successor = some owner := congrArg some hme
  rw [hp, hq, Ring.filter_ne (hother p hbefore.1), Ring.filter_ne (hother owner h.member)] at hadopt
  rw [hring, hadopt]
  exact Ring.pointed_newcomer hown hnew hkme hbefore.insert_self rfl rfl

omit hn hk in
/-- The member before the owner is told. -/
theorem pointed_before (hown : s.Owns candidate owner) (hbefore : s.Before owner x)
    (htold : told n = some x) :
    ∃ m, o'.node? x = some m ∧ m.isSuperpeer = true ∧ m.ring.Pointed (s.insert candidate) := by
  obtain ⟨m, hm⟩ := h.running x hbefore.1
  have hrole := (h.superpeer_iff x m hm).mpr hbefore.1
  have hme : m.ring.me = x := h.direct.me hm
  have hne : x ≠ candidate := fun heq => hnew (heq ▸ hbefore.1)
  obtain ⟨m', hm', houtlook⟩ := hpromoted.others x m hbefore.2.1 hne hm
  rw [if_pos htold, Node.noticeSuccessor_eq, if_pos hrole] at houtlook
  have hpointed := h.pointed x m (.inr hbefore) hm
  refine ⟨m', hm', (congrArg (·.2.2) houtlook).trans hrole, ?_⟩
  rw [show m'.ring = m.ring.noted candidate from congrArg (·.2.1) houtlook]
  exact hpointed.noted (hme.symm ▸ hbefore.1) hown hnew (hme.symm ▸ hbefore)

/-- Each other peer is listed either by the candidate or by the owner. -/
theorem peers (horderly : n.ring.Orderly) (hn' : o'.node? owner = some n')
    (hk' : o'.node? candidate = some k') (hx : x ∈ n.ring.peers) (hne : x ≠ candidate) :
    x ∈ k'.ring.peers ↔ x ∉ n'.ring.peers := by
  obtain ⟨n'', hn'', -, hgave⟩ := hpromoted.gave
  obtain ⟨k'', hk'', -, htook⟩ := hpromoted.took
  rw [hn'] at hn''
  rw [hk'] at hk''
  cases hn''
  cases hk''
  have hkme : k.ring.me = candidate := h.direct.me hk
  have hother : candidate ≠ n.ring.me := by
    rw [h.me_owner hn]
    exact fun heq => hnew (heq ▸ h.member)
  have hadmits : k.ring.admits x = true := Ring.admits_iff.mpr
    ⟨hkme.symm ▸ hne, (Ring.admits_iff.mp (horderly.peers x hx)).2⟩
  obtain ⟨t, u, hadopt, -, hu⟩ := Ring.adopt_shape k.ring (offer candidate n)
  obtain ⟨t', u', hsplit, -, hu'⟩ := Ring.splitRing_eq_of_ne (offer candidate n).peers
    n.ring.superpeers.isEmpty hother
  rw [hgave, htook, hadopt, hsplit]
  show x ∈ u ↔ x ∉ u'
  rw [hu, hu', and_iff_left hadmits, and_iff_left hne, and_iff_right hx, Decidable.not_not]

omit hk in
/-- What was the owner's is either the candidate's or the owner's if both know their neighbours. -/
theorem ranges (hrole : n.isSuperpeer = true) (hown : s.Owns candidate owner)
    (hn' : o'.node? owner = some n') (hk' : o'.node? candidate = some k')
    (howner : n'.ring.Pointed (s.insert candidate))
    (hcandidate : k'.ring.Pointed (s.insert candidate)) (id : NodeId) :
    (n.isPrimaryFor id = true ↔ k'.isPrimaryFor id = true ∨ n'.isPrimaryFor id = true) ∧
      ¬ (k'.isPrimaryFor id = true ∧ n'.isPrimaryFor id = true) := by
  obtain ⟨k'', hk'', hkrole, -⟩ := hpromoted.took
  rw [hk'] at hk''
  cases hk''
  have hnrole := (hpromoted.pointers_owner h hn hnew hn').1
  have hme : n.me = owner := h.me_owner hn
  have hnme : n'.me = owner := hpromoted.direct.me hn'
  have hkme : k'.me = candidate := hpromoted.direct.me hk'
  rw [Node.isPrimaryFor_iff hrole (h.pointed_owner hn) (hme.symm ▸ h.member),
    Node.isPrimaryFor_iff hkrole hcandidate (hkme.symm ▸ NodeSet.mem_insert.mpr (.inl rfl)),
    Node.isPrimaryFor_iff hnrole howner (hnme.symm ▸ NodeSet.mem_insert.mpr (.inr h.member)),
    hme, hkme, hnme]
  exact ⟨hown.owns_iff_or hnew, hown.not_owns_both hnew⟩

omit hk in
/-- An owner that has no predecessor and knows its successor afterwards listed nobody, since the
candidate becomes the successor of an owner that is alone only. -/
theorem isEmpty_of_pointed (hn' : o'.node? owner = some n')
    (hpointed' : n'.ring.Pointed (s.insert candidate)) (hp : n.ring.predecessor = none) :
    n.ring.superpeers.isEmpty = true := by
  obtain ⟨-, hnme, -, hsuccessor⟩ := hpromoted.pointers_owner h hn hnew hn'
  have hpointed := h.pointed_owner hn
  apply Decidable.byContradiction
  intro hlisted
  obtain ⟨-, q, -, -, hq, -⟩ := hpointed'.exists_neighbours (NodeSet.mem_insert.mpr (.inl rfl))
    (by rw [hnme]; exact fun heq => hnew (heq ▸ h.member))
  rw [hsuccessor, if_neg hlisted] at hq
  have hafter := (hpointed.successor q).mp hq
  exact hafter.2.1 (hpointed.eq_me hp hafter.1)

/-- A promotion divides the owner's range if the candidate lies in it and the owner knows whether it
is alone, and only then. -/
theorem divided_iff (hrole : n.isSuperpeer = true) (horderly : n.ring.Orderly) :
    Divided s owner candidate n o' ↔
      (∀ p, n.ring.predecessor = some p → Arc.contains ⟨p, owner, .strict⟩ candidate = true) ∧
        (n.ring.predecessor = none → n.ring.superpeers.isEmpty = true) := by
  have hlone := horderly.predecessor_of_isEmpty
  obtain ⟨n', hn', hnrole, -⟩ := hpromoted.gave
  obtain ⟨k', hk', hkrole, -⟩ := hpromoted.took
  constructor
  · intro hdivided
    obtain ⟨m, hm, -, hpointed'⟩ := hdivided.pointed owner (.inr (.inl rfl))
    rw [hn'] at hm
    cases hm
    exact ⟨hdivided.between, hpromoted.isEmpty_of_pointed h hn hnew hn' hpointed'⟩
  · rintro ⟨hbetween, halone⟩
    have hown := h.owns_of_between hn hbetween
    have howner := hpromoted.pointed_owner h hn hnew hown ⟨hlone, halone⟩ hn'
    have hcandidate := hpromoted.pointed_candidate h hn hk hnew hown hlone hk'
    refine ⟨hbetween, ?_, fun n₁ k₁ hn₁ hk₁ id => ?_, fun n₁ k₁ hn₁ hk₁ x hx hne =>
      hpromoted.peers h hn hk hnew horderly hn₁ hk₁ hx hne⟩
    · rintro x (rfl | rfl | hp)
      · exact ⟨k', hk', hkrole, hcandidate⟩
      · exact ⟨n', hn', hnrole, howner⟩
      · have hbefore := ((h.pointed_owner hn).predecessor x).mp hp
        rw [h.me_owner hn] at hbefore
        have htold : told n = some x := by
          rw [told, if_neg fun hempty => by rw [hlone hempty] at hp; cases hp]
          exact hp
        exact hpromoted.pointed_before h hnew hown hbefore htold
    · rw [hn'] at hn₁
      rw [hk'] at hk₁
      cases hn₁
      cases hk₁
      exact hpromoted.ranges h hn hnew hrole hown hn' hk' howner hcandidate id

end Promoted

/-- In a ring in which a superpeer knows its neighbours, it promotes one of its peers, whatever
messages it has handled before. The promotion comes to an end, and goes through if no other one is
running, there is another local peer and the candidate can take over. One that goes through divides
the superpeer's range exactly if the candidate lies in it, or is anywhere if the superpeer is alone
and lists nobody. -/
theorem promotion_divides (h : o.RingAt s owner) (hn : o.node? owner = some n)
    (hreached : n.Reached) (hpeer : candidate ∈ n.ring.peers) (safe : Bool) :
    ∃ result o', Leads o owner (promote candidate safe) result o' ∧
      (n.promoting = false → (∃ x ∈ n.ring.peers, x ≠ candidate) →
        (∃ k, Promotable o candidate k) → result = .ok ()) ∧
      (result = .ok () → (Divided s owner candidate n o' ↔
        (∀ p, n.ring.predecessor = some p → Arc.contains ⟨p, owner, .strict⟩ candidate = true) ∧
          (n.ring.predecessor = none → n.ring.superpeers.isEmpty = true))) := by
  have horderly := hreached.orderly.ring
  have hme := h.me_owner hn
  have hrole := (h.superpeer_iff owner n hn).mpr h.member
  have hne : candidate ≠ owner := hme ▸ (Ring.admits_iff.mp (horderly.peers candidate hpeer)).1
  have hother : n.ring.predecessor ≠ some owner := by
    intro hp
    have hadmits := horderly.superpeers owner (horderly.predecessor owner hp)
    exact (Ring.admits_iff.mp hadmits).1 hme.symm
  obtain ⟨result, o', hleads, houtcome, hok⟩ := leads_promote h.direct hn hrole hne hother safe
  refine ⟨result, o', hleads, hok, fun hresult => ?_⟩
  subst hresult
  cases houtcome with
  | @promoted k hcandidate hpromoted =>
    obtain ⟨hk, hkpeer, -⟩ := hcandidate
    have hnew : candidate ∉ s := by
      intro hmem
      rw [(h.superpeer_iff candidate k hk).mpr hmem] at hkpeer
      cases hkpeer
    exact hpromoted.divided_iff h hn hk hnew hrole horderly

/-! ## A superpeer that is alone -/

/-- A superpeer that has let two peers in. -/
def loneOwner : Node :=
  (((Node.new (twoAttempts ⟨1000⟩ .superpeer)).welcome ⟨500⟩ false).2.welcome ⟨600⟩ false).2

/-- It and its peers. -/
def loneOverlay : Overlay ρ :=
  (complete (.ofList [⟨1000⟩]) [twoAttempts ⟨1000⟩ .superpeer, twoAttempts ⟨500⟩ .peer,
    twoAttempts ⟨600⟩ .peer]).put ⟨1000⟩ loneOwner

theorem reached_loneOwner : loneOwner.Reached := by
  let founder := Node.new (twoAttempts ⟨1000⟩ .superpeer)
  let first := (founder.welcome ⟨500⟩ false).2
  have hfirst : (handleMessage ⟨500⟩ (.join ⟨500⟩ false) founder).Yields (.joinAcceptedPeer [])
      first := .done
  have hsecond : (handleMessage ⟨600⟩ (.join ⟨600⟩ false) first).Yields (.joinAcceptedPeer [])
      loneOwner := .done
  exact (Node.Reached.handled (.new _) (show Message.Proper (.join ⟨500⟩ false) from rfl)
    hfirst).handled (show Message.Proper (.join ⟨600⟩ false) from rfl) hsecond

theorem exists_loneOwner : (loneOverlay : Overlay ρ).node? ⟨1000⟩ = some loneOwner :=
  node?_put_self (n := .complete (.ofList [⟨1000⟩]) (twoAttempts ⟨1000⟩ .superpeer)) rfl

theorem ringAt_loneOverlay : (loneOverlay : Overlay ρ).RingAt (.ofList [⟨1000⟩]) ⟨1000⟩ := by
  have hmem : ∀ x ∈ NodeSet.ofList [⟨1000⟩], x = ⟨1000⟩ := fun x hx =>
    List.mem_singleton.mp (NodeSet.mem_ofList.mp hx)
  have hsettled : (complete (.ofList [⟨1000⟩]) [twoAttempts ⟨1000⟩ .superpeer,
      twoAttempts ⟨500⟩ .peer, twoAttempts ⟨600⟩ .peer] : Overlay ρ).Settled (.ofList [⟨1000⟩]) :=
    settled_complete ⟨⟨1000⟩, by decide⟩ (fun x hx => hmem x hx ▸ rfl)
      fun x hx => ⟨_, List.mem_cons_self, (hmem x hx).symm⟩
  have halone : loneOwner.ring.Formed (.ofList [⟨1000⟩]) (.ofList [⟨500⟩, ⟨600⟩]) :=
    .alone hmem (by decide) rfl rfl rfl fun _ => Iff.rfl
  exact (hsettled.ringAt (by decide)).put rfl rfl rfl halone.toPointed

theorem promotion_divides_loneOverlay :
    ∃ o', Leads (loneOverlay : Overlay Unit) ⟨1000⟩ (promote ⟨500⟩ true) (.ok ()) o' ∧
      Divided (.ofList [⟨1000⟩]) ⟨1000⟩ ⟨500⟩ loneOwner o' := by
  obtain ⟨result, o', hleads, hok, hdivided⟩ := promotion_divides
    (ringAt_loneOverlay (ρ := Unit)) exists_loneOwner reached_loneOwner
    (show (⟨500⟩ : NodeId) ∈ loneOwner.ring.peers by decide) true
  have hcan : ∃ k, Promotable (loneOverlay : Overlay Unit) ⟨500⟩ k :=
    ⟨.complete (.ofList [⟨1000⟩]) (twoAttempts ⟨500⟩ .peer), rfl, rfl, rfl⟩
  have hresult : result = .ok () := hok rfl ⟨⟨600⟩, by decide, by decide⟩ hcan
  subst hresult
  exact ⟨o', hleads, (hdivided rfl).mpr ⟨nofun, fun _ => rfl⟩⟩

end Overlay

end ChunkDirectory
