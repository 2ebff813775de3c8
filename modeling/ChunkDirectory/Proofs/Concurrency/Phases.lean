import ChunkDirectory.Proofs.Concurrency.Rivals

/-!
# The phases of a promotion and of an admission

While a superpeer promotes one of its peers and another one joins in its range, the views of the
ring change at a few points only: the owner makes an offer, the candidate accepts it, the owner
splits its range and the superpeer before is told; a superpeer welcomes the newcomer, the superpeer
before is told and the newcomer takes its place. A phase says what lies between two such points, and
what it takes for granted about the place that the candidate and the newcomer will have
(`PromotionPhase.Enters`, `AdmissionPhase.Enters`). Everyone else's view changes at most once
(`Around`).
-/

namespace ChunkDirectory

open Protocol

/-- How far a promotion has come. -/
inductive PromotionPhase where
  | searching
  /-- It is over, or about to be, without effect. -/
  | failed
  /-- The offer is on its way. -/
  | offered (snapshot : Snapshot) (alone : Bool)
  /-- The candidate has taken over what it was offered. -/
  | accepted (snapshot : Snapshot) (alone : Bool)
  /-- The owner has split its range, and `old` is to be told. -/
  | telling (old : NodeId)
  /-- The superpeer that is told was `overtaken` if it had not yet its own place. -/
  | done (overtaken : Bool)

/-- How far an admission has come. -/
inductive AdmissionPhase where
  | asking
  /-- The newcomer has been welcomed, and `old` is to be told. -/
  | telling (snapshot : Snapshot) (old : NodeId)
  /-- The answer is on its way. -/
  | answering (snapshot : Snapshot)
  | done

/-- When the newcomer is welcomed, and by whom. -/
inductive Moment where
  /-- By the owner before it makes the offer. -/
  | early
  /-- By the owner after the offer, before it splits its range for the candidate. -/
  | between
  /-- By the owner after the split. -/
  | late
  /-- By the candidate after the split. -/
  | relayed

namespace PromotionPhase

variable (s ps : NodeSet) (owner candidate : NodeId) (rings : NodeId → Ring)

/-- Whether the owner has split its range for the candidate. -/
def committed : PromotionPhase → Bool
  | .telling _ | .done _ => true
  | _ => false

def ended : PromotionPhase → Bool
  | .done _ => true
  | _ => false

/-- What is left once the owner has split its range, and is to tell the superpeer before. -/
def split : Option NodeId → PromotionPhase
  | none => .done false
  | some old => .telling old

/-- The moment if the owner welcomes the newcomer now, unless the promotion has failed. -/
def moment : PromotionPhase → Option Moment
  | .failed => none
  | .searching => some .early
  | .offered .. | .accepted .. => some .between
  | .telling _ | .done _ => some .late

/-- The ring `s` as the owner sees it. -/
def ring : PromotionPhase → NodeSet
  | .telling _ | .done _ => s.insert candidate
  | _ => s

/-- The ring `s` as the superpeer sees it that is to be told. -/
def heard : PromotionPhase → NodeSet
  | .done false => s.insert candidate
  | _ => s

/-- What the owner took for the offer, and what the candidate made of it, is the place before the
owner in the ring `s`. -/
def Enters : PromotionPhase → Prop
  | .searching | .failed => True
  | .offered snapshot alone =>
    (∃ p, Node.Places s ps owner candidate p snapshot) ∧ alone = (rings owner).superpeers.isEmpty
  | .accepted snapshot alone =>
    ((∃ p, Node.Places s ps owner candidate p snapshot) ∧
        alone = (rings owner).superpeers.isEmpty) ∧
      (rings candidate).Sees (s.insert candidate)
  | .telling _ | .done _ => (rings candidate).Sees (s.insert candidate)

/-- The candidate has the predecessor `p`, or will. -/
def Follows (p : NodeId) : PromotionPhase → Prop
  | .searching | .failed => False
  | .offered snapshot _ => snapshot.predecessor = some p
  | _ => (rings candidate).predecessor = some p

end PromotionPhase

namespace AdmissionPhase

variable (s ps : NodeSet) (owner newcomer : NodeId) (rings : NodeId → Ring)

/-- What is left once the newcomer is welcomed and the superpeer before is to be told. -/
def welcomed (snapshot : Snapshot) : Option NodeId → AdmissionPhase
  | none => .answering snapshot
  | some old => .telling snapshot old

/-- Whether the superpeer before has been told. -/
def told : AdmissionPhase → Bool
  | .answering _ | .done => true
  | _ => false

/-- What the owner answers is the place before it in the ring `s`, and the newcomer sees the ring
`t` from there. -/
def Enters (t : NodeSet) : AdmissionPhase → Prop
  | .asking => False
  | .telling snapshot _ | .answering snapshot => ∃ p, Node.Places s ps owner newcomer p snapshot
  | .done => (rings newcomer).Pointed t

/-- The newcomer has the predecessor `p`, or will. -/
def Follows (p : NodeId) : AdmissionPhase → Prop
  | .asking => False
  | .telling snapshot _ | .answering snapshot => snapshot.predecessor = some p
  | .done => (rings newcomer).predecessor = some p

end AdmissionPhase

/-- What the superpeers other than the owner see of a newcomer. The one before the owner may have
been told once the newcomer has entered, and has been if this is settled. -/
def Around (s ps : NodeSet) (owner new : NodeId) (entered settled : Prop) (rings : NodeId → Ring) :
    Prop :=
  ∀ x ∈ s, x ≠ owner →
    (rings x).Formed s ps ∧ (settled → ¬ s.Before owner x) ∨
      entered ∧ (rings x).Formed (s.insert new) ps

/-- What the members of the ring `s` see of two newcomers when the owner has split its range for the
first and the first has welcomed the second. Whoever is told of the second is right about both. -/
def AroundBoth (s ps : NodeSet) (owner first second : NodeId) (settled told : Prop)
    (rings : NodeId → Ring) : Prop :=
  ∀ x ∈ s,
    (x ≠ owner ∧ (rings x).Formed s ps ∧ (settled → ¬ s.Before owner x) ∨
        (rings x).Formed (s.insert first) ps) ∧
      (told → ¬ (s.insert first).Before first x) ∨
    told ∧ (rings x).Formed ((s.insert first).insert second) ps

/-! ## One view changes -/

/-- `x` sees `r` now, everyone else what it saw before. -/
structure Changes (rings : NodeId → Ring) (x : NodeId) (r : Ring) (rings' : NodeId → Ring) :
    Prop where
  self : rings' x = r
  other : ∀ y, y ≠ x → rings' y = rings y

section

variable {s ps : NodeSet} {owner candidate newcomer new old : NodeId} {rings rings' : NodeId → Ring}
  {m : Option Moment} {φ : PromotionPhase} {ψ : AdmissionPhase} {snapshot : Snapshot} {alone : Bool}
  {entered settled : Prop}

theorem PromotionPhase.ring_of_not_committed (h : φ.committed = false) :
    φ.ring s candidate = s := by
  cases φ <;> first | rfl | cases h

theorem PromotionPhase.ring_of_committed (h : φ.committed = true) :
    φ.ring s candidate = s.insert candidate := by
  cases φ <;> first | rfl | cases h

theorem PromotionPhase.mem_ring_iff {x : NodeId} :
    x ∈ φ.ring s candidate ↔ x ∈ s ∨ φ.committed = true ∧ x = candidate := by
  cases h : φ.committed with
  | false => simp [ring_of_not_committed h]
  | true => simp [ring_of_committed h, NodeSet.mem_insert, or_comm]

theorem PromotionPhase.mem_ring {x : NodeId} (h : x ∈ s) : x ∈ φ.ring s candidate :=
  mem_ring_iff.mpr (.inl h)

theorem AdmissionPhase.Enters.ne_asking {t : NodeSet} (h : ψ.Enters s ps owner newcomer rings t) :
    ψ ≠ .asking := by
  rintro rfl
  exact h

theorem AdmissionPhase.Follows.ne_asking {p : NodeId} (h : ψ.Follows newcomer rings p) :
    ψ ≠ .asking := by
  rintro rfl
  exact h

/-- Once the owner has split its range, the candidate sees the ring. -/
theorem PromotionPhase.Enters.sees (h : φ.Enters s ps owner candidate rings)
    (hφ : φ.committed = true) : (rings candidate).Sees (s.insert candidate) := by
  cases φ <;> first | exact h | cases hφ

theorem PromotionPhase.Enters.congr (h : φ.Enters s ps owner candidate rings)
    (howner : rings' owner = rings owner) (hcandidate : rings' candidate = rings candidate) :
    φ.Enters s ps owner candidate rings' := by
  cases φ with
  | searching | failed => trivial
  | _ => simpa only [Enters, howner, hcandidate] using h

theorem PromotionPhase.Follows.congr {p : NodeId} (h : φ.Follows candidate rings p)
    (hcandidate : rings' candidate = rings candidate) : φ.Follows candidate rings' p := by
  cases φ with
  | searching | failed => exact h
  | offered => exact h
  | _ => simpa only [Follows, hcandidate] using h

/-- The candidate comes after the member before it, if it comes into the ring as it was. -/
theorem PromotionPhase.Enters.exists_follows (h : φ.Enters s ps owner candidate rings)
    (hme : ∀ x, (rings x).me = x) (hφ : φ.moment = some .between) :
    ∃ p, φ.Follows candidate rings p ∧ (s.insert candidate).Before candidate p := by
  cases φ with
  | offered snapshot alone =>
    obtain ⟨⟨p, hplaces⟩, -⟩ := h
    exact ⟨p, hplaces.predecessor, hplaces.before⟩
  | accepted snapshot alone =>
    obtain ⟨⟨⟨p, hplaces⟩, -⟩, hsees⟩ := h
    refine ⟨p, (hsees.pointed.predecessor p).mpr ?_, hplaces.before⟩
    rw [hme]
    exact hplaces.before
  | _ => cases hφ

theorem AdmissionPhase.Enters.congr {t : NodeSet} (h : ψ.Enters s ps owner newcomer rings t)
    (hsame : rings' newcomer = rings newcomer) : ψ.Enters s ps owner newcomer rings' t := by
  cases ψ with
  | done =>
    show (rings' newcomer).Pointed t
    rw [hsame]
    exact h
  | _ => exact h

/-- Before the newcomer has its place, what it sees does not matter. -/
theorem AdmissionPhase.Enters.of_ne_done {t t' : NodeSet}
    (h : ψ.Enters s ps owner newcomer rings t) (hψ : ψ ≠ .done) :
    ψ.Enters s ps owner newcomer rings' t' := by
  cases ψ with
  | done => exact absurd rfl hψ
  | _ => exact h

theorem AdmissionPhase.Follows.congr {p : NodeId} (h : ψ.Follows newcomer rings p)
    (hsame : (rings newcomer).predecessor = some p → (rings' newcomer).predecessor = some p) :
    ψ.Follows newcomer rings' p := by
  cases ψ with
  | done => exact hsame h
  | _ => exact h

/-- The newcomer comes after the member before it. -/
theorem AdmissionPhase.Enters.exists_follows
    (h : ψ.Enters s ps owner new rings (s.insert new)) (he : Entrance s owner new)
    (hme : ∀ x, (rings x).me = x) :
    ∃ p, ψ.Follows new rings p ∧ (s.insert new).Before new p := by
  cases ψ with
  | asking => cases h
  | telling snapshot old =>
    obtain ⟨p, hplaces⟩ := h
    exact ⟨p, hplaces.predecessor, hplaces.before⟩
  | answering snapshot =>
    obtain ⟨p, hplaces⟩ := h
    exact ⟨p, hplaces.predecessor, hplaces.before⟩
  | done =>
    obtain ⟨p, hp⟩ := NodeSet.exists_before (NodeSet.mem_insert.mpr (.inr he.owns.1) :
      owner ∈ s.insert new) (he.ne he.owns.1)
    exact ⟨p, (h.predecessor p).mpr ((hme new).symm ▸ hp), hp⟩

namespace Around

theorem mono {entered' settled' : Prop} (h : Around s ps owner new entered settled rings)
    (hentered : entered → entered') (hsettled : settled' → settled)
    (hsame : ∀ x ∈ s, x ≠ owner → rings' x = rings x) :
    Around s ps owner new entered' settled' rings' := by
  intro x hx hne
  rw [hsame x hx hne]
  exact (h x hx hne).imp (.imp_right fun hnot hs => hnot (hsettled hs)) (.imp_left hentered)

/-- Once everything is settled everyone knows all it should. -/
theorem formed (h : Around s ps owner new entered True rings) (he : Entrance s owner new)
    (hme : ∀ x, (rings x).me = x) {x : NodeId} (hx : x ∈ s) (hne : x ≠ owner) :
    (rings x).Formed (s.insert new) ps := by
  rcases h x hx hne with ⟨hformed, hnot⟩ | ⟨-, hformed⟩
  · refine hformed.insert_elsewhere ?_ he.owns he.fresh ?_ ?_
    all_goals rw [hme]
    · exact hx
    · exact hne
    · exact hnot trivial
  · exact hformed

/-- The superpeer before the owner is told. -/
theorem note (h : Around s ps owner new entered settled rings) (he : Entrance s owner new)
    (hme : ∀ x, (rings x).me = x) (hold : s.Before owner old)
    (hchange : Changes rings old ((rings old).noted new) rings') :
    Around s ps owner new True True rings' := by
  intro x hx hne
  by_cases hxold : x = old
  · subst hxold
    refine .inr ⟨trivial, ?_⟩
    have hbefore : s.Before owner (rings x).me := (hme x).symm ▸ hold
    have hmem : (rings x).me ∈ s := (hme x).symm ▸ hx
    rw [hchange.self]
    rcases h x hx hne with ⟨hformed, -⟩ | ⟨-, hformed⟩
    · exact hformed.noted hmem he.owns he.fresh hbefore (he.admits hmem)
    · have hafter := (NodeSet.before_newcomer he.owns he.fresh hbefore).insert_self.after
        (NodeSet.mem_insert.mpr (.inl rfl))
      rw [Ring.noted_of_successor ((hformed.successor new).mpr hafter)]
      exact hformed
  · rw [hchange.other x hxold]
    refine (h x hx hne).imp (fun hformed => ⟨hformed.1, fun _ hbefore => ?_⟩) fun hformed =>
      ⟨trivial, hformed.2⟩
    exact hxold (hbefore.unique hold)

end Around

namespace AroundBoth

variable {first second : NodeId} {told : Prop} (hr : Rivals s owner first second)
  (hme : ∀ x, (rings x).me = x)

theorem mono {settled' told' : Prop} (h : AroundBoth s ps owner first second settled told rings)
    (hsettled : settled' → settled) (htold : told' ↔ told) (hsame : ∀ x ∈ s, rings' x = rings x) :
    AroundBoth s ps owner first second settled' told' rings' := by
  intro x hx
  rw [hsame x hx, htold]
  refine (h x hx).imp_left (.imp_left fun hfirst => ?_)
  exact hfirst.imp_left fun ⟨hne, hformed, hnot⟩ => ⟨hne, hformed, fun hs => hnot (hsettled hs)⟩

include hr hme

/-- Once everyone is told, everyone knows both newcomers. -/
theorem formed (h : AroundBoth s ps owner first second True True rings)
    (hfits : (s.insert first).Owns second first) {x : NodeId} (hx : x ∈ s) :
    (rings x).Formed ((s.insert first).insert second) ps := by
  have hmem : (rings x).me ∈ s := (hme x).symm ▸ hx
  have hlater (hformed : (rings x).Formed (s.insert first) ps)
      (hnot : ¬ (s.insert first).Before first x) :
      (rings x).Formed ((s.insert first).insert second) ps := by
    refine hformed.insert_elsewhere (NodeSet.mem_insert.mpr (.inr hmem)) hfits hr.fresh ?_ ?_
    all_goals rw [hme]
    · exact hr.first.ne hx
    · exact hnot
  rcases h x hx with ⟨⟨hne, hformed, hnot⟩ | hformed, hnot'⟩ | ⟨-, hformed⟩
  · refine hlater (hformed.insert_elsewhere hmem hr.first.owns hr.first.fresh ?_ ?_)
      (hnot' trivial)
    all_goals rw [hme]
    · exact hne
    · exact hnot trivial
  · exact hlater hformed (hnot' trivial)
  · exact hformed

/-- The superpeer before the owner is told of the first newcomer, perhaps after the second one. -/
theorem noteFirst (h : AroundBoth s ps owner first second settled told rings)
    (hfits : (s.insert first).Owns second first) (hold : s.Before owner old)
    (hchange : Changes rings old ((rings old).noted first) rings') :
    AroundBoth s ps owner first second True told rings' := by
  intro x hx
  by_cases hxold : x = old
  · subst hxold
    have hbefore : s.Before owner (rings x).me := (hme x).symm ▸ hold
    have hmem : (rings x).me ∈ s := (hme x).symm ▸ hx
    have hbefore' := (NodeSet.before_newcomer hr.first.owns hr.first.fresh hbefore).insert_self
    rw [hchange.self]
    rcases h x hx with ⟨⟨-, hformed, -⟩ | hformed, hnot⟩ | ⟨htold, hformed⟩
    · refine .inl ⟨.inr ?_, hnot⟩
      exact hformed.noted hmem hr.first.owns hr.first.fresh hbefore (hr.first.admits hmem)
    · have hafter := hbefore'.after (NodeSet.mem_insert.mpr (.inl rfl))
      rw [Ring.noted_of_successor ((hformed.successor first).mpr hafter)]
      exact .inl ⟨.inr hformed, hnot⟩
    · -- The first newcomer is not between the superpeer and the second.
      have hnext := NodeSet.before_newcomer hfits hr.fresh hbefore'
      have hafter := hnext.insert_self.after (NodeSet.mem_insert.mpr (.inl rfl))
      have hbeyond : Arc.contains ⟨(rings x).me, second, .strict⟩ first = false := by
        rw [← Bool.not_eq_true, Arc.mem_strict_iff hnext.2.1]
        rintro ⟨hne, hlt⟩
        have hle := hnext.2.2 first (NodeSet.mem_insert.mpr (.inl rfl)) hne
        omega
      rw [Ring.noted_of_beyond ((hformed.successor second).mpr hafter) hbeyond]
      exact .inr ⟨htold, hformed⟩
  · rw [hchange.other x hxold]
    refine (h x hx).imp_left (.imp_left (.imp_left fun hfirst => ?_))
    exact ⟨hfirst.1, hfirst.2.1, fun _ hbefore => hxold (hbefore.unique hold)⟩

/-- The superpeer before the first newcomer is told of the second one, perhaps before it is told of
the first. -/
theorem noteSecond (h : AroundBoth s ps owner first second settled False rings)
    (hfits : (s.insert first).Owns second first) (hold : (s.insert first).Before first old)
    (hchange : Changes rings old ((rings old).noted second) rings') :
    AroundBoth s ps owner first second settled True rings' := by
  intro x hx
  by_cases hxold : x = old
  · subst hxold
    have hmem : (rings x).me ∈ s := (hme x).symm ▸ hx
    have hmem' : (rings x).me ∈ s.insert first := NodeSet.mem_insert.mpr (.inr hmem)
    rw [hchange.self]
    rcases h x hx with ⟨⟨hne, hformed, -⟩ | hformed, -⟩ | ⟨hfalse, -⟩
    · -- It is the superpeer before the owner as well.
      obtain ⟨p, hp⟩ := NodeSet.exists_before hx hne
      have heq := hold.unique (NodeSet.before_newcomer hr.first.owns hr.first.fresh hp).insert_self
      have hbefore : s.Before owner (rings x).me := by
        rw [hme, heq]
        exact hp
      have hnoted := hformed.noted hmem hr.second.owns hr.second.fresh hbefore
        (hr.second.admits hmem)
      have hnme : ((rings x).noted second).me = x := (Ring.me_noted _ _).trans (hme x)
      refine .inr ⟨trivial, ?_⟩
      rw [NodeSet.insert_comm]
      refine hr.symm.formed_elsewhere (hr.owns_next hfits) hnoted ?_ ?_
      all_goals rw [hnme]
      · exact hx
      · exact hne
    · have hadmits := (hr.entrance hfits).admits hmem'
      refine .inr ⟨trivial, hformed.noted hmem' hfits hr.fresh ?_ hadmits⟩
      rw [hme]
      exact hold
    · exact hfalse.elim
  · rw [hchange.other x hxold]
    refine (h x hx).imp (fun hfirst => ⟨hfirst.1, fun _ hbefore => ?_⟩) fun hboth => hboth.1.elim
    exact hxold (hbefore.unique hold)

end AroundBoth

/-! ## The candidate's place -/

namespace PromotionPhase.Enters

variable {t : NodeSet} (he : Entrance t owner candidate) (hme : ∀ x, (rings x).me = x)

include he hme

/-- What the owner offers is the place before it. -/
theorem offer {n : Node} (hn : n.ring = rings owner) (hformed : (rings owner).Formed t ps) :
    PromotionPhase.Enters t ps owner candidate rings
      (.offered (Protocol.offer candidate n) n.ring.superpeers.isEmpty) := by
  have hnme : n.me = owner := (congrArg Ring.me hn).trans (hme owner)
  obtain ⟨p, -, hplaces⟩ := Node.exists_offer_eq (hn ▸ hformed) (hnme.symm ▸ he.owns) he.fresh
  rw [hnme] at hplaces
  exact ⟨⟨p, hplaces⟩, by rw [hn]⟩

/-- The candidate takes over what it is offered. -/
theorem accept (h : PromotionPhase.Enters t ps owner candidate rings (.offered snapshot alone))
    (hchange : Changes rings candidate ((rings candidate).adopt snapshot) rings') :
    PromotionPhase.Enters t ps owner candidate rings' (.accepted snapshot alone) := by
  obtain ⟨⟨p, hplaces⟩, halone⟩ := h
  refine ⟨⟨⟨p, hplaces⟩, ?_⟩, ?_⟩
  · rw [hchange.other owner (he.ne he.owns.1)]
    exact halone
  · rw [hchange.self]
    exact he.adopt_sees hplaces (hme candidate)

/-- The owner splits its range for the candidate. -/
theorem commit (h : PromotionPhase.Enters t ps owner candidate rings (.accepted snapshot alone))
    {n : Node} (hn : n.ring = rings owner) (hformed : (rings owner).Formed t ps)
    (hchange : Changes rings owner
      (Node.splitRing (rings owner) snapshot.peers candidate alone) rings') :
    (rings' owner).Formed (t.insert candidate) ps ∧
      (rings' candidate).Sees (t.insert candidate) ∧
      (if alone then none else (rings owner).predecessor) = (rings owner).predecessor := by
  obtain ⟨⟨⟨p, hplaces⟩, halone⟩, hsees⟩ := h
  refine ⟨?_, ?_, halone ▸ hformed.predecessor_of_isEmpty⟩
  · rw [hchange.self, ← hn]
    exact (Node.formed_splitRing he ((congrArg Ring.me hn).trans (hme owner)) (hn ▸ hformed)
      hplaces (hn ▸ halone)).2
  · rw [hchange.other candidate (Ne.symm (he.ne he.owns.1))]
    exact hsees

end PromotionPhase.Enters

end

end ChunkDirectory
