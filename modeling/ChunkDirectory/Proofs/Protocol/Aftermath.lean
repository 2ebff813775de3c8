import ChunkDirectory.Proofs.Division
import ChunkDirectory.Proofs.Protocol.Walk
import ChunkDirectory.Proofs.Ring.Window

/-!
# After a promotion

What a promotion that went through has made of a settled overlay. All superpeers point right on the
ring with the candidate, which is listed by those around it and not yet by the others
(`Promoted.spreading`). Every superpeer that is to hold an entry, on the ring with the candidate or
without it, holds what was stored before, told of the replacement if it keeps copies of what the
candidate owns (`Promoted.exists_read`).
-/

namespace ChunkDirectory

open Protocol

/-- The list of all others, and of one who came later. -/
theorem NodeSet.eq_erase_insert {s t : NodeSet} {new x : NodeId} (hne : new ≠ x)
    (h : ∀ y, y ∈ t ↔ y ∈ s.erase x ∨ y = new) : t = (s.insert new).erase x := by
  refine eq_of_mem_iff fun y => ?_
  rw [h, mem_erase, mem_erase, mem_insert, or_comm, or_and_right]
  exact or_congr_left (and_iff_left_of_imp fun heq => heq ▸ hne).symm

/-- A superpeer that lists all others lists nobody exactly if it is alone. -/
theorem Ring.Exact.isEmpty_iff {s : NodeSet} {r : Ring} (h : r.Exact s) :
    r.superpeers.isEmpty = true ↔ r.predecessor = none := by
  have hlisted (x : NodeId) : x ∈ r.superpeers ↔ x ∈ s ∧ x ≠ r.me := by
    rw [h.superpeers, NodeSet.mem_erase]
  constructor
  · intro hempty
    cases hp : r.predecessor with
    | none => rfl
    | some p =>
      have hbefore := (h.predecessor p).mp hp
      have hmem : p ∈ r.superpeers.toList := (hlisted p).mpr ⟨hbefore.1, hbefore.2.1⟩
      rw [List.isEmpty_iff.mp hempty] at hmem
      cases hmem
  · intro hnone
    refine List.isEmpty_iff.mpr (List.eq_nil_iff_forall_not_mem.mpr fun x hx => ?_)
    obtain ⟨hxs, hne⟩ := (hlisted x).mp hx
    exact hne (h.eq_me hnone hxs)

namespace Overlay

variable {ρ : Type} {o o' : Overlay ρ} {s : NodeSet} {owner candidate x : NodeId}
  {n n' k k' m m' : Node}

/-- A candidate in the owner's range takes over a list of all others. -/
theorem Settled.superpeers_adopt_offer (h : o.Settled s) (hn : o.node? owner = some n)
    (hk : o.node? candidate = some k) (hown : s.Owns candidate owner) :
    (k.ring.adopt (offer candidate n)).superpeers = (s.insert candidate).erase candidate := by
  have hme : n.ring.me = owner := h.me hn
  have hkme : k.ring.me = candidate := h.me hk
  have hexact := h.exact owner n hn hown.1
  have hlisted : ∀ x, x ∈ (offer candidate n).superpeers ↔ x ∈ s ∧ x ≠ owner := by
    intro x
    rw [← NodeSet.mem_erase, ← hme, ← hexact.superpeers]
    exact Iff.rfl
  have hsuccessor : (offer candidate n).successor = some owner := congrArg some hme
  have hpredecessor : ∀ x, (offer candidate n).predecessor = some x → x ∈ s := by
    rintro x ⟨⟩
    rw [show n.me = owner from hme]
    split
    case isTrue => exact hown.1
    case isFalse =>
      cases hp : n.ring.predecessor with
      | none => exact hown.1
      | some p => exact ((hexact.predecessor p).mp hp).1
  obtain ⟨t, u, hadopt, ht, -⟩ := Ring.adopt_shape k.ring (offer candidate n)
  refine NodeSet.eq_of_mem_iff fun x => ?_
  rw [hadopt]
  show x ∈ t ↔ _
  rw [ht, hlisted, hsuccessor, NodeSet.mem_erase, NodeSet.mem_insert, Ring.admits_iff, hkme]
  constructor
  · rintro ⟨⟨hx, -⟩ | hx | hx, hne, -⟩
    · exact ⟨.inr hx, hne⟩
    · exact ⟨.inr (Option.some.inj hx ▸ hown.1), hne⟩
    · exact ⟨.inr (hpredecessor x hx), hne⟩
  · rintro ⟨hx, hne⟩
    have hxs := hx.resolve_left hne
    refine ⟨?_, hne, h.valid x hxs⟩
    by_cases howner : x = owner
    · exact .inr (.inl (congrArg some howner.symm))
    · exact .inl ⟨hxs, howner⟩

/-- The one to be told of a promotion is the superpeer before the owner. -/
theorem Settled.told_iff (h : o.Settled s) (hn : o.node? owner = some n) (howner : owner ∈ s) :
    told n = some x ↔ s.Before owner x := by
  have hexact := h.exact owner n hn howner
  have hpointer : told n = n.ring.predecessor := by
    unfold told
    split
    case isTrue hempty => exact (hexact.isEmpty_iff.mp hempty).symm
    case isFalse => rfl
  rw [hpointer, hexact.predecessor, show n.ring.me = owner from h.me hn]

namespace Promoted

variable (hpromoted : Promoted owner candidate n k o o') (h : o.Settled s)
  (hn : o.node? owner = some n) (hk : o.node? candidate = some k) (hnew : candidate ∉ s)
  (hown : s.Owns candidate owner) (hvalid : candidate.isReserved = false)

include hpromoted h hn hnew hown

/-! ## Views -/

include hvalid in
theorem aware_owner (hn' : o'.node? owner = some n') : Aware s candidate owner n' := by
  have hexact := h.exact owner n hn hown.1
  obtain ⟨n'', hn'', hrole, hring⟩ := hpromoted.gave
  rw [hn'] at hn''
  cases hn''
  have hme : n.ring.me = owner := h.me hn
  have hother : candidate ≠ owner := fun heq => hnew (heq ▸ hown.1)
  obtain ⟨t, u, hsplit, ht, -⟩ := Ring.splitRing_eq (offer candidate n).peers
    n.ring.superpeers.isEmpty (Ring.admits_iff.mpr ⟨hme ▸ hother, hvalid⟩)
  refine ⟨iff_of_true hrole (NodeSet.mem_insert.mpr (.inr hown.1)), fun _ => ?_, .inl ?_⟩
  · exact hpromoted.pointed_owner (h.ringAt hown.1) hn hnew hown hexact.isEmpty_iff hn'
  · rw [hring, hsplit]
    rw [hexact.superpeers, hme] at ht
    exact NodeSet.eq_erase_insert hother ht

include hk in
theorem aware_candidate (hk' : o'.node? candidate = some k') :
    Aware s candidate candidate k' := by
  have hexact := h.exact owner n hn hown.1
  obtain ⟨k'', hk'', hrole, hring⟩ := hpromoted.took
  rw [hk'] at hk''
  cases hk''
  refine ⟨iff_of_true hrole (NodeSet.mem_insert.mpr (.inl rfl)), fun _ => ?_, .inl ?_⟩
  · exact hpromoted.pointed_candidate (h.ringAt hown.1) hn hk hnew hown
      hexact.isEmpty_iff.mp hk'
  · rw [hring]
    exact h.superpeers_adopt_offer hn hk hown

include hvalid in
/-- The superpeer before the owner lists the candidate from then on. -/
theorem aware_before (hbefore : s.Before owner x) (hm' : o'.node? x = some m') :
    Aware s candidate x m' := by
  obtain ⟨m, hm, hrole⟩ := h.exists_superpeer hbefore.1
  have hme : m.ring.me = x := h.me hm
  have hother : x ≠ candidate := fun heq => hnew (heq ▸ hbefore.1)
  have hexact := h.exact x m hm hbefore.1
  have hpointed := hexact.toPointed
  obtain ⟨m'', hm'', houtlook⟩ := hpromoted.others x m hbefore.2.1 hother hm
  rw [hm'] at hm''
  cases hm''
  rw [if_pos ((h.told_iff hn hown.1).mpr hbefore), Node.noticeSuccessor_eq, if_pos hrole]
    at houtlook
  have hring : m'.ring = m.ring.noted candidate := congrArg (·.2.1) houtlook
  obtain ⟨t, hset, ht⟩ := Ring.setSuccessor_eq m.ring
    (Ring.admits_iff.mpr ⟨hme ▸ hother.symm, hvalid⟩)
  refine ⟨iff_of_true ((congrArg (·.2.2) houtlook).trans hrole)
    (NodeSet.mem_insert.mpr (.inr hbefore.1)), fun _ => ?_, .inl ?_⟩
  · rw [hring]
    exact hpointed.noted (hme.symm ▸ hbefore.1) hown hnew (hme.symm ▸ hbefore)
  · rw [hring, hpointed.noted_eq_setSuccessor (hme.symm ▸ hbefore.1) hown hnew (hme.symm ▸ hbefore),
      hset]
    rw [hexact.superpeers, hme] at ht
    exact NodeSet.eq_erase_insert hother.symm ht

omit hnew in
/-- Everybody else sees the ring as before. -/
theorem aware_other (howner : x ≠ owner) (hcandidate : x ≠ candidate)
    (hbefore : ¬ s.Before owner x) (hm : o.node? x = some m) (hm' : o'.node? x = some m') :
    Aware s candidate x m' := by
  obtain ⟨m'', hm'', houtlook⟩ := hpromoted.others x m howner hcandidate hm
  rw [hm'] at hm''
  cases hm''
  rw [if_neg (mt (h.told_iff hn hown.1).mp hbefore)] at houtlook
  have hring : m'.ring = m.ring := congrArg (·.2.1) houtlook
  have hrole : m'.isSuperpeer = m.isSuperpeer := congrArg (·.2.2) houtlook
  have hme : m.ring.me = x := h.me hm
  have hmember : x ∈ s.insert candidate ↔ x ∈ s :=
    NodeSet.mem_insert.trans (or_iff_right hcandidate)
  refine ⟨?_, fun hx => ?_, .inr ⟨hcandidate, fun hown' => howner (hown'.unique hown), ?_⟩⟩
  · rw [hrole, hmember]
    exact h.superpeer_iff x m hm
  · have hxs := hmember.mp hx
    rw [hring]
    exact (h.exact x m hm hxs).toPointed.insert_elsewhere (hme.symm ▸ hxs) hown
      (hme.symm ▸ howner) (hme.symm ▸ hbefore)
  · rw [hring]
    by_cases hx : x ∈ s
    · rw [(h.exact x m hm hx).superpeers, hme]
    · rw [h.lists x m hm hx]
      refine NodeSet.eq_of_mem_iff fun y => ?_
      rw [NodeSet.mem_erase]
      exact (and_iff_left_of_imp fun hy (heq : y = x) => hx (heq ▸ hy)).symm

include hk hvalid in
/-- After a promotion the word of the candidate spreads. -/
theorem spreading (hmembers : o'.members = o.members) : o'.Spreading s candidate := by
  have hnode : ∀ x m', o'.node? x = some m' → ∃ m, o.node? x = some m := by
    intro x m' hm'
    obtain ⟨member, hmember, -⟩ := node?_eq_some_iff.mp hm'
    exact h.exists_node? (hmembers ▸ hmember)
  refine ⟨hpromoted.direct, h.inhabited, hnew, fun x hx => ?_, fun x m' hm' => ?_⟩
  · by_cases hcandidate : x = candidate
    · obtain ⟨k', hk', -⟩ := hpromoted.took
      exact ⟨k', hcandidate ▸ hk'⟩
    by_cases howner : x = owner
    · obtain ⟨n', hn', -⟩ := hpromoted.gave
      exact ⟨n', howner ▸ hn'⟩
    obtain ⟨m, hm⟩ := h.running x ((NodeSet.mem_insert.mp hx).resolve_left hcandidate)
    obtain ⟨m', hm', -⟩ := hpromoted.others x m howner hcandidate hm
    exact ⟨m', hm'⟩
  · by_cases hcandidate : x = candidate
    · subst hcandidate
      exact hpromoted.aware_candidate h hn hk hnew hown hm'
    by_cases howner : x = owner
    · subst howner
      exact hpromoted.aware_owner h hn hnew hown hvalid hm'
    by_cases hbefore : s.Before owner x
    · exact hpromoted.aware_before h hn hnew hown hvalid hbefore hm'
    obtain ⟨m, hm⟩ := hnode x m' hm'
    exact hpromoted.aware_other h hn hown howner hcandidate hbefore hm hm'

/-! ## Contents -/

omit hnew in
include hk in
/-- Whoever keeps copies of what the candidate owns is told of the replacement, and what is stored
is otherwise as it was when the candidate took over. -/
theorem exists_read :
    ∃ replacement, replacement ≠ candidate ∧ ∀ x ∈ s.insert candidate, ∀ slot,
      o'.read x slot =
        if x ∈ (s.insert candidate).holders candidate then
          (Mutation.updateAll candidate replacement).change slot
            ((o.put candidate (becomeSuperpeer k (offer candidate n))).read x slot)
        else (o.put candidate (becomeSuperpeer k (offer candidate n))).read x slot := by
  let taken := becomeSuperpeer k (offer candidate n)
  have hme : taken.ring.me = candidate := (me_becomeSuperpeer k _).trans (h.me hk)
  have hdirect : (o.put candidate taken).Direct := h.direct.put hme
  have hlist : candidate :: taken.ring.backups candidate =
      (s.insert candidate).holders candidate :=
    Ring.cons_backups hme (h.superpeers_adopt_offer hn hk hown)
      (NodeSet.owns_self (NodeSet.mem_insert.mpr (.inl rfl)))
  have hnodup : (candidate :: taken.ring.backups candidate).Nodup :=
    List.nodup_cons.mpr ⟨fun hmem => (Ring.mem_of_mem_backups hmem).2 rfl, Ring.backups_nodup _ _⟩
  obtain ⟨replacement, hne, hstored⟩ := hpromoted.stored
  refine ⟨replacement, hne, fun x hx slot => ?_⟩
  obtain ⟨m, hm, hrole⟩ : ∃ m, (o.put candidate taken).node? x = some m ∧
      m.isSuperpeer = true := by
    by_cases hcandidate : x = candidate
    · rw [hcandidate]
      exact ⟨taken, node?_put_self hk, rfl⟩
    · obtain ⟨m, hm, hrole⟩ :=
        h.exists_superpeer ((NodeSet.mem_insert.mp hx).resolve_left hcandidate)
      exact ⟨m, (h.direct.node?_put_of_ne hcandidate).trans hm, hrole⟩
  have hhanded : (o.handedOver candidate replacement k (offer candidate n)).node? x =
      if x ∈ (s.insert candidate).holders candidate then
        some (m.mutate (.updateAll candidate replacement)) else some m := by
    rw [← hlist]
    refine (hdirect.node?_mutateEach hnodup).trans ?_
    rw [hm]
    rfl
  rw [read_of_node? hm]
  split
  case isTrue hholder =>
    rw [if_pos hholder] at hhanded
    obtain ⟨m', hm', hsame⟩ := hstored x _ hhanded
    rw [read_of_node? hm', Node.read_congr hsame, Node.read_mutate hrole]
  case isFalse hholder =>
    rw [if_neg hholder] at hhanded
    obtain ⟨m', hm', hsame⟩ := hstored x _ hhanded
    rw [read_of_node? hm', Node.read_congr hsame]

end Promoted

/-- What the candidate takes over, its own tree marked. -/
theorem Settled.read_offer {slot : Slot} (h : o.Settled s) (hn : o.node? owner = some n)
    (hk : o.node? candidate = some k) (hown : s.Owns candidate owner) (hkeyed : n.Keyed)
    (hholder : candidate ∈ (s.insert candidate).holders slot.position) :
    (becomeSuperpeer k (offer candidate n)).read slot =
      slot.mark candidate (o.read owner slot) := by
  have hmember : candidate ∈ s.insert candidate := NodeSet.mem_insert.mpr (.inl rfl)
  have harea : (n.ring.area candidate).contains slot.position = true := by
    rw [NodeSet.mem_holders_iff hmember] at hholder
    rw [Ring.area_contains_iff, (h.exact owner n hn hown.1).superpeers]
    refine Nat.le_trans (NodeSet.between_mono fun y hy _ => ?_) hholder
    exact NodeSet.mem_insert.mpr (.inr (NodeSet.mem_erase.mp hy).1)
  have hcarries : (offer candidate n).Carries slot (n.read slot) :=
    Node.carries_of_contains hkeyed harea
  rw [Node.read_becomeSuperpeer k hcarries, show k.me = candidate from h.me hk,
    read_of_node? hn]

end Overlay

end ChunkDirectory
