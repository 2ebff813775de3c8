import ChunkDirectory.Proofs.Convergence
import ChunkDirectory.Proofs.Protocol.Reached

/-!
# Verified lookups

A node may look for the owner of a key with a list that is out of date: it lacks superpeers of the ring,
and it names some that have failed. What such a list has to offer is a candidate and the superpeer
listed before it. From the latter on a walk goes through superpeers that are not listed, for as long as
it has not passed the key (`NodeSet.Facing.next`). So each round that does not find the owner finds
somebody new, and a lookup that has its answer checked names the owner or has added a superpeer to the
list in each of its rounds (`Overlay.Chained.resolve_owns_or_learns`).

The walk may pass through the node that makes the lookup, which does not list itself. It comes there in
the first round and finds the owner in the next, since a superpeer lists its neighbours.
-/

namespace ChunkDirectory

open NodeId Protocol

namespace NodeSet

variable {s l : NodeSet} {key c me p q w : NodeId} {rounds questions : Nat} {met : List NodeId}

/-- The superpeer `p` of the ring `s` lies before the key, and `l` names nobody from there to `c`, which
lies after the key. -/
structure Facing (s l : NodeSet) (key c p : NodeId) : Prop where
  member : p ∈ s
  before : clockwise key c < clockwise p c
  bare : ∀ y ∈ l, y ≠ c → clockwise p c ≤ clockwise y c

namespace Facing

/-- So does the superpeer listed before the one a list has for the owner. -/
theorem of_owns (hc : l.Owns key c) (hp : l.Before c p) (hps : p ∈ s) : s.Facing l key c p :=
  ⟨hps, (owns_iff_of_before hc.1 hp).mp hc, hp.2.2⟩

/-- If `c` is the next superpeer of the ring, it owns the key. -/
theorem owns (h : s.Facing l key c p) (hc : s.After p c) : s.Owns key c :=
  (owns_iff_of_before hc.1 (hc.before h.member)).mpr h.before

/-- If the next superpeer is another one and does not own the key, it lies before the key as well, nearer
than `p`, and is not listed. -/
theorem next (h : s.Facing l key c p) (hq : s.After p q) (hne : q ≠ c) (hnot : ¬ s.Owns key q) :
    s.Facing l key c q ∧ clockwise q c < clockwise p c ∧ q ∉ l := by
  rw [owns_iff_of_before hq.1 (hq.before h.member)] at hnot
  have hkey : p ≠ key := fun heq => Nat.lt_irrefl _ (heq ▸ h.before)
  have hpast : clockwise p q < clockwise p key := by
    have hpass := clockwise_add_of_le' (Nat.not_lt.mp hnot)
    have hturn := clockwise_add_swap hkey
    have hlt := clockwise_lt key q
    omega
  have hway := clockwise_add_of_le' (Nat.le_of_lt h.before)
  have hway' := clockwise_add_of_le (show clockwise p q ≤ clockwise p c by omega)
  have hpos := clockwise_pos hq.2.1.symm
  have hnearer : clockwise q c < clockwise p c := by omega
  refine ⟨⟨hq.1, by omega, fun y hy hyc => ?_⟩, hnearer, fun hql => ?_⟩
  · exact (Nat.le_of_lt hnearer).trans (h.bare y hy hyc)
  · exact Nat.not_le.mpr hnearer (h.bare q hql hne)

end Facing

namespace Walk

/-- A walk that is next to a listed superpeer ends at the owner. -/
theorem owns_of_listed (h : s.Walk key c p (rounds + 1) met w questions)
    (hfacing : s.Facing l key c p) (hq : s.After p q) (hlisted : q ∈ l) : s.Owns key w := by
  cases h with
  | alone hnone => exact absurd hq (hnone q)
  | confirmed hc => exact hfacing.owns hc
  | arrived _ _ hown => exact hown
  | passed hq' hne hnot => exact absurd (hq.unique hq' ▸ hlisted) (hfacing.next hq' hne hnot).2.2

/-- A walk ends at the owner, or it spends all its rounds and meets in each of them another superpeer
that is not listed. The node `me`, which lists its neighbours if it is a superpeer, is not among
them. -/
theorem owns_or_learns (h : s.Walk key c p rounds met w questions) (hfacing : s.Facing l key c p)
    (hsize : 2 ≤ s.size) (hme : me ∈ s → ∀ x, s.Before me x ∨ s.After me x → x ∈ l)
    (hrounds : p ∈ l → 2 ≤ rounds) :
    s.Owns key w ∨ questions = rounds ∧ met.length = rounds ∧ met.Nodup ∧
      ∀ x ∈ met, clockwise x c < clockwise p c ∧ x ∉ l ∧ x ≠ me := by
  induction h with
  | exhausted => exact .inr ⟨rfl, rfl, List.nodup_nil, fun x hx => by cases hx⟩
  | @alone p _ hnone =>
    obtain ⟨y, hy, hne⟩ := exists_ne hsize p
    obtain ⟨q, hq⟩ := exists_after hy hne
    exact absurd hq (hnone q)
  | confirmed hc => exact .inl (hfacing.owns hc)
  | arrived _ _ hown => exact .inl hown
  | @passed p q w rounds _ met hq hne hnot hrest ih =>
    obtain ⟨hfacing', hnearer, hql⟩ := hfacing.next hq hne hnot
    by_cases hself : q = me
    case pos =>
      -- Both neighbours of `me` are listed: `p`, so that there is one more round, and whom it leads to.
      subst hself
      have hpl : p ∈ l := hme hq.1 p (.inl (hq.before hfacing.member))
      obtain ⟨left, rfl⟩ : ∃ left, rounds = left + 1 :=
        Nat.exists_eq_add_of_le' (Nat.le_of_succ_le_succ (hrounds hpl))
      obtain ⟨q', hq'⟩ := exists_after hfacing.member hq.2.1.symm
      exact .inl (hrest.owns_of_listed hfacing' hq' (hme hq.1 q' (.inr hq')))
    case neg =>
      rcases ih hfacing' fun hlisted => absurd hlisted hql with hown | ⟨hspent, hlength, hnodup, hmet⟩
      · exact .inl hown
      · have hfresh : q ∉ met := fun hmem => Nat.lt_irrefl _ (hmet q hmem).1
        refine .inr ⟨congrArg (· + 1) hspent, congrArg (· + 1) hlength,
          List.nodup_cons.mpr ⟨hfresh, hnodup⟩, List.forall_mem_cons.mpr ⟨⟨hnearer, hql, hself⟩, ?_⟩⟩
        intro x hx
        exact ⟨(hmet x hx).1.trans hnearer, (hmet x hx).2⟩

end Walk

end NodeSet

section

variable {s : NodeSet} {key x : NodeId} {n : Node} {excused : NodeId → Prop}

/-- A superpeer that knows its neighbours lists them. -/
theorem Ring.Confined.mem_of_neighbour {r : Ring} (h : r.Confined excused) (hpointed : r.Pointed s)
    (hvalid : ∀ x ∈ s, x.isReserved = false) (hx : s.Before r.me x ∨ s.After r.me x) :
    x ∈ r.superpeers := by
  have hlisted (hxs : x ∈ s) (hnamed : x ∈ r.superpeers ∨ x.isReserved = true ∧ excused x) :
      x ∈ r.superpeers := by
    refine hnamed.resolve_right fun hreserved => ?_
    rw [hvalid x hxs] at hreserved
    cases hreserved.1
  rcases hx with hx | hx
  · exact hlisted hx.1 (h.predecessor x ((hpointed.predecessor x).mpr hx)).2
  · exact hlisted hx.1 (h.successor x ((hpointed.successor x).mpr hx)).2

/-- Who takes itself for the primary of a key owns it, if superpeers know their neighbours. -/
theorem Node.owns_of_isPrimaryFor (hcaller : n.isSuperpeer = true → n.me ∈ s ∧ n.ring.Pointed s)
    (hprimary : n.isPrimaryFor key = true) : s.Owns key n.me := by
  cases hrole : n.isSuperpeer with
  | true =>
    obtain ⟨hme, hpointed⟩ := hcaller hrole
    exact (isPrimaryFor_iff hrole hpointed hme).mp hprimary
  | false =>
    rw [isPrimaryFor_of_peer hrole] at hprimary
    cases hprimary

end

namespace Overlay

variable {ρ : Type} {o : Overlay ρ} {s : NodeSet} {id : NodeId} {n : Node} {excused : NodeId → Prop}

namespace Chained

/-- Let at least two superpeers know their successors, and let a node look for the owner of a key: a
peer, or one of the superpeers that knows its neighbours, in a state as it arises
(`Node.Arises.confined`). Its list names at least two, and the one before the candidate for the key is a
superpeer of the ring. Then the lookup names the owner; or it has asked as many superpeers as were
listed, and has added as many others of the ring to the list. -/
theorem resolve_owns_or_learns (h : o.Chained s) (hvalid : ∀ x ∈ s, x.isReserved = false)
    (hsize : 2 ≤ s.size) (hn : o.node? id = some n) (hconfined : n.Confined excused)
    (hcaller : n.isSuperpeer = true → n.me ∈ s ∧ n.ring.Pointed s)
    (hlist : 2 ≤ n.ring.superpeers.size) (key : NodeId)
    (hbefore : ∀ c p, n.ring.superpeers.Owns key c → n.ring.superpeers.Before c p → p ∈ s) :
    ∃ met w questions,
      LeadsAfter o questions id (resolve key true) (some w)
        (o.put id (n.mapRing (·.insertSuperpeers met))) ∧
      (∀ x ∈ met, x ∈ s) ∧
      (s.Owns key w ∨
        questions = n.ring.superpeers.size ∧ met.length = n.ring.superpeers.size ∧ met.Nodup ∧
          ∀ x ∈ met, x ∉ n.ring.superpeers ∧ x ∈ (n.ring.insertSuperpeers met).superpeers) := by
  by_cases hprimary : n.isPrimaryFor key = true
  case pos =>
    have hown := Node.owns_of_isPrimaryFor hcaller hprimary
    refine ⟨[], n.me, 0, ?_, List.forall_mem_nil _, .inl hown⟩
    rw [show o.put id (n.mapRing (·.insertSuperpeers [])) = o from put_of_node? hn]
    refine LeadsAfter.node_bind hn ?_
    rw [if_pos hprimary]
    exact LeadsAfter.pure hn
  case neg =>
    obtain ⟨y, hy, -⟩ := NodeSet.exists_ne hlist id
    obtain ⟨c, hc⟩ := NodeSet.exists_owner hy key
    obtain ⟨z, hz, hzc⟩ := NodeSet.exists_ne hlist c
    obtain ⟨p, hp⟩ := NodeSet.exists_before hz hzc
    have hps := hbefore c p hc hp
    obtain ⟨met, w, questions, hwalk, hleads⟩ := h.exists_walk hn key c hps n.ring.superpeers.size
    have hneighbours : n.me ∈ s → ∀ x, s.Before n.me x ∨ s.After n.me x → x ∈ n.ring.superpeers := by
      intro hmem x hx
      rw [h.direct.me hn] at hmem
      obtain ⟨m, hm, hrole, -⟩ := h.chained id hmem
      cases hn.symm.trans hm
      exact hconfined.ring.mem_of_neighbour (hcaller hrole).2 hvalid hx
    have hresolve := hleads.resolve_verified hn hprimary (Ring.responsible_eq_some_iff.mpr hc)
      (Ring.previousBefore_eq_some_iff.mpr hp) (node?_put_self hn)
    refine ⟨met, w, questions, hresolve, hwalk.mem, ?_⟩
    refine (hwalk.owns_or_learns (.of_owns hc hp hps) hsize hneighbours fun _ => hlist).imp_right ?_
    rintro ⟨hspent, hlength, hnodup, hmet⟩
    refine ⟨hspent, hlength, hnodup, fun x hx => ⟨(hmet x hx).2.1, ?_⟩⟩
    obtain ⟨t, ht, hmem⟩ := Ring.insertSuperpeers_eq met n.ring
    have hadmits := Ring.admits_iff.mpr ⟨(hmet x hx).2.2, hvalid x (hwalk.mem x hx)⟩
    rw [ht]
    exact (hmem x).mpr (.inr ⟨hx, hadmits⟩)

/-- In a ring of five a peer has not heard of two superpeers, and it lists one that has failed. The walk
passes the failed one by and ends at the owner. -/
theorem resolve_owns_or_learns_five :
    ∃ (o : Overlay Unit) (n : Node), o.node? ⟨500⟩ = some n ∧ o.node? ⟨2700⟩ = none ∧
      n.ring.superpeers = .ofList [⟨0⟩, ⟨1000⟩, ⟨2700⟩, ⟨4000⟩] ∧
      n.ring.responsible ⟨2500⟩ = some ⟨2700⟩ ∧
      ∃ o₁, Leads o ⟨500⟩ (resolve ⟨2500⟩ true) (some ⟨3000⟩) o₁ := by
  let l : NodeSet := .ofList [⟨0⟩, ⟨1000⟩, ⟨2700⟩, ⟨4000⟩]
  let k := Node.complete ringOfFive (twoAttempts ⟨500⟩ .peer)
  let o : Overlay Unit := complete ringOfFive nodesOfFive
  have hk : o.node? ⟨500⟩ = some k := rfl
  have hlinked : o.Linked ringOfFive := settled_five.linked
  have hc : l.Owns ⟨2500⟩ ⟨2700⟩ := by decide
  have hp : l.Before ⟨2700⟩ ⟨1000⟩ := by decide
  have hbefore : ∀ c p, l.Owns ⟨2500⟩ c → l.Before c p → p ∈ ringOfFive := by
    intro c p hc' hp'
    obtain rfl := hc.unique hc'
    obtain rfl := hp.unique hp'
    decide
  have hconfined : (k.withSuperpeers l).Confined fun _ => False := by
    have hadmits : ∀ x ∈ l.toList, k.ring.admits x = true := by decide
    refine ⟨⟨hadmits, fun x hx => ?_, fun x hx => ?_, fun x hx => ?_⟩, fun _ => ⟨rfl, rfl, rfl⟩⟩ <;>
      cases hx
  obtain ⟨met, w, questions, hleads, hmet, hresult⟩ :=
    (hlinked.put hk l).chained.resolve_owns_or_learns hlinked.valid (by decide) (node?_put_self hk)
      hconfined (fun hrole => by cases hrole) (by decide) ⟨2500⟩ hbefore
  have hown : ringOfFive.Owns ⟨2500⟩ w := by
    refine hresult.resolve_right ?_
    rintro ⟨-, hlength, hnodup, hnew⟩
    -- Only two superpeers are missing from the list.
    have hmissing : ∀ x ∈ ringOfFive.toList, x ∉ l → x ∈ [(⟨2000⟩ : NodeId), ⟨3000⟩] := by decide
    have hfew : met.length ≤ 2 :=
      (List.subperm_of_subset hnodup fun x hx => hmissing x (hmet x hx) (hnew x hx).1).length_le
    have hlist : (k.withSuperpeers l).ring.superpeers.size = 4 := by decide
    omega
  have howner : ringOfFive.Owns ⟨2500⟩ ⟨3000⟩ := by decide
  obtain rfl := howner.unique hown
  exact ⟨o.put ⟨500⟩ (k.withSuperpeers l), k.withSuperpeers l, node?_put_self hk,
    (hlinked.direct.node?_put_of_ne (by decide)).trans rfl, rfl,
    Ring.responsible_eq_some_iff.mpr hc, _, hleads.leads⟩

end Chained

end Overlay

end ChunkDirectory
