import ChunkDirectory.Proofs.Overlay.Idle
import ChunkDirectory.Proofs.Protocol.Request
import ChunkDirectory.Proofs.Ring.Formed

/-!
# Walks along the ring

A node that looks for the owner of a key begins with its own list and may have the answer checked by
following the successors from the superpeer before. How such a walk goes is a matter of the ring alone
(`NodeSet.Walk`): where all superpeers know their successors, it ends at the owner or at the superpeer
it is expected to end at, and nothing changes but the list of whoever asks
(`Chained.exists_walk`).

So while the word of a newcomer spreads, a lookup ends at the owner of the key in the ring with the
newcomer or without it (`Spreading.leads_resolve`).
-/

namespace ChunkDirectory

open Protocol

namespace Node

variable {n : Node}

/-- What a node answers from. Whom it lists makes no difference. -/
def stance (n : Node) : Config × NodeId × Option NodeId × Option NodeId × Role :=
  (n.config, n.me, n.ring.predecessor, n.ring.successor, n.role)

/-- To list more superpeers changes nothing but the list. -/
theorem stance_insertSuperpeers (n : Node) (ids : List NodeId) :
    (n.mapRing (·.insertSuperpeers ids)).stance = n.stance := by
  obtain ⟨t, ht, -⟩ := Ring.insertSuperpeers_eq ids n.ring
  rw [mapRing, ht]
  rfl

end Node

/-- How a walk along the ring `s` goes, from a superpeer and with some rounds to spend: whom it meets,
where it ends, and how many superpeers were asked for their successors. It looks for the owner of
`key` and is expected to end at `found`. -/
inductive NodeSet.Walk (s : NodeSet) (key found : NodeId) :
    NodeId → Nat → List NodeId → NodeId → Nat → Prop where
  /-- No round is left. -/
  | exhausted {p : NodeId} : Walk s key found p 0 [] found 0
  /-- There is no other superpeer. -/
  | alone {p : NodeId} {rounds : Nat} (h : ∀ q, ¬ s.After p q) :
    Walk s key found p (rounds + 1) [] found 1
  /-- The next superpeer is the expected one. -/
  | confirmed {p : NodeId} {rounds : Nat} (h : s.After p found) :
    Walk s key found p (rounds + 1) [] found 1
  /-- The next superpeer is another one and owns the key. -/
  | arrived {p q : NodeId} {rounds : Nat} (hq : s.After p q) (hne : q ≠ found)
    (hown : s.Owns key q) : Walk s key found p (rounds + 1) [q] q 1
  /-- The next superpeer is another one, which does not own the key either. -/
  | passed {p q w : NodeId} {rounds questions : Nat} {met : List NodeId} (hq : s.After p q)
    (hne : q ≠ found) (hnot : ¬ s.Owns key q) (hrest : Walk s key found q rounds met w questions) :
    Walk s key found p (rounds + 1) (q :: met) w (questions + 1)

namespace NodeSet.Walk

variable {s : NodeSet} {key found p w : NodeId} {rounds questions : Nat} {met : List NodeId}

/-- A walk meets superpeers only. -/
theorem mem (h : s.Walk key found p rounds met w questions) : ∀ x ∈ met, x ∈ s := by
  induction h with
  | exhausted | alone | confirmed => intro x hx; cases hx
  | arrived hq => exact List.forall_mem_singleton.mpr hq.1
  | passed hq _ _ _ ih => exact List.forall_mem_cons.mpr ⟨hq.1, ih⟩

/-- A walk ends at the owner of the key, or where it is expected to end. -/
theorem owns_or_eq (h : s.Walk key found p rounds met w questions) : s.Owns key w ∨ w = found := by
  induction h with
  | exhausted | alone | confirmed => exact .inr rfl
  | arrived _ _ hown => exact .inl hown
  | passed _ _ _ _ ih => exact ih

end NodeSet.Walk

/-- Whether a superpeer was asked for its successor. -/
def Event.asksSuccessor {ρ : Type} : Event ρ → Bool
  | .called _ _ .askAboutSuccessor _ => true
  | _ => false

namespace Overlay

variable {ρ α β : Type} {o o₁ o₂ : Overlay ρ} {s : NodeSet} {id key found p new : NodeId} {n m : Node}

/-! ## Questions -/

/-- A running node's task ends with `a` and leaves `o'`, and superpeers are asked for their successors
so many times. -/
def LeadsAfter (o : Overlay ρ) (questions : Nat) (id : NodeId) (task : Task α) (a : α)
    (o' : Overlay ρ) : Prop :=
  ∃ events, Does o id task a o' events ∧ events.countP Event.asksSuccessor = questions

namespace LeadsAfter

variable {task : Task α} {a : α} {b : β} {k l : Nat}

theorem leads (h : LeadsAfter o k id task a o₁) : Leads o id task a o₁ := by
  obtain ⟨_, h, -⟩ := h
  exact .of_does h

theorem pure (hn : o.node? id = some n) : LeadsAfter o 0 id (Pure.pure a) a o :=
  ⟨[], Does.pure hn, rfl⟩

theorem bind {f : α → Task β} (h : LeadsAfter o k id task a o₁)
    (hrest : LeadsAfter o₁ l id (f a) b o₂) : LeadsAfter o (l + k) id (task >>= f) b o₂ := by
  obtain ⟨_, h, hk⟩ := h
  obtain ⟨_, hrest, hl⟩ := hrest
  exact ⟨_, h.bind hrest, by rw [List.countP_append, hk, hl]⟩

theorem node_bind {f : Node → Task β} (hn : o.node? id = some n)
    (hrest : LeadsAfter o k id (f n) b o₂) : LeadsAfter o k id (Task.node >>= f) b o₂ := by
  obtain ⟨_, hrest, hk⟩ := hrest
  exact ⟨_, Does.node_bind hn hrest, hk⟩

theorem modify_bind {f : Unit → Task β} {change : Node → Node} (hn : o.node? id = some n)
    (hrest : LeadsAfter (o.put id (change n)) k id (f ()) b o₂) :
    LeadsAfter o k id (Task.modify change >>= f) b o₂ := by
  obtain ⟨_, hrest, hk⟩ := hrest
  exact ⟨_, Does.modify_bind hn hrest, hk⟩

theorem map {f : α → β} (h : LeadsAfter o k id task a o₁) (hn₁ : o₁.node? id = some m) :
    LeadsAfter o k id (task >>= fun x => Pure.pure (f x)) (f a) o₁ := by
  obtain ⟨_, h, hk⟩ := h
  exact ⟨_, h.map hn₁, hk⟩

end LeadsAfter

/-! ## Superpeers that know their successors -/

/-- The members of `s` are running superpeers, and each of them knows the next one. -/
structure Chained (s : NodeSet) (o : Overlay ρ) : Prop where
  direct : o.Direct
  chained : ∀ x ∈ s, ∃ n, o.node? x = some n ∧ n.isSuperpeer = true ∧
    ∀ q, n.ring.successor = some q ↔ s.After x q

/-- A lookup that has the answer of the list checked. -/
theorem LeadsAfter.resolve_verified {c w : NodeId} {k : Nat} {n₁ : Node} (hn : o.node? id = some n)
    (hprimary : n.isPrimaryFor key ≠ true) (hc : n.ring.responsible key = some c)
    (hp : n.ring.previousBefore c = some p)
    (hwalk : LeadsAfter o k id (verifyOwner key c p n.ring.superpeers.size) w o₁)
    (hn₁ : o₁.node? id = some n₁) : LeadsAfter o k id (resolve key true) (some w) o₁ := by
  apply LeadsAfter.node_bind hn
  rw [if_neg hprimary, hc]
  simp only [if_true, hp]
  exact hwalk.map hn₁

/-- To list more superpeers changes nothing that others are told. -/
theorem alike_insertSuperpeers (h : o.Direct) (hn : o.node? id = some n) (ids : List NodeId) :
    Alike Node.stance o (o.put id (n.mapRing (·.insertSuperpeers ids))) := by
  have hstance := n.stance_insertSuperpeers ids
  exact .put h hn (congrArg (·.2.1) hstance) hstance

namespace Chained

variable {q w : NodeId} {rounds k : Nat}

theorem of_alike (h : o.Chained s) (hsame : Alike Node.stance o o₁) : o₁.Chained s := by
  refine ⟨hsame.direct, fun x hx => ?_⟩
  obtain ⟨n, hn, hrole, hsuccessor⟩ := h.chained x hx
  obtain ⟨m, hm, hstance⟩ := hsame.exists_node? hn
  have hsame : m.ring.successor = n.ring.successor := congrArg (·.2.2.2.1) hstance
  refine ⟨m, hm, ?_, fun q => ?_⟩
  · rw [Node.isSuperpeer_congr (congrArg (·.2.2.2.2) hstance : m.role = n.role)]
    exact hrole
  · rw [hsame]
    exact hsuccessor q

/-- A running superpeer answers to a sign of life. -/
theorem leads_ping (h : o.Chained s) (hn : o.node? id = some n) (hp : p ∈ s) :
    LeadsAfter o 0 id (Task.call p .pingSuperpeer) (.ok .ack) o := by
  obtain ⟨m, hm, -⟩ := h.chained p hp
  exact ⟨_, h.direct.does_call hn (Does.question (f := fun _ => .ack) hm rfl) hn, rfl⟩

/-- Asked for its successor, a member names the next one, if there is one. -/
theorem exists_leads_askAboutSuccessor (h : o.Chained s) (hn : o.node? id = some n) (hp : p ∈ s) :
    ∃ next, (∀ q, next = some q ↔ s.After p q) ∧
      LeadsAfter o 1 id (Task.call p .askAboutSuccessor) (.ok (.successorIs next)) o := by
  obtain ⟨m, hm, hrole, hsuccessor⟩ := h.chained p hp
  have hanswer : m.successorAnswer = .successorIs m.ring.successor := by
    rw [Node.successorAnswer, if_pos hrole]
  refine ⟨m.ring.successor, hsuccessor, ?_⟩
  rw [← hanswer]
  exact ⟨_, h.direct.does_call hn (Does.question (f := (·.successorAnswer)) hm rfl) hn, rfl⟩

theorem leads_askAboutSuccessor (h : o.Chained s) (hn : o.node? id = some n) (hp : p ∈ s)
    (hq : s.After p q) :
    LeadsAfter o 1 id (Task.call p .askAboutSuccessor) (.ok (.successorIs (some q))) o := by
  obtain ⟨next, hnext, hask⟩ := h.exists_leads_askAboutSuccessor hn hp
  rw [(hnext q).mpr hq] at hask
  exact hask

/-- A round in which there is no other superpeer. -/
theorem leads_verifyOwner_alone (h : o.Chained s) (hn : o.node? id = some n) (hp : p ∈ s)
    (hnone : ∀ q, ¬ s.After p q) :
    LeadsAfter o 1 id (verifyOwner key found p (rounds + 1)) found o := by
  obtain ⟨next, hnext, hask⟩ := h.exists_leads_askAboutSuccessor hn hp
  unfold verifyOwner
  cases next with
  | none => exact hask.bind (LeadsAfter.pure hn)
  | some q => exact absurd ((hnext q).mp rfl) (hnone q)

/-- A round in which the expected superpeer is confirmed. -/
theorem leads_verifyOwner_confirmed (h : o.Chained s) (hn : o.node? id = some n) (hp : p ∈ s)
    (hq : s.After p found) :
    LeadsAfter o 1 id (verifyOwner key found p (rounds + 1)) found o := by
  unfold verifyOwner
  refine (h.leads_askAboutSuccessor hn hp hq).bind ?_
  simp only [if_true]
  exact LeadsAfter.pure hn

/-- A round in which another superpeer is met. It is listed, and the walk ends there or goes on. -/
theorem leads_verifyOwner_met (h : o.Chained s) (hn : o.node? id = some n) (hp : p ∈ s)
    (hq : s.After p q) (hne : q ≠ found)
    (hrest : LeadsAfter (o.put id (n.mapRing (·.insertSuperpeer q))) k id
      (if Arc.contains ⟨p, q, .upperClosed⟩ key then return q
        else verifyOwner key found q rounds) w o₁) :
    LeadsAfter o (k + 1) id (verifyOwner key found p (rounds + 1)) w o₁ := by
  have hlist : LeadsAfter o k id (Task.modifyRing (·.insertSuperpeer q) >>= fun _ =>
      if Arc.contains ⟨p, q, .upperClosed⟩ key then return q
      else verifyOwner key found q rounds) w o₁ := LeadsAfter.modify_bind hn hrest
  unfold verifyOwner
  refine (h.leads_askAboutSuccessor hn hp hq).bind ?_
  simp only [hne, if_false]
  apply LeadsAfter.node_bind hn
  split
  · exact (LeadsAfter.pure hn).bind hlist
  · exact (h.leads_ping hn hq.1).bind ((LeadsAfter.pure hn).bind hlist)

/-- Following the successors is a walk along the ring, and whom it meets is listed. -/
theorem exists_walk (h : o.Chained s) (hn : o.node? id = some n) (key found : NodeId) (hp : p ∈ s)
    (rounds : Nat) :
    ∃ met w questions, s.Walk key found p rounds met w questions ∧
      LeadsAfter o questions id (verifyOwner key found p rounds) w
        (o.put id (n.mapRing (·.insertSuperpeers met))) := by
  have hnobody : o.put id (n.mapRing (·.insertSuperpeers [])) = o := put_of_node? hn
  induction rounds generalizing o n p with
  | zero => exact ⟨[], found, 0, .exhausted, hnobody.symm ▸ LeadsAfter.pure hn⟩
  | succ rounds ih =>
    by_cases hother : ∃ q, s.After p q
    case neg =>
      have hnone : ∀ q, ¬ s.After p q := fun q hq => hother ⟨q, hq⟩
      exact ⟨[], found, 1, .alone hnone, hnobody.symm ▸ h.leads_verifyOwner_alone hn hp hnone⟩
    case pos =>
      obtain ⟨q, hq⟩ := hother
      by_cases hfound : q = found
      case pos =>
        subst hfound
        exact ⟨[], q, 1, .confirmed hq, hnobody.symm ▸ h.leads_verifyOwner_confirmed hn hp hq⟩
      case neg =>
        have harrives : Arc.contains ⟨p, q, .upperClosed⟩ key = true ↔ s.Owns key q := by
          rw [Arc.mem_upperClosed_iff hq.2.1.symm, NodeSet.owns_iff_of_before hq.1 (hq.before hp)]
        have hn₁ : (o.put id (n.mapRing (·.insertSuperpeer q))).node? id =
            some (n.mapRing (·.insertSuperpeer q)) := node?_put_self hn
        by_cases hown : s.Owns key q
        case pos =>
          refine ⟨[q], q, 1, .arrived hq hfound hown, h.leads_verifyOwner_met hn hp hq hfound ?_⟩
          rw [if_pos (harrives.mpr hown)]
          exact LeadsAfter.pure hn₁
        case neg =>
          have h₁ := h.of_alike (alike_insertSuperpeers h.direct hn [q])
          obtain ⟨met, w, k, hwalk, hrest⟩ := ih h₁ hn₁ hq.1 (put_of_node? hn₁)
          rw [put_put] at hrest
          refine ⟨q :: met, w, k + 1, .passed hq hfound hown hwalk,
            h.leads_verifyOwner_met hn hp hq hfound ?_⟩
          rw [if_neg (mt harrives.mp hown)]
          exact hrest

end Chained

/-! ## Superpeers that know their neighbours -/

/-- The superpeers are the members of `s`, and each of them knows its neighbours. -/
structure Pointing (s : NodeSet) (o : Overlay ρ) : Prop where
  direct : o.Direct
  running : ∀ x ∈ s, ∃ n, o.node? x = some n
  superpeer_iff : ∀ x n, o.node? x = some n → (n.isSuperpeer = true ↔ x ∈ s)
  pointed : ∀ x n, x ∈ s → o.node? x = some n → n.ring.Pointed s

namespace Pointing

theorem chained (h : o.Pointing s) : o.Chained s := by
  refine ⟨h.direct, fun x hx => ?_⟩
  obtain ⟨n, hn⟩ := h.running x hx
  have hme : n.ring.me = x := h.direct.me hn
  exact ⟨n, hn, (h.superpeer_iff x n hn).mpr hx, hme ▸ (h.pointed x n hx hn).successor⟩

theorem isPrimaryFor_iff (h : o.Pointing s) (hn : o.node? id = some n) :
    n.isPrimaryFor key = true ↔ s.Owns key id := by
  have hme : n.me = id := h.direct.me hn
  by_cases hid : id ∈ s
  · have hrole := (h.superpeer_iff id n hn).mpr hid
    rw [Node.isPrimaryFor_iff hrole (h.pointed id n hid hn) (hme.symm ▸ hid), hme]
  · have hrole : n.isSuperpeer = false :=
      Bool.not_eq_true _ ▸ fun hsuper => hid ((h.superpeer_iff id n hn).mp hsuper)
    rw [Node.isPrimaryFor_of_peer hrole]
    exact iff_of_false Bool.false_ne_true fun hown => hid hown.1

end Pointing

/-! ## A newcomer not everybody has heard of -/

/-- What the node `x` makes of a ring that `new` has come to. A superpeer points right, and `new` is
listed by the superpeer whose range it shares. -/
structure Aware (s : NodeSet) (new x : NodeId) (n : Node) : Prop where
  superpeer_iff : n.isSuperpeer = true ↔ x ∈ s.insert new
  pointed : x ∈ s.insert new → n.ring.Pointed (s.insert new)
  lists : n.ring.superpeers = (s.insert new).erase x ∨
    x ≠ new ∧ ¬ s.Owns new x ∧ n.ring.superpeers = s.erase x

/-- `new` has its place on the ring, and the word of it spreads. -/
structure Spreading (s : NodeSet) (new : NodeId) (o : Overlay ρ) : Prop where
  direct : o.Direct
  inhabited : ∃ x, x ∈ s
  newcomer : new ∉ s
  running : ∀ x ∈ s.insert new, ∃ n, o.node? x = some n
  aware : ∀ x n, o.node? x = some n → Aware s new x n

namespace Spreading

theorem pointing (h : o.Spreading s new) : o.Pointing (s.insert new) :=
  ⟨h.direct, h.running, fun x n hn => (h.aware x n hn).superpeer_iff,
    fun x n hx hn => (h.aware x n hn).pointed hx⟩

/-- Whoever does not own a key finds the one in its list who does, or did before the newcomer
came. -/
theorem exists_responsible (h : o.Spreading s new) (hn : o.node? id = some n)
    (hnot : ¬ (s.insert new).Owns key id) :
    ∃ found, n.ring.responsible key = some found ∧
      ((s.insert new).Owns key found ∨ s.Owns key found) := by
  obtain ⟨x, hx⟩ := h.inhabited
  rcases (h.aware id n hn).lists with hlist | ⟨-, hother, hlist⟩
  · obtain ⟨found, hfound⟩ := NodeSet.exists_owner (NodeSet.mem_insert.mpr (.inr hx)) key
    refine ⟨found, ?_, .inl hfound⟩
    rw [Ring.responsible_eq_some_iff, hlist, NodeSet.owns_erase_iff hnot]
    exact hfound
  · obtain ⟨found, hfound⟩ := NodeSet.exists_owner hx key
    obtain ⟨owner, howner⟩ := NodeSet.exists_owner hx new
    have hnot' : ¬ s.Owns key id := by
      intro hown
      have hgone : (s.insert new).Owns key new := by
        by_contra hkept
        exact hnot ((NodeSet.owns_insert_iff h.newcomer hown.1).mpr ⟨hown, hkept⟩)
      exact hother ((NodeSet.owns_of_newcomer_owns howner hgone).unique hown ▸ howner)
    refine ⟨found, ?_, .inr hfound⟩
    rw [Ring.responsible_eq_some_iff, hlist, NodeSet.owns_erase_iff hnot']
    exact hfound

/-- Whoever is listed is a superpeer. -/
theorem mem_of_listed (h : o.Spreading s new) (hn : o.node? id = some n)
    (hp : p ∈ n.ring.superpeers) : p ∈ s.insert new := by
  rcases (h.aware id n hn).lists with hlist | ⟨-, -, hlist⟩
  · rw [hlist] at hp
    exact (NodeSet.mem_erase.mp hp).1
  · rw [hlist] at hp
    exact NodeSet.mem_insert.mpr (.inr (NodeSet.mem_erase.mp hp).1)

/-- A lookup ends at the owner of the key, or at the one who was its owner before the newcomer came.
-/
theorem leads_resolve (h : o.Spreading s new) (hn : o.node? id = some n) (verify : Bool) :
    ∃ w o₁, Leads o id (resolve key verify) (some w) o₁ ∧
      ((s.insert new).Owns key w ∨ s.Owns key w) ∧ Alike Node.stance o o₁ := by
  have hme : n.me = id := h.direct.me hn
  by_cases hprimary : n.isPrimaryFor key = true
  · refine ⟨id, o, Leads.node_bind hn ?_, .inl ((h.pointing.isPrimaryFor_iff hn).mp hprimary),
      .rfl h.direct⟩
    rw [if_pos hprimary, hme]
    exact Leads.pure hn
  have hnot : ¬ (s.insert new).Owns key id := fun hown =>
    hprimary ((h.pointing.isPrimaryFor_iff hn).mpr hown)
  obtain ⟨found, hfound, howner⟩ := h.exists_responsible hn hnot
  cases verify with
  | false =>
    refine ⟨found, o, Leads.node_bind hn ?_, howner, .rfl h.direct⟩
    rw [if_neg hprimary, hfound]
    exact Leads.pure hn
  | true =>
    cases hprevious : n.ring.previousBefore found with
    | none =>
      refine ⟨found, o, Leads.node_bind hn ?_, howner, .rfl h.direct⟩
      rw [if_neg hprimary, hfound]
      simp only [if_true, hprevious]
      exact Leads.pure hn
    | some p =>
      have hp := h.mem_of_listed hn (Ring.previousBefore_eq_some_iff.mp hprevious).1
      obtain ⟨met, w, _, hwalk, hleads⟩ :=
        h.pointing.chained.exists_walk hn key found hp n.ring.superpeers.size
      have hresolve := hleads.resolve_verified hn hprimary hfound hprevious (node?_put_self hn)
      exact ⟨w, _, hresolve.leads, hwalk.owns_or_eq.elim .inl fun heq => heq ▸ howner,
        alike_insertSuperpeers h.direct hn met⟩

end Spreading

end Overlay

end ChunkDirectory
