import ChunkDirectory.Proofs.Overlay.Execution
import ChunkDirectory.Proofs.SortedMap

/-!
# Calm overlays

In a calm overlay every message reaches its receiver: no rule interferes, no running node is cut off
and no background work waits. Running nodes are told apart by their identifiers, so the states of a
calm overlay are a function of the identifier (`node?`) that is changed at one identifier at a time
(`put`).

`Does o id task a o' events` says what a running node does in a calm overlay: its task ends with `a`
and leaves `o'`; `Leads` says so without the events. There is one rule for each kind of task. A call
ends as its receiver's handler does (`Does.call`), so that what one node does for another is used
through its own statement.
-/

namespace ChunkDirectory

namespace Overlay

variable {ρ α β : Type} {o o₁ o₂ : Overlay ρ} {id other : NodeId} {n m : Node}
  {events events₁ : List (Event ρ)}

/-- The state of a running node. -/
def node? (o : Overlay ρ) (id : NodeId) : Option Node := (o.running? id).map (·.2)

/-- Sets the state of a running node. -/
def put (o : Overlay ρ) (id : NodeId) (n : Node) : Overlay ρ :=
  match o.members.get? id with
  | some member => o.keep member.node n
  | none => o

/-- Every message is delivered, and a running node is found under its own identifier. -/
structure Calm (o : Overlay ρ) : Prop where
  rules : o.rules = []
  queue : o.queue = []
  up : ∀ id member, o.members.get? id = some member → o.holds .down id = false
  numbered : ∀ id member, o.members.get? id = some member →
    ∃ n, o.nodes[member.node]? = some n ∧ n.me = id

/-! ## States by identifier -/

theorem running?_eq_some_iff {member : Member} :
    o.running? id = some (member, n) ↔
      o.members.get? id = some member ∧ o.nodes[member.node]? = some n := by
  simp only [running?, bind, pure, Option.bind_eq_some_iff, Option.some.injEq, Prod.mk.injEq]
  constructor
  · rintro ⟨member', hmember, n', hn, rfl, rfl⟩
    exact ⟨hmember, hn⟩
  · rintro ⟨hmember, hn⟩
    exact ⟨member, hmember, n, hn, rfl, rfl⟩

theorem node?_eq_some_iff :
    o.node? id = some n ↔
      ∃ member, o.members.get? id = some member ∧ o.nodes[member.node]? = some n := by
  simp only [node?, Option.map_eq_some_iff, Prod.exists, exists_eq_right]
  exact exists_congr fun member => running?_eq_some_iff

@[simp] theorem members_put : (o.put id n).members = o.members := by
  unfold put
  cases o.members.get? id <;> rfl

/-- Setting the state a node has changes nothing. -/
theorem put_of_node? (h : o.node? id = some n) : o.put id n = o := by
  obtain ⟨member, hmember, hn⟩ := node?_eq_some_iff.mp h
  simp only [put, hmember, keep_of_getElem? hn]

theorem node?_put_self (h : o.node? id = some n) : (o.put id m).node? id = some m := by
  obtain ⟨member, hmember, hn⟩ := node?_eq_some_iff.mp h
  have hlt := (Array.getElem?_eq_some_iff.mp hn).1
  refine node?_eq_some_iff.mpr ⟨member, by rw [members_put]; exact hmember, ?_⟩
  simp only [put, hmember]
  exact getElem?_keep_self hlt

namespace Calm

/-- Running nodes know their identifiers. -/
theorem me (h : o.Calm) (hn : o.node? id = some n) : n.me = id := by
  obtain ⟨member, hmember, hnode⟩ := node?_eq_some_iff.mp hn
  obtain ⟨n', hn', hme⟩ := h.numbered id member hmember
  rw [hn'] at hnode
  cases hnode
  exact hme

/-- Every member is running. -/
theorem exists_node? (h : o.Calm) {member : Member} (hmember : o.members.get? id = some member) :
    ∃ n, o.node? id = some n := by
  obtain ⟨n, hn, -⟩ := h.numbered id member hmember
  exact ⟨n, node?_eq_some_iff.mpr ⟨member, hmember, hn⟩⟩

/-- Different nodes have different numbers. -/
theorem number_ne (h : o.Calm) (hne : other ≠ id) {a b : Member}
    (ha : o.members.get? other = some a) (hb : o.members.get? id = some b) : a.node ≠ b.node := by
  intro heq
  obtain ⟨n, hn, hme⟩ := h.numbered other a ha
  obtain ⟨n', hn', hme'⟩ := h.numbered id b hb
  rw [heq, hn'] at hn
  cases hn
  exact hne (hme.symm.trans hme')

theorem node?_put_of_ne (h : o.Calm) (hne : other ≠ id) :
    (o.put id n).node? other = o.node? other := by
  cases hmember : o.members.get? id with
  | none => simp only [put, hmember]
  | some member =>
    apply Option.ext
    intro x
    rw [node?_eq_some_iff, node?_eq_some_iff, members_put]
    refine exists_congr fun other' => and_congr_right fun hother => ?_
    have hnum := h.number_ne hne hother hmember
    simp only [put, hmember]
    rw [getElem?_keep_of_ne hnum]

/-- Setting the state of a node keeps an overlay calm. -/
theorem put (h : o.Calm) (hme : n.me = id) : (o.put id n).Calm := by
  cases hmember : o.members.get? id with
  | none =>
    have hsame : o.put id n = o := by simp only [Overlay.put, hmember]
    rw [hsame]
    exact h
  | some member =>
    have hkeep : o.put id n = o.keep member.node n := by simp only [Overlay.put, hmember]
    rw [hkeep]
    refine ⟨h.rules, h.queue, h.up, fun other member' hother => ?_⟩
    obtain ⟨x, hx, hxme⟩ := h.numbered other member' hother
    by_cases heq : other = id
    · subst heq
      have hsame : member' = member := Option.some.inj (hother.symm.trans hmember)
      subst hsame
      have hlt := (Array.getElem?_eq_some_iff.mp hx).1
      exact ⟨n, getElem?_keep_self hlt, hme⟩
    · have hnum := h.number_ne heq hother hmember
      exact ⟨x, by rw [getElem?_keep_of_ne hnum]; exact hx, hxme⟩

end Calm

/-! ## What nodes do -/

/-- A running node's task ends with `a` and leaves `o'`. -/
def Does (o : Overlay ρ) (id : NodeId) (task : Task α) (a : α) (o' : Overlay ρ)
    (events : List (Event ρ)) : Prop :=
  ∃ member n, o.members.get? id = some member ∧ o.nodes[member.node]? = some n ∧
    Path member.node o (task n) a o' events ∧ o'.members = o.members

namespace Does

variable {task : Task α} {a : α} {b : β}

theorem members (h : Does o id task a o₁ events) : o₁.members = o.members := by
  obtain ⟨_, _, _, _, _, hmembers⟩ := h
  exact hmembers

theorem pure (hn : o.node? id = some n) : Does o id (Pure.pure a) a o [] := by
  obtain ⟨member, hmember, hnode⟩ := node?_eq_some_iff.mp hn
  have hpath : Path member.node o (.done a n) a (o.keep member.node n) [] := .done
  rw [keep_of_getElem? hnode] at hpath
  exact ⟨member, n, hmember, hnode, hpath, rfl⟩

theorem node (hn : o.node? id = some n) : Does o id Task.node n o [] := by
  obtain ⟨member, hmember, hnode⟩ := node?_eq_some_iff.mp hn
  have hpath : Path member.node o (.done n n) n (o.keep member.node n) [] := .done
  rw [keep_of_getElem? hnode] at hpath
  exact ⟨member, n, hmember, hnode, hpath, rfl⟩

theorem modify (hn : o.node? id = some n) (f : Node → Node) :
    Does o id (Task.modify f) () (o.put id (f n)) [] := by
  obtain ⟨member, hmember, hnode⟩ := node?_eq_some_iff.mp hn
  refine ⟨member, n, hmember, hnode, ?_, members_put⟩
  simp only [put, hmember]
  exact .done

theorem bind {f : α → Task β} (h : Does o id task a o₁ events)
    (hrest : Does o₁ id (f a) b o₂ events₁) : Does o id (task >>= f) b o₂ (events₁ ++ events) := by
  obtain ⟨member, n, hmember, hnode, hpath, hmembers⟩ := h
  obtain ⟨member₁, n₁, hmember₁, hnode₁, hpath₁, hmembers₁⟩ := hrest
  rw [hmembers, hmember] at hmember₁
  cases hmember₁
  exact ⟨member, n, hmember, hnode, hpath.bind hnode₁ hpath₁, hmembers₁.trans hmembers⟩

/-- A task that is followed by one in which nothing happens. -/
theorem bind_silent {f : α → Task β} (h : Does o id task a o₁ events)
    (hrest : Does o₁ id (f a) b o₂ []) : Does o id (task >>= f) b o₂ events :=
  h.bind hrest

/-- Reading the node's state. -/
theorem node_bind {f : Node → Task β} (hn : o.node? id = some n)
    (hrest : Does o id (f n) b o₂ events₁) : Does o id (Task.node >>= f) b o₂ events₁ := by
  have h := (Does.node hn).bind hrest
  rw [List.append_nil] at h
  exact h

/-- Changing the node's state. -/
theorem modify_bind {f : Unit → Task β} {change : Node → Node} (hn : o.node? id = some n)
    (hrest : Does (o.put id (change n)) id (f ()) b o₂ events₁) :
    Does o id (Task.modify change >>= f) b o₂ events₁ := by
  have h := (Does.modify hn change).bind hrest
  rw [List.append_nil] at h
  exact h

/-- A task whose result is put into another form. -/
theorem map {f : α → β} (h : Does o id task a o₁ events) (hn₁ : o₁.node? id = some m) :
    Does o id (task >>= fun x => Pure.pure (f x)) (f a) o₁ events :=
  h.bind (f := fun x => Pure.pure (f x)) (Does.pure hn₁)

/-- A request that is answered. -/
theorem ask {r : Request} {x : r.Answer} {member : Member}
    (hmember : o.members.get? id = some member) (hnode : o.nodes[member.node]? = some n)
    (h : Ends (fun fuel => answer fuel member.node n r) o x o₁ events)
    (hmembers : o₁.members = o.members) (hn₁ : o₁.nodes[member.node]? = some m) :
    Does o id (Task.ask r) x o₁ events := by
  refine ⟨member, n, hmember, hnode, ?_, hmembers⟩
  have hdone : Path member.node o₁ (.done x m) x (o₁.keep member.node m) [] := .done
  rw [keep_of_getElem? hn₁] at hdone
  rw [← keep_of_getElem? hnode] at h
  rw [← nodeAt_of_getElem? (m := n) hn₁] at hdone
  have hpath : Path member.node o (Task.ask r n) x o₁ ([] ++ events) := .wait h hdone
  exact hpath

theorem routine {r : Routine} {x : r.Result} (h : Does o id r.task x o₁ events)
    (hn₁ : o₁.node? id = some m) : Does o id (Task.routine r) x o₁ events := by
  obtain ⟨member, n, hmember, hnode, hpath, hmembers⟩ := h
  obtain ⟨member', hmember', hm⟩ := node?_eq_some_iff.mp hn₁
  rw [hmembers, hmember] at hmember'
  cases hmember'
  refine ⟨member, n, hmember, hnode, ?_, hmembers⟩
  have hdone : Path member.node o₁ (.done x m) x (o₁.keep member.node m) [] := .done
  rw [keep_of_getElem? hm] at hdone
  rw [← nodeAt_of_getElem? (m := n) hm] at hdone
  have hall : Path member.node o (Task.routine r n) x o₁ ([] ++ events) := .enter hpath hdone
  exact hall

end Does

/-- A running node's task ends with `a` and leaves `o'`, whatever happens on the way. -/
def Leads (o : Overlay ρ) (id : NodeId) (task : Task α) (a : α) (o' : Overlay ρ) : Prop :=
  ∃ events, Does o id task a o' events

namespace Leads

variable {task : Task α} {a : α} {b : β}

theorem of_does (h : Does o id task a o₁ events) : Leads o id task a o₁ := ⟨events, h⟩

theorem pure (hn : o.node? id = some n) : Leads o id (Pure.pure a) a o := of_does (Does.pure hn)

theorem bind {f : α → Task β} (h : Leads o id task a o₁) (hrest : Leads o₁ id (f a) b o₂) :
    Leads o id (task >>= f) b o₂ := by
  obtain ⟨_, h⟩ := h
  obtain ⟨_, hrest⟩ := hrest
  exact ⟨_, h.bind hrest⟩

theorem node_bind {f : Node → Task β} (hn : o.node? id = some n)
    (hrest : Leads o id (f n) b o₂) : Leads o id (Task.node >>= f) b o₂ := by
  obtain ⟨_, hrest⟩ := hrest
  exact ⟨_, Does.node_bind hn hrest⟩

theorem modify_bind {f : Unit → Task β} {change : Node → Node} (hn : o.node? id = some n)
    (hrest : Leads (o.put id (change n)) id (f ()) b o₂) :
    Leads o id (Task.modify change >>= f) b o₂ := by
  obtain ⟨_, hrest⟩ := hrest
  exact ⟨_, Does.modify_bind hn hrest⟩

theorem map {f : α → β} (h : Leads o id task a o₁) (hn₁ : o₁.node? id = some m) :
    Leads o id (task >>= fun x => Pure.pure (f x)) (f a) o₁ := by
  obtain ⟨_, h⟩ := h
  exact ⟨_, h.map hn₁⟩

theorem routine {r : Routine} {x : r.Result} (h : Leads o id r.task x o₁)
    (hn₁ : o₁.node? id = some m) : Leads o id (Task.routine r) x o₁ := by
  obtain ⟨_, h⟩ := h
  exact ⟨_, h.routine hn₁⟩

end Leads

/-! ## Messages -/

/-- A part that is run with an empty record comes after the event its result makes. -/
theorem Ends.recording {part : Nat → Run ρ α} {a : α} (h : Ends part o a o₁ events)
    (e : α → Event ρ) :
    Ends (fun fuel => recording e (part fuel)) o a o₁ (events ++ [e a]) := by
  obtain ⟨enough, hpart⟩ := h
  refine ⟨enough, fun fuel hfuel past => ?_⟩
  have hrun := hpart fuel hfuel []
  have hevents : events ++ [] ++ e a :: past = events ++ [e a] ++ past := by simp
  show (part fuel { o with events := [] }).bind _ = _
  rw [hrun]
  exact congrArg (fun es => some (a, { o₁ with events := es })) hevents

section

variable {message reply : Message}

/-- A message is handled by its receiver, if that one is not cut off. -/
theorem ends_deliver_reached (hup : o.holds .down other = false)
    (h : Does o other (Protocol.handleMessage id message) reply o₁ events) :
    Ends (fun fuel => deliver fuel id other message) o (.ok reply) o₁ events := by
  obtain ⟨member, n, hmember, hnode, hpath, -⟩ := h
  have hreach : o.reachable? other = some (member, n) := by
    rw [reachable?, hup]
    exact running?_eq_some_iff.mpr ⟨hmember, hnode⟩
  refine Ends.succ (fun _ => by rw [Overlay.deliver]) ?_
  refine Ends.look (fun _ _ => rfl) ?_
  rw [hreach]
  exact hpath.ends.map Except.ok

/-- A message to a node that is not reached is lost. -/
theorem ends_deliver_lost (hreach : o.reachable? other = none) :
    Ends (fun fuel => deliver fuel id other message) o
      (.error (.unreachable other .refused)) o [] := by
  refine Ends.succ (fun _ => by rw [Overlay.deliver]) ?_
  refine Ends.look (fun _ _ => rfl) ?_
  rw [hreach]
  exact Ends.pure

/-- A message is handled by its receiver. -/
theorem Ends.deliver (hcalm : o.Calm)
    (h : Does o other (Protocol.handleMessage id message) reply o₁ events) :
    Ends (fun fuel => deliver fuel id other message) o (.ok reply) o₁ events := by
  have hreached := h
  obtain ⟨member, -, hmember, -⟩ := hreached
  exact ends_deliver_reached (hcalm.up other member hmember) h

/-- Without rules a message is delivered. -/
theorem ends_transmit_deliver {outcome : Except NetError Message} (hrules : o.rules = [])
    (h : Ends (fun fuel => deliver fuel id other message) o outcome o₁ events) :
    Ends (fun fuel => transmit fuel id other message) o outcome o₁ events := by
  have htreat : ∀ past, ({ o with events := past }).treat id other message =
      (none, { o with events := past }) := by
    intro past
    simp only [treat, hrules, applyRules]
  refine Ends.succ (fun _ => by rw [Overlay.transmit]) ?_
  exact Ends.compute htreat h

namespace Does

/-- A request that is answered, with what happens until it is. -/
theorem request {r : Request} {x : r.Answer} (hn : o.node? id = some n)
    (h : ∀ i, Ends (fun fuel => answer fuel i n r) o x o₁ events)
    (hmembers : o₁.members = o.members) (hn₁ : o₁.node? id = some m) :
    Does o id (Task.ask r) x o₁ events := by
  obtain ⟨member, hmember, hnode⟩ := node?_eq_some_iff.mp hn
  obtain ⟨member', hmember', hnode₁⟩ := node?_eq_some_iff.mp hn₁
  rw [hmembers, hmember] at hmember'
  cases hmember'
  exact Does.ask hmember hnode (h member.node) hmembers hnode₁

variable {outcome : Except NetError Message}

/-- What comes of a call is what becomes of its message. -/
theorem call_of_deliver (hrules : o.rules = []) (hme : n.me = id) (hn : o.node? id = some n)
    (h : Ends (fun fuel => deliver fuel id other message) o outcome o₁ events)
    (hmembers : o₁.members = o.members) (hn₁ : o₁.node? id = some m) :
    Does o id (Task.call other message) outcome o₁
      (events ++ [.called id other message outcome]) := by
  have hanswer (i : Nat) : Ends (fun fuel => answer fuel i n (.call other message)) o outcome o₁
      (events ++ [.called id other message outcome]) := by
    refine Ends.succ (fun _ => by rw [answer]) ?_
    rw [hme]
    exact (ends_transmit_deliver hrules h).recording (.called id other message)
  exact Does.request hn hanswer hmembers hn₁

/-- What comes of a message of which only the delivery matters. -/
theorem send_of_deliver (hrules : o.rules = []) (hme : n.me = id) (hn : o.node? id = some n)
    (h : Ends (fun fuel => deliver fuel id other message) o outcome o₁ events)
    (hmembers : o₁.members = o.members) (hn₁ : o₁.node? id = some m) :
    Does o id (Task.send other message) (outcome.map fun _ => ()) o₁
      (events ++ [.sent id other message (outcome.map fun _ => ())]) := by
  have hanswer (i : Nat) : Ends (fun fuel => answer fuel i n (.send other message)) o
      (outcome.map fun _ => ()) o₁
      (events ++ [.sent id other message (outcome.map fun _ => ())]) := by
    refine Ends.succ (fun _ => by rw [answer]) ?_
    rw [hme]
    have hsent := (ends_transmit_deliver hrules h).map (Except.map fun _ => ())
    exact hsent.recording (.sent id other message)
  exact Does.request hn hanswer hmembers hn₁

/-- A call ends with what the receiver's handler replies. -/
theorem call (hcalm : o.Calm) (hn : o.node? id = some n)
    (h : Does o other (Protocol.handleMessage id message) reply o₁ events)
    (hn₁ : o₁.node? id = some m) :
    Does o id (Task.call other message) (.ok reply) o₁
      (events ++ [.called id other message (.ok reply)]) :=
  call_of_deliver hcalm.rules (hcalm.me hn) hn (Ends.deliver hcalm h) h.members hn₁

/-- A message that is only to be delivered. -/
theorem send (hcalm : o.Calm) (hn : o.node? id = some n)
    (h : Does o other (Protocol.handleMessage id message) reply o₁ events)
    (hn₁ : o₁.node? id = some m) :
    Does o id (Task.send other message) (.ok ()) o₁
      (events ++ [.sent id other message (.ok ())]) :=
  send_of_deliver hcalm.rules (hcalm.me hn) hn (Ends.deliver hcalm h) h.members hn₁

end Does

end

theorem Leads.call {message reply : Message} (hcalm : o.Calm) (hn : o.node? id = some n)
    (h : Leads o other (Protocol.handleMessage id message) reply o₁) (hn₁ : o₁.node? id = some m) :
    Leads o id (Task.call other message) (.ok reply) o₁ := by
  obtain ⟨_, h⟩ := h
  exact ⟨_, Does.call hcalm hn h hn₁⟩

end Overlay

end ChunkDirectory
