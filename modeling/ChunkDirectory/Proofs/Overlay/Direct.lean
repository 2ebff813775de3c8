import ChunkDirectory.Proofs.Overlay.Calm

/-!
# Direct overlays

In a direct overlay every message to a running node reaches it, whether or not background work
waits; a message to any other identifier reaches nobody. Calm overlays are direct, and a task that
hands work to the background leaves a direct overlay direct.
-/

namespace ChunkDirectory

namespace Overlay

variable {ρ α : Type} {o o₁ : Overlay ρ} {id other : NodeId} {n m : Node}

/-- No rule interferes, no running node is cut off, and running nodes are found under their own
identifiers. -/
def Direct (o : Overlay ρ) : Prop := ({ o with queue := [] } : Overlay ρ).Calm

/-- Nothing has changed that concerns the running nodes. -/
structure SameNodes (o o₁ : Overlay ρ) : Prop where
  nodes : o₁.nodes = o.nodes
  members : o₁.members = o.members
  conditions : o₁.conditions = o.conditions
  rules : o₁.rules = o.rules

theorem SameNodes.node?_eq (h : o.SameNodes o₁) (id : NodeId) : o₁.node? id = o.node? id := by
  rw [node?, node?, running?, running?, h.members, h.nodes]

theorem Calm.direct (h : o.Calm) : o.Direct := ⟨h.rules, rfl, h.up, h.numbered⟩

theorem holds_put (o : Overlay ρ) (id : NodeId) (n : Node) (condition : Condition) (x : NodeId) :
    (o.put id n).holds condition x = o.holds condition x := by
  unfold put
  split <;> rfl

theorem put_put (o : Overlay ρ) (id : NodeId) (n m : Node) :
    (o.put id n).put id m = o.put id m := by
  cases hmember : o.members.get? id with
  | none => simp only [put, hmember]
  | some member =>
    have hmember' : (o.keep member.node n).members.get? id = some member := hmember
    simp only [put, hmember, hmember', keep_keep]

theorem node?_eq_none_iff : o.node? id = none ↔ o.running? id = none := Option.map_eq_none_iff

namespace Direct

theorem me (h : o.Direct) (hn : o.node? id = some n) : n.me = id := Calm.me h hn

theorem node?_put_of_ne (h : o.Direct) (hne : other ≠ id) :
    (o.put id n).node? other = o.node? other := by
  have hsame := Calm.node?_put_of_ne h (n := n) hne
  cases hmember : o.members.get? id with
  | none => simp only [Overlay.put, hmember]
  | some member =>
    simp only [Overlay.put, hmember] at hsame ⊢
    exact hsame

/-- Setting the state of a node keeps an overlay direct. -/
theorem put (h : o.Direct) (hme : n.me = id) : (o.put id n).Direct := by
  have hcalm := Calm.put h hme
  cases hmember : o.members.get? id with
  | none =>
    simp only [Overlay.put, hmember] at hcalm ⊢
    exact hcalm
  | some member =>
    simp only [Overlay.put, hmember] at hcalm ⊢
    exact hcalm

/-- What holds of all running nodes still does when a node is given a state of which it holds. -/
theorem forall_put {P : NodeId → Node → Prop} (h : o.Direct) (hn : o.node? id = some n)
    (hall : ∀ x k, o.node? x = some k → P x k) (hm : P id m) :
    ∀ x k, (o.put id m).node? x = some k → P x k := by
  intro x k hk
  by_cases heq : x = id
  · subst heq
    rw [node?_put_self hn] at hk
    cases hk
    exact hm
  · rw [h.node?_put_of_ne heq] at hk
    exact hall x k hk

theorem of_sameNodes (h : o.Direct) (hsame : o.SameNodes o₁) : o₁.Direct := by
  refine ⟨hsame.rules.trans h.rules, rfl, fun x member hmember => ?_, fun x member hmember => ?_⟩
  · have hup := h.up x member (hsame.members ▸ hmember)
    show decide (_ ∈ o₁.conditions) = false
    rw [hsame.conditions]
    exact hup
  · show ∃ n, o₁.nodes[member.node]? = some n ∧ n.me = x
    rw [hsame.nodes]
    exact h.numbered x member (hsame.members ▸ hmember)

end Direct

/-! ## Messages -/

section

variable {message reply : Message} {events : List (Event ρ)}

/-- A request that is answered. -/
theorem Leads.ask {r : Request} {x : r.Answer} (hn : o.node? id = some n)
    (h : ∀ i, Ends (fun fuel => answer fuel i n r) o x o₁ events)
    (hmembers : o₁.members = o.members) (hn₁ : o₁.node? id = some m) :
    Leads o id (Task.ask r) x o₁ :=
  .of_does (Does.request hn h hmembers hn₁)

namespace Direct

/-- A message is handled by its receiver. -/
theorem ends_deliver (h : o.Direct)
    (hhandle : Does o other (Protocol.handleMessage id message) reply o₁ events) :
    Ends (fun fuel => deliver fuel id other message) o (.ok reply) o₁ events := by
  have hreached := hhandle
  obtain ⟨member, -, hmember, -⟩ := hreached
  exact ends_deliver_reached (h.up other member hmember) hhandle

/-- A message to a node that is not running reaches nobody. -/
theorem ends_deliver_absent (habsent : o.node? other = none) :
    Ends (fun fuel => deliver fuel id other message) o
      (.error (.unreachable other .refused)) o [] := by
  refine ends_deliver_lost ?_
  rw [reachable?, node?_eq_none_iff.mp habsent]
  exact ite_self none

/-- A call is handled by its receiver and noted with the reply. -/
theorem does_call (h : o.Direct) (hn : o.node? id = some n)
    (hhandle : Does o other (Protocol.handleMessage id message) reply o₁ events)
    (hn₁ : o₁.node? id = some m) :
    Does o id (Task.call other message) (.ok reply) o₁
      (events ++ [.called id other message (.ok reply)]) :=
  .call_of_deliver h.rules (h.me hn) hn (h.ends_deliver hhandle) hhandle.members hn₁

/-- A call ends with what the receiver's handler replies. -/
theorem leads_call (h : o.Direct) (hn : o.node? id = some n)
    (hhandle : Leads o other (Protocol.handleMessage id message) reply o₁)
    (hn₁ : o₁.node? id = some m) : Leads o id (Task.call other message) (.ok reply) o₁ := by
  obtain ⟨events, hhandle⟩ := hhandle
  exact .of_does (h.does_call hn hhandle hn₁)

/-- A message of which only the delivery matters. -/
theorem leads_send (h : o.Direct) (hn : o.node? id = some n)
    (hhandle : Leads o other (Protocol.handleMessage id message) reply o₁)
    (hn₁ : o₁.node? id = some m) : Leads o id (Task.send other message) (.ok ()) o₁ := by
  obtain ⟨events, hhandle⟩ := hhandle
  have hdelivered := h.ends_deliver hhandle
  exact .of_does (.send_of_deliver (o := o) h.rules (h.me hn) hn hdelivered hhandle.members hn₁)

/-- A call that reaches nobody. -/
theorem leads_call_absent (h : o.Direct) (hn : o.node? id = some n)
    (habsent : o.node? other = none) :
    Leads o id (Task.call other message) (.error (.unreachable other .refused)) o :=
  .of_does (.call_of_deliver h.rules (h.me hn) hn (ends_deliver_absent habsent) rfl hn)

/-- A message that reaches nobody. -/
theorem leads_send_absent (h : o.Direct) (hn : o.node? id = some n)
    (habsent : o.node? other = none) :
    Leads o id (Task.send other message) (.error (.unreachable other .refused)) o :=
  .of_does (.send_of_deliver (o := o) h.rules (h.me hn) hn (ends_deliver_absent habsent) rfl hn)

end Direct

end

/-! ## Other requests -/

end Overlay

/-- A request that neither reaches another node nor waits. -/
def Request.isLocal : Request → Bool
  | .call .. | .send .. | .pause _ | .yieldToHandler => false
  | _ => true

namespace Overlay

variable {ρ : Type} {o : Overlay ρ} {id : NodeId} {n : Node}

/-- An answer that is taken note of. -/
theorem Ends.noting {α : Type} (a : α) (e : Event ρ) :
    Ends (fun _ => (noting a e : Run ρ α)) o a o [e] :=
  ⟨0, fun _ _ _ => rfl⟩

/-- Storage is asked to move a node's objects. -/
theorem leads_handOver (hn : o.node? id = some n) (target : NodeId) :
    Leads o id (Task.ask (.handOver target)) (!o.holds .handOverFails n.me) o := by
  let ok := !o.holds .handOverFails n.me
  have hanswer (i : Nat) : Ends (fun fuel => answer fuel i n (.handOver target)) o ok o
      [.handedOver n.me target ok] := by
    refine Ends.succ (fun _ => by rw [answer]) ?_
    exact Ends.look (fun _ _ => rfl) (Ends.noting _ _)
  exact Leads.ask hn hanswer rfl hn

/-- Storage is asked whether a node holds data. -/
theorem does_available (hn : o.node? id = some n) (x : NodeId) :
    Does o id (Task.ask (.available x)) (o.holds .holdsData x) o
      [.askedAvailable n.me x (o.holds .holdsData x)] := by
  have hanswer (i : Nat) : Ends (fun fuel => answer fuel i n (.available x)) o
      (o.holds .holdsData x) o [.askedAvailable n.me x (o.holds .holdsData x)] :=
    Ends.succ (fun _ => by rw [answer]) (Ends.look (fun _ _ => rfl) (Ends.noting _ _))
  exact Does.request hn hanswer rfl hn

/-- Storage is asked to rebuild a range. -/
theorem does_recover (hn : o.node? id = some n) (failed : NodeId) (range : RangeStart) :
    Does o id (Task.ask (.recover failed range)) (!o.holds .recoveryFails n.me) o
      [.recovered n.me failed range (!o.holds .recoveryFails n.me)] := by
  have hanswer (i : Nat) : Ends (fun fuel => answer fuel i n (.recover failed range)) o
      (!o.holds .recoveryFails n.me) o
      [.recovered n.me failed range (!o.holds .recoveryFails n.me)] :=
    Ends.succ (fun _ => by rw [answer]) (Ends.look (fun _ _ => rfl) (Ends.noting _ _))
  exact Does.request hn hanswer rfl hn

/-- Storage is told that a node is gone. -/
theorem does_reportFailure (hn : o.node? id = some n) (failed : NodeId) (wasSuperpeer : Bool) :
    Does o id (Task.ask (.reportFailure failed wasSuperpeer)) () o
      [.reportedFailure n.me failed wasSuperpeer] := by
  have hanswer (i : Nat) : Ends (fun fuel => answer fuel i n (.reportFailure failed wasSuperpeer))
      o () o [.reportedFailure n.me failed wasSuperpeer] :=
    Ends.succ (fun _ => by rw [answer]) (Ends.noting _ _)
  exact Does.request hn hanswer rfl hn

/-- To draw a number concerns no running node's state. -/
theorem exists_draw_eq (o : Overlay ρ) : ∃ x o₁, o.SameNodes o₁ ∧ ∀ past,
    ({ o with events := past } : Overlay ρ).draw = (x, { o₁ with events := past }) := by
  unfold Overlay.draw
  cases o.numbers with
  | nil => exact ⟨0, { o with numbers := [] }, ⟨rfl, rfl, rfl, rfl⟩, fun past => rfl⟩
  | cons x rest => exact ⟨x, { o with numbers := rest }, ⟨rfl, rfl, rfl, rfl⟩, fun past => rfl⟩

/-- A request whose answer changes no running node's state. -/
theorem SameNodes.leads_ask {r : Request} {x : r.Answer} (h : o.SameNodes o₁)
    (hn : o.node? id = some n) (hanswer : ∀ i, Ends (fun fuel => answer fuel i n r) o x o₁ []) :
    Leads o id (Task.ask r) x o₁ :=
  Leads.ask hn hanswer h.members ((h.node?_eq id).trans hn)

/-- A request that stays on the node concerns no running node's state. -/
theorem exists_leads_local {r : Request} (hn : o.node? id = some n) (hr : r.isLocal = true) :
    ∃ x o₁, Leads o id (Task.ask r) x o₁ ∧ o.SameNodes o₁ := by
  have hsame : o.SameNodes o := ⟨rfl, rfl, rfl, rfl⟩
  cases r with
  | call | send | pause | yieldToHandler => cases hr
  | handOver target => exact ⟨_, o, leads_handOver hn target, hsame⟩
  | reportFailure failed wasSuperpeer =>
    exact ⟨(), o, .of_does (does_reportFailure hn failed wasSuperpeer), hsame⟩
  | available node => exact ⟨_, o, .of_does (does_available hn node), hsame⟩
  | recover failed range => exact ⟨_, o, .of_does (does_recover hn failed range), hsame⟩
  | draw =>
    obtain ⟨x, o₁, hsame₁, hdraw⟩ := exists_draw_eq o
    have hanswer (i : Nat) : Ends (fun fuel => answer fuel i n .draw) o x o₁ [] :=
      Ends.succ (fun _ => by rw [answer]) ⟨0, fun _ _ past => congrArg some (hdraw past)⟩
    exact ⟨x, o₁, hsame₁.leads_ask hn hanswer, hsame₁⟩
  | shuffle size =>
    obtain ⟨x, o₁, hsame₁, hdraw⟩ := exists_draw_eq o
    have hanswer (i : Nat) : Ends (fun fuel => answer fuel i n (.shuffle size)) o
        (o₁.arrange x size) o₁ [] := by
      refine Ends.succ (fun _ => by rw [answer]) ?_
      refine Ends.compute (f := draw) hdraw ?_
      exact Ends.look (fun _ _ => rfl) Ends.pure
    exact ⟨_, o₁, hsame₁.leads_ask hn hanswer, hsame₁⟩
  | spawn work =>
    obtain ⟨member, hmember, hnode⟩ := node?_eq_some_iff.mp hn
    refine ⟨(), { o with queue := o.queue ++ [(member.node, work)] }, ⟨[], ?_⟩,
      ⟨rfl, rfl, rfl, rfl⟩⟩
    refine Does.ask (r := .spawn work) hmember hnode ?_ rfl hnode
    refine Ends.succ (fun _ => by rw [answer]) ?_
    exact Ends.change (f := fun o => { o with queue := o.queue ++ [(member.node, work)] })
      fun _ => rfl
  | startWorker =>
    obtain ⟨member, hmember, hnode⟩ := node?_eq_some_iff.mp hn
    refine ⟨(), o.startWorker member.node n, ⟨[], ?_⟩, ⟨rfl, rfl, rfl, rfl⟩⟩
    refine Does.ask (r := .startWorker) hmember hnode ?_ rfl hnode
    refine Ends.succ (fun _ => by rw [answer]) ?_
    exact Ends.change (f := (·.startWorker member.node n)) fun _ => rfl

end Overlay

end ChunkDirectory
