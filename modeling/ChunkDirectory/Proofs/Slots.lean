import ChunkDirectory.Proofs.SortedMap
import ChunkDirectory.Transport.Client

/-!
# Connection slots

A slot that is taken is held by an open attempt, or it is on its way back. That is all there is to
know about a client in every order of events (`Client.Balanced`): for each node, the slots taken are
as many as the attempts that are open and the slots that are still to be given back, and at most as
many as there may be. An attempt that is refused has no part in it, and neither has one that waits.

Since a slot on its way back is counted until it arrives, the count is not 0 when it does; and when
nothing is open and nothing is on its way, the count is (`Client.slots_balanced`). Counts that are
forgotten after a while are not part of the model.
-/

namespace ChunkDirectory

/-! ## Counting slots -/

namespace Connections

variable {cs cs' : Connections} {node x : NodeId}

/-- A slot is taken only if one is free. -/
theorem count_acquire (h : cs.acquire node = some cs') :
    cs.count node < limit ∧ ∀ x, cs'.count x = cs.count x + if x = node then 1 else 0 := by
  unfold acquire at h
  split at h
  case isFalse => cases h
  case isTrue hfree =>
    cases h
    refine ⟨hfree, fun x => ?_⟩
    by_cases hx : x = node
    · subst hx
      rw [if_pos rfl]
      simp [count]
    · simp only [count, SortedMap.get?_insert_of_ne hx, if_neg hx, Nat.add_zero]

theorem acquire_eq_none_iff : cs.acquire node = .none ↔ ¬ cs.count node < limit := by
  unfold acquire
  split
  case isTrue hfree => exact iff_of_false (by simp) (not_not_intro hfree)
  case isFalse hfull => exact iff_of_true rfl hfull

/-- A slot that was taken is given back. -/
theorem count_release (h : 0 < cs.count node) (x : NodeId) :
    (cs.release node).count x + (if x = node then 1 else 0) = cs.count x := by
  by_cases hx : x = node
  · subst hx
    have hone : (cs.release x).count x = cs.count x - 1 := by
      simp only [release, count, SortedMap.get?_modify_self]
      cases cs.active.get? x <;> rfl
    rw [if_pos rfl, hone]
    omega
  · rw [if_neg hx, Nat.add_zero]
    simp only [release, count, SortedMap.get?_modify_of_ne hx]

end Connections

/-! ## Open attempts -/

/-- An attempt holds a slot. -/
def CallState.isOpen : CallState → Bool
  | .connected _ => true
  | _ => false

namespace Call

/-- The call has an open attempt at the node. -/
def holds (call : Call) (node : NodeId) : Bool := call.state.isOpen && call.node = node

theorem isOpen_fail (call : Call) (failed : Nat) (e : NetError) :
    (call.fail failed e).state.isOpen = false := by
  unfold fail
  dsimp only
  split <;> rfl

theorem holds_eq_false {call : Call} (h : call.state.isOpen = false) (node : NodeId) :
    call.holds node = false := by
  rw [holds, h, Bool.false_and]

theorem holds_iff_of_open {call : Call} (h : call.state.isOpen = true) (node : NodeId) :
    call.holds node = true ↔ node = call.node := by
  rw [holds, h, Bool.true_and, decide_eq_true_iff, eq_comm]

end Call

namespace Client

variable {c c' : Client} {i : Nat} {call call' : Call} {node : NodeId}

/-- How many attempts at a node are open. -/
def opened (c : Client) (node : NodeId) : Nat := c.calls.countP (·.holds node)

/-- A call that changes may begin to count, or cease to. -/
theorem opened_setCall (hi : c.calls[i]? = some call) (call' : Call) (node : NodeId) :
    (c.setCall i call').opened node + (if call.holds node = true then 1 else 0) =
      c.opened node + if call'.holds node = true then 1 else 0 := by
  obtain ⟨hlt, hget⟩ := List.getElem?_eq_some_iff.mp hi
  have hcounted : (if call.holds node = true then 1 else 0) ≤ c.calls.countP (·.holds node) := by
    split
    case isTrue hholds =>
      exact List.countP_pos_iff.mpr ⟨call, List.mem_of_getElem? hi, hholds⟩
    case isFalse => exact Nat.zero_le _
  show (c.calls.set i call').countP _ + _ = c.calls.countP _ + _
  rw [List.countP_set hlt, hget]
  omega

/-- Every slot taken is held by an open attempt or on its way back, and there are not too many. -/
structure Balanced (c : Client) : Prop where
  taken : ∀ node, c.connections.count node = c.opened node + c.outstanding.count node
  limited : ∀ node, c.connections.count node ≤ Connections.limit

theorem balanced_start (me : NodeId) (known : NodeSet) (requests : List (NodeId × Message)) :
    (Client.start me known (requests.map fun r => .start r.1 r.2)).Balanced := by
  refine ⟨fun node => ?_, fun node => Nat.zero_le _⟩
  have hnone : (Client.start me known (requests.map fun r => .start r.1 r.2)).opened node = 0 := by
    refine List.countP_eq_zero.mpr fun call hcall => ?_
    obtain ⟨r, -, rfl⟩ := List.mem_map.mp hcall
    have hclosed : (Call.start r.1 r.2).state.isOpen = false := rfl
    rw [Call.holds_eq_false hclosed]
    exact Bool.false_ne_true
  rw [hnone]
  rfl

namespace Balanced

/-- What is done for calls without a slot does not matter. -/
theorem setCall (h : c.Balanced) (hi : c.calls[i]? = some call)
    (hclosed : call.state.isOpen = false) (hclosed' : call'.state.isOpen = false) :
    (c.setCall i call').Balanced := by
  refine ⟨fun node => ?_, h.limited⟩
  have hopened := opened_setCall hi call' node
  have htaken := h.taken node
  simp only [Call.holds_eq_false hclosed, Call.holds_eq_false hclosed'] at hopened
  show c.connections.count node = _ + c.outstanding.count node
  omega

/-- A free slot is taken by an attempt that opens. -/
theorem openAttempt (h : c.Balanced) (hi : c.calls[i]? = some call)
    (hclosed : call.state.isOpen = false) {connections : Connections}
    (hacquire : c.connections.acquire call.node = some connections) (failed : Nat) :
    ({ c with connections }.setCall i { call with state := .connected failed }).Balanced := by
  obtain ⟨hfree, hcount⟩ := Connections.count_acquire hacquire
  refine ⟨fun node => ?_, fun node => ?_⟩
  · have hopen : Call.holds { call with state := .connected failed } node = true ↔
        node = call.node := Call.holds_iff_of_open rfl node
    have hopened := opened_setCall (c := { c with connections }) hi
      { call with state := .connected failed } node
    have htaken := h.taken node
    have hsame : Client.opened { c with connections } node = c.opened node := rfl
    simp only [Call.holds_eq_false hclosed, hopen, Bool.false_eq_true, if_false, hsame] at hopened
    show connections.count node = _ + c.outstanding.count node
    rw [hcount]
    omega
  · have hlimited := h.limited node
    show connections.count node ≤ _
    rw [hcount]
    split
    case isTrue heq =>
      subst heq
      omega
    case isFalse => exact hlimited

/-- The slot of an attempt that closes is on its way back. -/
theorem closeAttempt (h : c.Balanced) (hi : c.calls[i]? = some call)
    (hopen : call.state.isOpen = true) (hclosed : call'.state.isOpen = false) :
    ((c.close call.node).setCall i call').Balanced := by
  refine ⟨fun node => ?_, h.limited⟩
  have hopened := opened_setCall (c := c.close call.node) hi call' node
  have htaken := h.taken node
  have hsame : (c.close call.node).opened node = c.opened node := rfl
  simp only [Call.holds_eq_false hclosed, Call.holds_iff_of_open hopen, Bool.false_eq_true,
    if_false, hsame] at hopened
  show c.connections.count node = _ + (c.outstanding ++ [call.node]).count node
  rw [List.count_append, List.count_singleton]
  simp only [beq_iff_eq, eq_comm (a := call.node)]
  omega

/-- A slot on its way back arrives. -/
theorem giveBack (h : c.Balanced) (hmem : node ∈ c.outstanding) :
    Client.Balanced { c with
      connections := c.connections.release node
      outstanding := c.outstanding.erase node } := by
  have hpos := List.count_pos_iff.mpr hmem
  have htaken := h.taken node
  have htake : 0 < c.connections.count node := by omega
  have hcount := Connections.count_release htake
  refine ⟨fun x => ?_, fun x => ?_⟩
  · have htaken := h.taken x
    have hx := hcount x
    show (c.connections.release node).count x = c.opened x + (c.outstanding.erase node).count x
    rw [List.count_erase]
    by_cases heq : x = node
    · subst heq
      simp only [if_true, beq_self_eq_true] at hx ⊢
      omega
    · have hne : (node == x) = false := beq_eq_false_iff_ne.mpr (Ne.symm heq)
      simp only [heq, hne, if_false, Bool.false_eq_true] at hx ⊢
      omega
  · exact Nat.le_trans (Nat.le.intro (hcount x)) (h.limited x)

end Balanced

/-! ## Events -/

/-- Why an attempt is refused. -/
def refusal (c : Client) (node : NodeId) : Obstacle :=
  if node ∈ c.known then .connectionLimit else .noAddress

/-- An attempt that is refused changes nothing but the call, which fails. -/
theorem attempt_of_refused {failed : Nat}
    (h : ¬ (call.node ∈ c.known ∧ c.connections.count call.node < Connections.limit)) :
    c.attempt i call failed =
      c.setCall i (call.fail failed (.unreachable call.node (c.refusal call.node))) := by
  unfold attempt refusal
  by_cases hknown : call.node ∈ c.known
  · have hcontains : c.known.contains call.node = true := decide_eq_true hknown
    have hfull := Connections.acquire_eq_none_iff.mpr fun hfree => h ⟨hknown, hfree⟩
    rw [hcontains, hfull, if_pos hknown]
    rfl
  · have hcontains : c.known.contains call.node = false := decide_eq_false hknown
    rw [hcontains, if_neg hknown]
    rfl

theorem Balanced.attempt (h : c.Balanced) (hi : c.calls[i]? = some call) {failed : Nat}
    (hpausing : call.state = .pausing failed) : (c.attempt i call failed).Balanced := by
  have hclosed : call.state.isOpen = false := by rw [hpausing]; rfl
  by_cases hfree : call.node ∈ c.known ∧ c.connections.count call.node < Connections.limit
  case neg =>
    rw [attempt_of_refused hfree]
    exact h.setCall hi hclosed (call.isOpen_fail failed _)
  case pos =>
    have hcontains : c.known.contains call.node = true := decide_eq_true hfree.1
    unfold Client.attempt
    rw [hcontains]
    cases hacquire : c.connections.acquire call.node with
    | none => exact absurd hfree.2 (Connections.acquire_eq_none_iff.mp hacquire)
    | some connections => exact h.openAttempt hi hclosed hacquire failed

theorem Balanced.finish (h : c.Balanced) (hi : c.calls[i]? = some call) {failed : Nat}
    (hconnected : call.state = .connected failed) (x : Exchange) :
    (c.finish i call failed x).Balanced := by
  have hopen : call.state.isOpen = true := by rw [hconnected]; rfl
  have hclose (call' : Call) (hclosed : call'.state.isOpen = false) (lost : List NodeId) :
      (Client.setCall { c.close call.node with lost } i call').Balanced := by
    obtain ⟨htaken, hlimited⟩ := h.closeAttempt hi hopen hclosed
    exact ⟨htaken, hlimited⟩
  unfold Client.finish
  dsimp only
  split
  · exact hclose _ rfl _
  · exact hclose _ (call.isOpen_fail failed _) _

theorem Balanced.drop (h : c.Balanced) (hi : c.calls[i]? = some call) :
    (c.drop i call).Balanced := by
  unfold Client.drop
  split
  case h_1 hpausing => exact h.setCall hi (by rw [hpausing]; rfl) rfl
  case h_2 hconnected => exact h.closeAttempt hi (by rw [hconnected]; rfl) rfl
  case h_3 => exact h

theorem Balanced.step (h : c.Balanced) (e : Event) : (c.step e).Balanced := by
  cases e with
  | attempt i =>
    simp only [Client.step]
    split
    case h_1 call hi =>
      split
      case h_1 hpausing => exact h.attempt hi hpausing
      case h_2 => exact h
    case h_2 => exact h
  | ended i x =>
    simp only [Client.step]
    split
    case h_1 call hi =>
      split
      case h_1 hconnected => exact h.finish hi hconnected x
      case h_2 => exact h
    case h_2 => exact h
  | dropped i =>
    simp only [Client.step]
    split
    case h_1 call hi => exact h.drop hi
    case h_2 => exact h
  | released node =>
    simp only [Client.step]
    split
    case isTrue hmem => exact h.giveBack hmem
    case isFalse => exact h

theorem Balanced.run (h : c.Balanced) (events : List Event) : (c.run events).Balanced := by
  induction events generalizing c with
  | nil => exact h
  | cons e events ih => exact ih (h.step e)

/-! ## All slots -/

theorem step_released (h : node ∈ c.outstanding) :
    c.step (.released node) =
      { c with
        connections := c.connections.release node
        outstanding := c.outstanding.erase node } := if_pos h

/-- What is on its way back can arrive. Then nothing is on its way, and no call has changed. -/
theorem run_released {l : List NodeId} (h : c.outstanding = l) :
    (c.run (l.map .released)).outstanding = [] ∧ (c.run (l.map .released)).calls = c.calls := by
  induction l generalizing c with
  | nil => exact ⟨h, rfl⟩
  | cons node rest ih =>
    have hstep := step_released (c := c) (h ▸ List.mem_cons_self : node ∈ c.outstanding)
    have hrest : (c.step (.released node)).outstanding = rest := by
      rw [hstep]
      show c.outstanding.erase node = rest
      rw [h, List.erase_cons_head]
    have hcalls : (c.step (.released node)).calls = c.calls := by rw [hstep]
    obtain ⟨hempty, hsame⟩ := ih hrest
    exact ⟨hempty, hsame.trans hcalls⟩

/-- Without open attempts and without slots on their way back, no slot is taken. -/
theorem Balanced.count_eq_zero (h : c.Balanced)
    (hclosed : ∀ call ∈ c.calls, call.state.isOpen = false) (hempty : c.outstanding = [])
    (node : NodeId) : c.connections.count node = 0 := by
  have hopened : c.opened node = 0 := by
    refine List.countP_eq_zero.mpr fun call hcall => ?_
    rw [Call.holds_eq_false (hclosed call hcall)]
    exact Bool.false_ne_true
  rw [h.taken, hopened, hempty, List.count_nil]

/-- However the attempts of calls that were begun together or one after the other come out and
whenever slots are given back: the slots taken at a node are those of open attempts and those on
their way back, and not more than there may be. A refused attempt leaves them alone. A slot that
arrives is counted until then. Once no attempt is open no slot is taken any more, as soon as all are
given back, and that can be done. -/
theorem slots_balanced (me : NodeId) (known : NodeSet) (requests : List (NodeId × Message))
    (events : List Event) (c : Client)
    (h : c = (Client.start me known (requests.map fun r => .start r.1 r.2)).run events) :
    (∀ node, c.connections.count node = c.opened node + c.outstanding.count node ∧
      c.connections.count node ≤ Connections.limit) ∧
    (∀ i call failed, c.calls[i]? = some call → call.state = .pausing failed →
      ¬ (call.node ∈ c.known ∧ c.connections.count call.node < Connections.limit) →
      c.step (.attempt i) =
        c.setCall i (call.fail failed (.unreachable call.node (c.refusal call.node)))) ∧
    (∀ node ∈ c.outstanding,
      (c.step (.released node)).connections.count node + 1 = c.connections.count node) ∧
    ((∀ call ∈ c.calls, call.state.isOpen = false) →
      (c.outstanding = [] → ∀ node, c.connections.count node = 0) ∧
      (c.run (c.outstanding.map .released)).outstanding = [] ∧
      ∀ node, (c.run (c.outstanding.map .released)).connections.count node = 0) := by
  have hbalanced : c.Balanced := h ▸ (balanced_start me known requests).run events
  refine ⟨fun node => ⟨hbalanced.taken node, hbalanced.limited node⟩,
    fun i call failed hi hpausing hrefused => ?_, fun node hmem => ?_, fun hclosed => ?_⟩
  · have hstep : c.step (.attempt i) = c.attempt i call failed := by
      simp only [Client.step, hi, hpausing]
    rw [hstep]
    exact attempt_of_refused hrefused
  · have hpos : 0 < c.connections.count node := by
      have hcount := List.count_pos_iff.mpr hmem
      rw [hbalanced.taken]
      omega
    have hcount := Connections.count_release hpos node
    rw [if_pos rfl] at hcount
    rw [step_released hmem]
    exact hcount
  · obtain ⟨hempty, hcalls⟩ := run_released (c := c) rfl
    exact ⟨hbalanced.count_eq_zero hclosed, hempty,
      (hbalanced.run _).count_eq_zero (fun call hcall => hclosed call (hcalls ▸ hcall)) hempty⟩

/-- Six calls to the same node at once: five connect, the other one is refused. One of the connections
breaks and one call is given up. Its slot arrives, and that of the broken connection does not yet. -/
theorem slots_balanced_sixCalls :
    ∃ c, c = (Client.start ⟨1⟩ (.ofList [⟨2⟩])
        ((List.replicate 6 (⟨2⟩, .pingSuperpeer)).map fun r => .start r.1 r.2)).run
          [.attempt 0, .attempt 1, .attempt 2, .attempt 3, .attempt 4, .attempt 5,
            .ended 0 .broken, .dropped 1, .released ⟨2⟩] ∧
      c.calls.map (·.state) = [.pausing 1, .dropped, .connected 0, .connected 0, .connected 0,
        .pausing 1] ∧
      c.opened ⟨2⟩ = 3 ∧ c.outstanding = [⟨2⟩] ∧ c.connections.count ⟨2⟩ = 4 ∧
      (c.step (.released ⟨2⟩)).connections.count ⟨2⟩ + 1 = 4 := by
  refine ⟨_, rfl, rfl, rfl, rfl, ?_⟩
  obtain ⟨hcounted, -, hreleased, -⟩ := slots_balanced ⟨1⟩ (.ofList [⟨2⟩])
    (List.replicate 6 (⟨2⟩, .pingSuperpeer)) [.attempt 0, .attempt 1, .attempt 2, .attempt 3,
      .attempt 4, .attempt 5, .ended 0 .broken, .dropped 1, .released ⟨2⟩] _ rfl
  have hcount := (hcounted ⟨2⟩).1
  exact ⟨hcount, (hreleased ⟨2⟩ List.mem_cons_self).trans hcount⟩

end Client

end ChunkDirectory
