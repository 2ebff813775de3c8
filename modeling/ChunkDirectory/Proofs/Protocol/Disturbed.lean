import ChunkDirectory.Proofs.Concurrency.Tame

/-!
# Tasks among others

A run of a task on its node, step by step, with a record of what it asked of its surroundings and of
what it was answered. Any answer may come, and while the task waits other tasks may make anything of
the node, so that a run goes on from whatever state the node is in then (`Progress.Reaches`). A run
of two tasks one after the other is still in the first, or has left it behind (`reaches_bind`).
-/

namespace ChunkDirectory

/-- What a task asked for, in which state of its node, and what it was answered. -/
structure Answered where
  node : Node
  request : Request
  answer : request.Answer

namespace Answered

/-- The message that was sent, and to whom. -/
def sent? (e : Answered) : Option (NodeId × Message) :=
  match e.request with
  | .call target message => some (target, message)
  | .send target message => some (target, message)
  | _ => none

/-- The node that was sent a message and could not be reached. -/
def unreachable? : Answered → Option NodeId
  | ⟨_, .call target _, .error _⟩ => some target
  | ⟨_, .send target _, .error _⟩ => some target
  | _ => none

/-- The work that was started in the background. -/
def spawned? (e : Answered) : Option Background :=
  match e.request with
  | .spawn work => some work
  | _ => none

variable {n : Node} {target : NodeId} {work : Background} {message reply : Message} {e : NetError}
  {x : Except NetError Message}

@[simp] theorem sent?_call : sent? ⟨n, .call target message, x⟩ = some (target, message) := rfl

@[simp] theorem sent?_spawn : sent? ⟨n, .spawn work, ()⟩ = none := rfl

@[simp] theorem unreachable?_call_ok :
    unreachable? ⟨n, .call target message, .ok reply⟩ = none := rfl

@[simp] theorem unreachable?_call_error :
    unreachable? ⟨n, .call target message, .error e⟩ = some target := rfl

@[simp] theorem unreachable?_spawn : unreachable? ⟨n, .spawn work, ()⟩ = none := rfl

@[simp] theorem spawned?_call : spawned? ⟨n, .call target message, x⟩ = none := rfl

@[simp] theorem spawned?_spawn : spawned? ⟨n, .spawn work, ()⟩ = some work := rfl

end Answered

namespace Progress

/-- From the rest of a task, with such answers in this order, a run comes to another rest. -/
inductive Reaches {α : Type} : Progress α → List Answered → Progress α → Prop
  | here {p : Progress α} : Reaches p [] p
  | wait {n n' : Node} {r : Request} {resume : r.Answer → Node → Progress α} {q : Progress α}
      {log : List Answered} (x : r.Answer) :
      Reaches (resume x n') log q → Reaches (.wait n r resume) (⟨n, r, x⟩ :: log) q
  | enter {n n' : Node} {r : Routine} {resume : r.Result → Node → Progress α} {q : Progress α}
      {log : List Answered} :
      Reaches ((r.task n').bind resume) log q → Reaches (.enter n r resume) log q

variable {α β : Type} {a : α} {n : Node} {p q : Progress α} {log : List Answered}

theorem reaches_done : (Progress.done a n).Reaches log q ↔ log = [] ∧ q = .done a n := by
  constructor
  · intro h
    cases h
    exact ⟨rfl, rfl⟩
  · rintro ⟨rfl, rfl⟩
    exact .here

theorem reaches_wait {r : Request} {resume : r.Answer → Node → Progress α} :
    (Progress.wait n r resume).Reaches log q ↔
      log = [] ∧ q = .wait n r resume ∨
      ∃ x n' rest, log = ⟨n, r, x⟩ :: rest ∧ (resume x n').Reaches rest q := by
  constructor
  · intro h
    cases h with
    | here => exact .inl ⟨rfl, rfl⟩
    | wait x hrest => exact .inr ⟨x, _, _, rfl, hrest⟩
  · rintro (⟨rfl, rfl⟩ | ⟨x, n', rest, rfl, hrest⟩)
    · exact .here
    · exact .wait x hrest

/-- A run of a task that goes on with another one has not left the first, or it has ended it and is
in the second. -/
theorem reaches_bind {f : α → Task β} {q : Progress β} (h : (p.bind f).Reaches log q) :
    (∃ p', p.Reaches log p' ∧ q = p'.bind f) ∨
      ∃ first a m rest, log = first ++ rest ∧ p.Reaches first (.done a m) ∧
        (f a m).Reaches rest q := by
  generalize hp : p.bind f = start at h
  induction h generalizing p with
  | here => exact .inl ⟨p, .here, hp.symm⟩
  | wait x hrest ih =>
    cases p with
    | done a m =>
      have hp : f a m = _ := hp
      exact .inr ⟨[], a, m, _, rfl, .here, by rw [hp]; exact .wait x hrest⟩
    | wait m r resume =>
      cases hp
      rcases ih rfl with ⟨p', hp', rfl⟩ | ⟨first, a, k, rest, rfl, hfirst, hlast⟩
      · exact .inl ⟨p', .wait x hp', rfl⟩
      · exact .inr ⟨_, a, k, rest, rfl, .wait x hfirst, hlast⟩
    | enter m r resume => cases hp
  | enter hrest ih =>
    cases p with
    | done a m =>
      have hp : f a m = _ := hp
      exact .inr ⟨[], a, m, _, rfl, .here, by rw [hp]; exact .enter hrest⟩
    | wait m r resume => cases hp
    | enter m r resume =>
      cases hp
      rcases ih (bind_bind ..) with ⟨p', hp', rfl⟩ | ⟨first, a, k, rest, rfl, hfirst, hlast⟩
      · exact .inl ⟨p', .enter hp', rfl⟩
      · exact .inr ⟨_, a, k, rest, rfl, .enter hfirst, hlast⟩

end Progress

end ChunkDirectory
