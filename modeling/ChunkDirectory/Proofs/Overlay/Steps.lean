import ChunkDirectory.Proofs.Overlay.Quiet

/-!
# Steps from outside

Steps are taken one after the other, each with its own record of events (`steps`). `Takes` says so
without fuel: with enough of it the steps have the given results and events, and lead to `o'` up to
the record of the last one.
-/

namespace ChunkDirectory

namespace Overlay

variable {ρ : Type} {o o₁ o₂ : Overlay ρ} {id : NodeId} {st : Step ρ}
  {ss : List (Step ρ)} {r : StepResult ρ} {rs : List (StepResult ρ × List (Event ρ))}
  {events : List (Event ρ)}

/-- Takes steps one after the other. -/
def steps (fuel : Nat) : List (Step ρ) → Run ρ (List (StepResult ρ × List (Event ρ)))
  | [] => return []
  | st :: rest => do
    let first ← step fuel st
    return first :: (← steps fuel rest)

/-- With enough fuel the steps have these results and events, and lead to `o'`. -/
def Takes (o : Overlay ρ) (ss : List (Step ρ)) (rs : List (StepResult ρ × List (Event ρ)))
    (o' : Overlay ρ) : Prop :=
  ∃ enough, ∀ fuel, enough ≤ fuel → ∀ past, ∃ last,
    steps fuel ss { o with events := past } = some (rs, { o' with events := last })

theorem Takes.nil : o.Takes [] [] o := ⟨0, fun _ _ past => ⟨past, rfl⟩⟩

/-- A step ends when the work it started is done. -/
theorem step_of_ends (h : Ends (fun fuel => takeStep fuel st) o r o₁ events)
    (hqueue : o₁.queue = []) :
    ∃ enough, ∀ fuel, enough ≤ fuel → ∀ past,
      step fuel st { o with events := past } =
        some ((r, events.reverse), { o₁ with events := events }) := by
  obtain ⟨enough, hstep⟩ := h
  obtain ⟨enough₁, hflush⟩ := Ends.flush hqueue
  refine ⟨max enough enough₁, fun fuel hfuel past => ?_⟩
  have h₁ : takeStep fuel st { o with events := [] } = some (r, { o₁ with events }) := by
    have hrun := hstep fuel (by omega) []
    rw [List.append_nil] at hrun
    exact hrun
  have h₂ : flush fuel { o₁ with events } = some ((), { o₁ with events }) :=
    hflush fuel (by omega) events
  show (takeStep fuel st { o with events := [] }).bind (fun x =>
    (flush fuel x.2).bind fun y => some ((x.1, y.2.events.reverse), y.2)) = _
  rw [h₁, Option.bind_some, h₂]
  rfl

theorem Takes.cons (h : Ends (fun fuel => takeStep fuel st) o r o₁ events) (hqueue : o₁.queue = [])
    (hrest : o₁.Takes ss rs o₂) : o.Takes (st :: ss) ((r, events.reverse) :: rs) o₂ := by
  obtain ⟨enough, hstep⟩ := step_of_ends h hqueue
  obtain ⟨enough₁, hrest⟩ := hrest
  refine ⟨max enough enough₁, fun fuel hfuel past => ?_⟩
  obtain ⟨last, hlast⟩ := hrest fuel (by omega) events
  refine ⟨last, ?_⟩
  show (step fuel st { o with events := past }).bind (fun x =>
    (steps fuel ss x.2).bind fun y => some (x.1 :: y.1, y.2)) = _
  rw [hstep fuel (by omega) past, Option.bind_some, hlast]
  rfl

/-- Running a task on a node is a step. -/
theorem Leads.run {task : Task ρ} {a : ρ} (h : Leads o id task a o₁) :
    ∃ events, Ends (fun fuel => takeStep fuel (.run id task)) o (.value a) o₁ events := by
  obtain ⟨events, member, n', hmember, hnode, hpath, -⟩ := h
  have hrunning := running?_eq_some_iff.mpr ⟨hmember, hnode⟩
  refine ⟨events, Ends.succ (fun _ => by rw [takeStep]) ?_⟩
  refine Ends.look (fun _ _ => rfl) ?_
  rw [hrunning]
  exact hpath.ends.map StepResult.value

end Overlay

end ChunkDirectory
